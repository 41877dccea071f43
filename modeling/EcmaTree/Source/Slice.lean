/-!
# Slices of a text by byte offsets

Offsets count the bytes of the UTF-8 encoding. A slice exists only where both
offsets fall between two characters of the text and the first is not after the
second.
-/

namespace EcmaTree

/-- Bytes taken by a list of characters. -/
def byteLength : List Char → Nat
  | [] => 0
  | c :: cs => c.utf8Size + byteLength cs

theorem byteLength_append (xs ys : List Char) :
    byteLength (xs ++ ys) = byteLength xs + byteLength ys := by
  induction xs with
  | nil => simp [byteLength]
  | cons c cs ih => simp [byteLength, ih, Nat.add_assoc]

/-- The text after its first `n` bytes, if these are whole characters. -/
def dropBytes : Nat → List Char → Option (List Char)
  | 0, cs => some cs
  | _ + 1, [] => none
  | n + 1, c :: cs => if c.utf8Size ≤ n + 1 then dropBytes (n + 1 - c.utf8Size) cs else none

/-- The first `n` bytes of the text, if these are whole characters. -/
def takeBytes : Nat → List Char → Option (List Char)
  | 0, _ => some []
  | _ + 1, [] => none
  | n + 1, c :: cs =>
    if c.utf8Size ≤ n + 1 then (takeBytes (n + 1 - c.utf8Size) cs).map (c :: ·) else none

/-- The characters between two byte offsets. -/
def slice? (text : List Char) (start stop : Nat) : Option (List Char) :=
  if start ≤ stop then (dropBytes start text).bind (takeBytes (stop - start)) else none

theorem dropBytes_append (xs ys : List Char) :
    dropBytes (byteLength xs) (xs ++ ys) = some ys := by
  induction xs with
  | nil => simp [byteLength, dropBytes]
  | cons c cs ih =>
    have hc := c.utf8Size_pos
    obtain ⟨n, hn⟩ : ∃ n, byteLength (c :: cs) = n + 1 :=
      ⟨c.utf8Size - 1 + byteLength cs, by simp only [byteLength]; omega⟩
    have hle : c.utf8Size ≤ n + 1 := by rw [← hn]; simp [byteLength]
    have hrest : n + 1 - c.utf8Size = byteLength cs := by rw [← hn]; simp [byteLength]
    simp [hn, dropBytes, hle, hrest, ih]

theorem takeBytes_append (xs ys : List Char) :
    takeBytes (byteLength xs) (xs ++ ys) = some xs := by
  induction xs with
  | nil => simp [byteLength, takeBytes]
  | cons c cs ih =>
    have hc := c.utf8Size_pos
    obtain ⟨n, hn⟩ : ∃ n, byteLength (c :: cs) = n + 1 :=
      ⟨c.utf8Size - 1 + byteLength cs, by simp only [byteLength]; omega⟩
    have hle : c.utf8Size ≤ n + 1 := by rw [← hn]; simp [byteLength]
    have hrest : n + 1 - c.utf8Size = byteLength cs := by rw [← hn]; simp [byteLength]
    simp [hn, takeBytes, hle, hrest, ih]

/-- Cutting between whole stretches of a text gives the stretch in the middle. -/
theorem slice?_append (xs ys zs : List Char) :
    slice? (xs ++ ys ++ zs) (byteLength xs) (byteLength xs + byteLength ys) = some ys := by
  have hsub : byteLength xs + byteLength ys - byteLength xs = byteLength ys := by omega
  simp [slice?, List.append_assoc, dropBytes_append, hsub, takeBytes_append]

end EcmaTree
