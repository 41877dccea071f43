import EcmaTree.Proofs.Source.Exact

/-!
# Slices that meet

A slice stands for a division of the text into what lies before it, the slice and what lies
behind it. Byte offsets decide the division, so two slices of which one begins where the
other ends make up the slice over both.
-/

namespace EcmaTree

variable {text : List Char}

theorem byteLength_pos {text : List Char} : 0 < byteLength text ↔ text ≠ [] := by
  cases text with
  | nil => simp [byteLength]
  | cons c rest =>
    have hsize := c.utf8Size_pos
    simp only [byteLength, ne_eq, reduceCtorEq, not_false_eq_true, iff_true]
    omega

/-- Every character takes a byte at least. -/
theorem length_le_byteLength (text : List Char) : text.length ≤ byteLength text := by
  induction text with
  | nil => exact Nat.le_refl _
  | cons c rest ih =>
    have hsize := c.utf8Size_pos
    simp only [byteLength, List.length_cons]
    omega

/-- Two divisions of a text at the same offset are the same division. -/
theorem append_inj_of_byteLength {xs ys zs ws : List Char} (h : xs ++ ys = zs ++ ws)
    (hlen : byteLength xs = byteLength zs) : xs = zs ∧ ys = ws := by
  induction xs generalizing zs with
  | nil =>
    have hz : zs = [] := by
      refine Decidable.not_not.mp fun hz => ?_
      have hpos := byteLength_pos.mpr hz
      simp only [byteLength] at hlen
      omega
    subst hz
    exact ⟨rfl, h⟩
  | cons c xs ih =>
    cases zs with
    | nil =>
      have hpos := byteLength_pos.mpr (List.cons_ne_nil c xs)
      simp only [byteLength] at hlen hpos
      omega
    | cons d zs =>
      obtain ⟨rfl, htail⟩ := List.cons.inj h
      have hlen : byteLength xs = byteLength zs := by
        simp only [byteLength] at hlen
        omega
      obtain ⟨rfl, rfl⟩ := ih htail hlen
      exact ⟨rfl, rfl⟩

theorem of_dropBytes {n : Nat} {xs ys : List Char} (h : dropBytes n xs = some ys) :
    ∃ zs, xs = zs ++ ys ∧ n = byteLength zs := by
  induction xs generalizing n with
  | nil =>
    cases n with
    | zero =>
      cases h
      exact ⟨[], rfl, rfl⟩
    | succ n => cases h
  | cons c xs ih =>
    cases n with
    | zero =>
      cases h
      exact ⟨[], rfl, rfl⟩
    | succ n =>
      unfold dropBytes at h
      split at h
      · obtain ⟨zs, rfl, hn⟩ := ih h
        refine ⟨c :: zs, rfl, ?_⟩
        simp only [byteLength]
        omega
      · cases h

theorem of_takeBytes {n : Nat} {xs ys : List Char} (h : takeBytes n xs = some ys) :
    ∃ zs, xs = ys ++ zs ∧ n = byteLength ys := by
  induction xs generalizing n ys with
  | nil =>
    cases n with
    | zero =>
      cases h
      exact ⟨[], rfl, rfl⟩
    | succ n => cases h
  | cons c xs ih =>
    cases n with
    | zero =>
      cases h
      exact ⟨c :: xs, rfl, rfl⟩
    | succ n =>
      unfold takeBytes at h
      split at h
      · obtain ⟨ys, hys, rfl⟩ := Option.map_eq_some_iff.mp h
        obtain ⟨zs, rfl, hn⟩ := ih hys
        refine ⟨zs, rfl, ?_⟩
        simp only [byteLength]
        omega
      · cases h

theorem slice?_eq_some_iff {start stop : Nat} {ys : List Char} :
    slice? text start stop = some ys ↔
      ∃ xs zs, text = xs ++ ys ++ zs ∧ start = byteLength xs ∧
        stop = byteLength xs + byteLength ys := by
  constructor
  · intro h
    unfold slice? at h
    split at h
    · obtain ⟨rest, hdrop, htake⟩ := Option.bind_eq_some_iff.mp h
      obtain ⟨xs, rfl, rfl⟩ := of_dropBytes hdrop
      obtain ⟨zs, rfl, hlen⟩ := of_takeBytes htake
      refine ⟨xs, zs, by rw [List.append_assoc], rfl, by omega⟩
    · cases h
  · rintro ⟨xs, zs, rfl, rfl, rfl⟩
    exact slice?_append xs ys zs

theorem le_of_slice? {start stop : Nat} {ys : List Char} (h : slice? text start stop = some ys) :
    start ≤ stop := by
  obtain ⟨xs, zs, -, rfl, rfl⟩ := slice?_eq_some_iff.mp h
  exact Nat.le_add_right _ _

/-- A slice that is not empty covers at least one byte. -/
theorem lt_of_slice? {start stop : Nat} {ys : List Char} (h : slice? text start stop = some ys)
    (hne : ys ≠ []) : start < stop := by
  obtain ⟨xs, zs, -, rfl, rfl⟩ := slice?_eq_some_iff.mp h
  exact Nat.lt_add_of_pos_right (byteLength_pos.mpr hne)

theorem slice?_trans {a b c : Nat} {xs ys : List Char} (h : slice? text a b = some xs)
    (h' : slice? text b c = some ys) : slice? text a c = some (xs ++ ys) := by
  obtain ⟨before, rest, htext, rfl, rfl⟩ := slice?_eq_some_iff.mp h
  obtain ⟨before', after, htext', hb, rfl⟩ := slice?_eq_some_iff.mp h'
  rw [List.append_assoc before'] at htext'
  rw [← byteLength_append] at hb
  obtain ⟨rfl, rfl⟩ := append_inj_of_byteLength (htext.symm.trans htext') hb
  refine slice?_eq_some_iff.mpr ⟨before, after, ?_, rfl, ?_⟩
  · rw [htext, List.append_assoc, List.append_assoc, List.append_assoc]
  · rw [byteLength_append, byteLength_append, Nat.add_assoc]

/-- Of two parts at the end of a text the longer one goes on with the other, behind the slice that
lies between where they begin. -/
theorem slice?_of_beginsAt {m n : Nat} {xs ys : List Char} (h : BeginsAt text m xs)
    (h' : BeginsAt text n ys) (hle : m ≤ n) :
    slice? text m n = some ((takeBytes (n - m) xs).getD []) := by
  obtain ⟨before, htext, rfl⟩ := h
  obtain ⟨before', htext', rfl⟩ := h'
  have hsplit : ∃ gap, before' = before ++ gap ∧ xs = gap ++ ys := by
    rcases List.append_eq_append_iff.mp (htext.symm.trans htext') with
      ⟨gap, hbefore, hys⟩ | ⟨gap, rfl, hxs⟩
    · exact ⟨gap, hbefore, hys⟩
    · rw [byteLength_append] at hle
      obtain rfl : gap = [] := by
        refine Decidable.not_not.mp fun hne => ?_
        have hpos := byteLength_pos.mpr hne
        omega
      exact ⟨[], by simp, by simpa using hxs.symm⟩
  obtain ⟨gap, rfl, rfl⟩ := hsplit
  rw [htext', byteLength_append, Nat.add_sub_cancel_left, takeBytes_append]
  exact slice?_append before gap ys

namespace Cursor

variable {c : Cursor}

/-- The slice that a cursor passes over on its way. -/
theorem slice?_pass (h : c.IsIn text) (n : Nat) (lines : LineCount) :
    slice? text c.offset (c.pass n lines).offset = some (c.rest.take n) := by
  obtain ⟨before, htext, hoffset⟩ := h
  refine slice?_eq_some_iff.mpr ⟨before, c.rest.drop n, ?_, hoffset, ?_⟩
  · rw [List.append_assoc, List.take_append_drop, htext]
  · rw [pass_offset, hoffset]

theorem slice?_skip (h : c.IsIn text) (n : Nat) :
    slice? text c.offset (c.skip n).offset = some (c.rest.take n) :=
  slice?_pass h n .zero

/-- Nothing lies between a cursor and itself. -/
theorem slice?_self (h : c.IsIn text) : slice? text c.offset c.offset = some [] :=
  slice?_skip h 0

theorem offset_le_pass (n : Nat) (lines : LineCount) (c : Cursor) :
    c.offset ≤ (c.pass n lines).offset := by
  rw [pass_offset]
  exact Nat.le_add_right _ _

theorem length_pass_le (n : Nat) (lines : LineCount) (c : Cursor) :
    (c.pass n lines).rest.length ≤ c.rest.length := by
  rw [pass_rest, List.length_drop]
  exact Nat.sub_le _ _

/-- Before the end of the text the cursor moves on by at least one character. -/
theorem lt_pass {n : Nat} (lines : LineCount) (hn : 0 < n) (hc : c.rest ≠ []) :
    c.offset < (c.pass n lines).offset ∧ (c.pass n lines).rest.length < c.rest.length := by
  have hpos : 0 < byteLength (c.rest.take n) := byteLength_pos.mpr (by simp [hc, Nat.ne_of_gt hn])
  have hlength : 0 < c.rest.length := List.length_pos_iff.mpr hc
  rw [pass_offset, pass_rest, List.length_drop]
  omega

theorem offset_of_rest_eq_nil (h : c.IsIn text) (hr : c.rest = []) :
    c.offset = byteLength text := by
  obtain ⟨before, htext, hoffset⟩ := h
  rw [hr, List.append_nil] at htext
  rw [hoffset, htext]

end Cursor

end EcmaTree
