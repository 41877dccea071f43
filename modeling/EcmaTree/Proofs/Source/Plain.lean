import EcmaTree.Source.Character
import Mathlib.Data.List.TakeWhile

/-!
# Stretches of a line

What ends a line, and which stretches of a text have no line terminator: a run of characters of
which none is a terminator, single characters, and stretches one behind the other.
-/

namespace EcmaTree

variable {text rest ending : List Char} {c : Char} {m n : Nat} {p : Char → Bool}

/-- A line terminator in front of the text `rest`. -/
inductive IsTerminator (rest : List Char) : List Char → Prop
  | carriageReturnLineFeed : IsTerminator rest ['\r', '\n']
  | single {c : Char} (terminator : isLineTerminator c = true)
      (whole : c = '\r' → rest.head? ≠ some '\n') : IsTerminator rest [c]

namespace IsTerminator

theorem ne_nil (h : IsTerminator rest ending) : ending ≠ [] := by
  cases h <;> nofun

theorem all (h : IsTerminator rest ending) : ∀ c ∈ ending, isLineTerminator c = true := by
  cases h with
  | carriageReturnLineFeed => exact List.all_eq_true.mp (by decide)
  | single terminator => simpa using terminator

/-- What stands in front of more text is a terminator also if that text is left out. -/
theorem of_append {after : List Char} (h : IsTerminator (rest ++ after) ending) :
    IsTerminator rest ending := by
  cases h with
  | carriageReturnLineFeed => exact .carriageReturnLineFeed
  | single terminator whole =>
    refine .single terminator fun hc hfeed => whole hc ?_
    rw [List.head?_append, hfeed, Option.some_or]

end IsTerminator

def lineTerminators : List Char :=
  ['\n', '\r', '\u2028', '\u2029']

theorem mem_lineTerminators (h : isLineTerminator c = true) : c ∈ lineTerminators := by
  simpa [isLineTerminator, lineTerminators, or_assoc] using h

/-- A line terminator is skipped between tokens. -/
theorem isBlank_of_terminator (h : isLineTerminator c = true) : isBlank c = true := by
  have hblank : lineTerminators.all isBlank = true := by decide
  exact List.all_eq_true.mp hblank c (mem_lineTerminators h)

theorem hasLineBreak_cons :
    hasLineBreak (c :: rest) = false ↔ isLineTerminator c = false ∧ hasLineBreak rest = false := by
  simp [hasLineBreak]

theorem hasLineBreak_append :
    hasLineBreak (text ++ rest) = false ↔ hasLineBreak text = false ∧ hasLineBreak rest = false := by
  simp [hasLineBreak]

/-- Characters of a kind to which no line terminator belongs. -/
theorem plain_of_forall (hp : lineTerminators.any p = false) (h : ∀ c ∈ text, p c = true) :
    hasLineBreak text = false := by
  rw [hasLineBreak, List.any_eq_false]
  intro c hc hterminator
  exact List.any_eq_false.mp hp c (mem_lineTerminators hterminator) (h c hc)

theorem take_length_takeWhile (p : Char → Bool) (text : List Char) :
    text.take (text.takeWhile p).length = text.takeWhile p :=
  (List.prefix_iff_eq_take.mp (List.takeWhile_prefix p)).symm

theorem plain_takeWhile (hp : lineTerminators.any p = false) :
    hasLineBreak (text.take (text.takeWhile p).length) = false := by
  rw [take_length_takeWhile]
  exact plain_of_forall hp fun _ => List.mem_takeWhile_imp

theorem plain_take_add (h : hasLineBreak (text.take m) = false)
    (h' : hasLineBreak ((text.drop m).take n) = false) : hasLineBreak (text.take (m + n)) = false := by
  rw [List.take_add]
  exact hasLineBreak_append.mpr ⟨h, h'⟩

theorem plain_take_cons (hc : isLineTerminator c = false) (h : hasLineBreak (text.take n) = false) :
    hasLineBreak ((c :: text).take (n + 1)) = false := by
  rw [List.take_succ_cons]
  exact hasLineBreak_cons.mpr ⟨hc, h⟩

/-- The first character, if it is one of those looked for. -/
theorem plain_filter (hp : lineTerminators.any p = false) :
    hasLineBreak (text.take ((text.take 1).filter p).length) = false := by
  cases text with
  | nil => rfl
  | cons c rest =>
    rw [List.take_succ_cons, List.take_zero]
    cases hc : p c with
    | false =>
      rw [List.filter_cons_of_neg (by rw [hc]; nofun)]
      rfl
    | true =>
      rw [List.filter_cons_of_pos hc]
      have hplain : hasLineBreak [c] = false := plain_of_forall hp (by simpa using hc)
      exact plain_take_cons (hasLineBreak_cons.mp hplain).1 rfl

end EcmaTree
