import EcmaTree.Proofs.Grammar.Patterns

/-!
# Default values in the place of a target

The conversion makes a default value of every assignment, also where no pattern is around it. So
the left side of an assignment may be a default value if it was an assignment in parentheses; then
it begins later than the whole. The head of a loop takes an assignment without parentheses as well.
A rest is never a left side.
-/

namespace EcmaTree

open EcmaTree.Grammar Node

namespace Node

/-- The pattern on the left of an assignment, of a default value or of the head of a loop. -/
def leftSide? : {c : Category} → Node c → Option Pattern
  | _, .assignment _ _ target _ | _, .defaultPattern _ target _ | _, .targetPattern target =>
    some target
  | _, _ => none

/-- In the tree `root` a left side is never a rest, and it is a default value only where it begins
behind the whole or is the head of a loop. -/
structure IsTargetLegal (root : (c : Category) × Node c) : Prop where
  not_rest : ∀ {m p}, Occurs root m → m.2.leftSide? = some p → p.isRest = false
  default_behind : ∀ {m p}, Occurs root m → m.2.leftSide? = some p → p.isDefault = true →
    m.1 = .forTarget ∨ m.2.span.start.offset < p.span.start.offset

end Node

namespace Targets

variable {options : ParseOptions} {σ : Scope} {c : Category} {n : Node c} {p : Pattern}

theorem mem_loneTargets (hp : n.leftSide? = some p) : p ∈ n.loneTargets := by
  cases n with
  | assignment | defaultPattern | targetPattern =>
    cases hp
    exact List.mem_cons_self
  | _ => cases hp

theorem behind_of_heeds (h : n.Heeds σ) (hp : n.leftSide? = some p) (hd : p.isDefault = true) :
    c = .forTarget ∨ n.span.start.offset < p.span.start.offset := by
  cases n with
  | assignment | defaultPattern =>
    cases hp
    exact .inr (h hd)
  | targetPattern => exact .inl rfl
  | _ => cases hp

theorem isTargetLegal_of_isFormed (h : n.IsFormed options σ) : IsTargetLegal ⟨c, n⟩ where
  not_rest hm hp := by
    obtain ⟨τ, hsite⟩ := exists_site_of_occurs σ hm
    exact Patterns.not_isRest_of_obeys (h.everywhere _ hsite).obeys (mem_loneTargets hp)
  default_behind hm hp hd := by
    obtain ⟨τ, hsite⟩ := exists_site_of_occurs σ hm
    exact behind_of_heeds (h.everywhere _ hsite).heeds hp hd

end Targets

/-- In an accepted program the left side of an assignment or of a default value is itself a
default value only if it stands in parentheses, and never a rest. -/
theorem isTargetLegal_of_parse {options : ParseOptions} {text : List Char} {file : File}
    (h : (parse options text).result = .ok file) : IsTargetLegal ⟨_, file.program.body⟩ :=
  Targets.isTargetLegal_of_isFormed (isFormed_of_parse h)

/-- A default on the left of an assignment, inside of a pattern, and in the head of a loop. -/
theorem isTargetLegal_of_parse_default : ∃ file,
    (parse {} "(a = b) = [(c = d) = e] = f; for (g = h of i);".toList).result = .ok file ∧
      IsTargetLegal ⟨_, file.program.body⟩ := by
  obtain ⟨file, h⟩ := exists_of_isOk (x := (parse {}
    "(a = b) = [(c = d) = e] = f; for (g = h of i);".toList).result) (by decide +kernel)
  exact ⟨file, h, isTargetLegal_of_parse h⟩

end EcmaTree
