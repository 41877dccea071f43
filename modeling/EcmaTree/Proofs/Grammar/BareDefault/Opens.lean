import EcmaTree.Proofs.Grammar.BareDefault

/-!
# What leaves a default pending

An expression behind which a default is pending that was not pending before has a bare default on
its spine, and the pending place is not before the expression. So a value without one on its spine
is read in the same way where none may stay pending.
-/

namespace EcmaTree

open EcmaTree.Parser EcmaTree.Grammar EcmaTree.Reading EcmaTree.Trail ParseState

/-- A default that is pending now, and was not before, lies at `start` or behind, where something
`opens` it. -/
def LeavesPending (pending after : Pending) (start : Place) (opens : Prop) : Prop :=
  pending = none → ∀ place, after = some place → start.offset ≤ place.offset ∧ opens

namespace LeavesPending

variable {pending between after : Pending} {start start' : Place} {p q : Prop}

theorem of_same : LeavesPending pending pending start p := by
  rintro rfl _ ⟨⟩

theorem mono (h : LeavesPending pending after start p) (hle : start'.offset ≤ start.offset)
    (himp : p → q) : LeavesPending pending after start' q := by
  intro hnone place hplace
  obtain ⟨hstart, hp⟩ := h hnone place hplace
  exact ⟨Nat.le_trans hle hstart, himp hp⟩

/-- Of two pieces one after the other the first one opens a default, or the second one does. -/
theorem append (h : LeavesPending pending between start p)
    (h' : LeavesPending between after start' q)
    (hkeeps : ∀ place, between = some place → after = some place)
    (hle : start.offset ≤ start'.offset) : LeavesPending pending after start (p ∨ q) := by
  intro hnone place hplace
  cases hb : between with
  | none =>
    obtain ⟨hstart, hq⟩ := h' hb place hplace
    exact ⟨Nat.le_trans hle hstart, .inr hq⟩
  | some first =>
    obtain ⟨hstart, hp⟩ := h hnone first hb
    cases (hkeeps first hb).symm.trans hplace
    exact ⟨hstart, .inl hp⟩

end LeavesPending

/-- What the answer to a goal opens. -/
def Goal.Opens (g : Goal) (s : ParseState) (r : g.Result) : Prop :=
  match g, r with
  | .assignment _ _ pending, r | .unary pending, r | .primary pending, r =>
    LeavesPending pending r.2 r.1.span.start (r.1.opensDefault = true)
  | .elements _ _ _ _ pending, r =>
    LeavesPending pending r.2 s.place (∃ x, some x ∈ r.1 ∧ x.opensDefault = true)
  | .members _ pending, r =>
    LeavesPending pending r.2 s.place (∃ x ∈ r.1, x.opensDefault = true)
  | _, _ => True

namespace BareDefault

open Node

variable {d : Descent} {s u : ParseState}

theorem opensDefault_ofList {c : Category} {xs : List (Node c)} :
    (ofList xs).opensDefault = true ↔ ∃ x ∈ xs, x.opensDefault = true := by
  induction xs with
  | nil => simp [ofList, opensDefault]
  | cons x xs ih => simp [ofList, opensDefault, ih]

theorem opensDefault_ofHoleyList {c : Category} {xs : List (Option (Node c))} :
    (ofHoleyList xs).opensDefault = true ↔ ∃ x, some x ∈ xs ∧ x.opensDefault = true := by
  rw [ofHoleyList, opensDefault_ofList]
  constructor
  · rintro ⟨_, hmem, hopens⟩
    obtain ⟨_ | x, hx, rfl⟩ := List.mem_map.mp hmem
    · cases hopens
    · exact ⟨x, hx, hopens⟩
  · rintro ⟨x, hx, hopens⟩
    exact ⟨_, List.mem_map_of_mem hx, hopens⟩

/-- What leaves the pending default as it was opens none. -/
theorem opens_of_primary_same {pending : Pending} {e : Expression} :
    Goal.Opens (.primary pending) s (e, pending) :=
  LeavesPending.of_same

section Rules

/- The answers that a rule depends on follow their token streams, hold what they should, and open
what they should. -/
variable (ht : ∀ g s r u, d g s = .ok r u → g.IsBounded → g.Traces s u)
  (hd : ∀ g s r u, d g s = .ok r u → g.IsBounded → s.stream.IsPlaced → g.Holds s r u)
  (ho : ∀ g s r u, d g s = .ok r u → g.IsBounded → s.stream.IsPlaced → g.Opens s r)

include ho

theorem opens_of_unary {pending : Pending} {r : Expression × Pending} (hs : s.stream.IsPlaced)
    (h : Unary d pending s r u) : Goal.Opens (.unary pending) s r := by
  cases h with
  | operator kind unary_ok => exact LeavesPending.of_same
  | pending left_ok =>
    cases left_ok with
    | atom atom_ok => exact ho (.primary pending) _ _ _ atom_ok trivial hs
  | trailing left_ok more => exact fun _ _ => nofun

theorem opens_of_conditional {noIn : Bool} {pending : Pending} {r : Expression × Pending}
    (hs : s.stream.IsPlaced) (h : Conditional d noIn pending s r u) :
    LeavesPending pending r.2 r.1.span.start (r.1.opensDefault = true) := by
  cases h with
  | plain test_ok =>
    cases test_ok with
    | operand first => exact ho _ _ _ _ first trivial hs
    | operators first more => exact fun _ _ => nofun
  | choice => exact fun _ _ => nofun

/-- In its target an assignment takes up all that is opened there. -/
theorem opens_of_assignment {noIn owned : Bool} {outer : Pending} {r : Expression × Pending}
    (hs : s.stream.IsPlaced) (h : Assignment d noIn owned outer s r u) :
    Goal.Opens (.assignment noIn owned outer) s r := by
  have hmark : s.markArrow.stream.IsPlaced := by rwa [stream_markArrow]
  have hinherited : outer = none → (if owned then none else outer) = none := by
    rintro rfl
    exact ite_self _
  cases h with
  | yield scope word yield_ok => exact LeavesPending.of_same
  | plain left_ok last settled =>
    intro hnone place hplace
    exact opens_of_conditional ho hmark (of_conditional left_ok) (hinherited hnone) place hplace
  | assign left_ok kind spelling simple target_ok legal word value_ok =>
    intro hnone place hplace
    have hopens := opens_of_conditional ho hmark (of_conditional left_ok) (hinherited hnone)
    cases owned with
    | true => cases hplace
    | false =>
      obtain ⟨hpending, hlt⟩ := Option.filter_eq_some_iff.mp hplace
      obtain ⟨hle, -⟩ := hopens place hpending
      exact absurd (of_decide_eq_true hlt) (Nat.not_lt_of_le hle)

include hd

theorem opens_of_listElement {holes : Bool} {pending : Pending} {r : Option Element × Pending}
    (hs : s.stream.IsPlaced) (h : ListElement d holes pending s r u) :
    LeavesPending pending r.2 s.place (∃ x, r.1 = some x ∧ x.opensDefault = true) := by
  cases h with
  | hole => exact LeavesPending.of_same
  | spread dots argument_ok =>
    rintro rfl place hplace
    have hf := follows_of_takes dots (by decide)
    have h₁ := placed hs hf
    obtain ⟨-, hstart⟩ := gathers_of_value hd h₁ isBehind_none argument_ok
    have hopens := ho _ _ _ _ argument_ok trivial h₁
    have hle := Nat.le_trans (place_le_of_follows hs hf) hstart
    exact hopens.mono hle (fun h => ⟨_, rfl, h⟩) rfl place hplace
  | item item_ok =>
    rintro rfl place hplace
    obtain ⟨-, hstart⟩ := gathers_of_value hd hs isBehind_none item_ok
    have hopens := ho _ _ _ _ item_ok trivial hs
    exact hopens.mono hstart (fun h => ⟨_, rfl, h⟩) rfl place hplace

include ht

theorem opens_of_elements {stop : TokenKind} {trailingComma holes isFirst : Bool}
    {pending : Pending} {r : List (Option Element) × Pending} (hstop : stop ≠ .eof)
    (hs : s.stream.IsPlaced) (h : Elements d stop trailingComma holes isFirst pending s r u) :
    LeavesPending pending r.2 s.place (∃ x, some x ∈ r.1 ∧ x.opensDefault = true) := by
  cases h with
  | closed | trailing => exact LeavesPending.of_same
  | item comma item_ok more =>
    rintro rfl
    have hf₁ := follows_of_separator comma
    have h₁ := placed hs hf₁
    have hf₂ := follows_of_listElement ht item_ok
    have h₂ := placed h₁ hf₂
    have hg := gathers_of_listElement ht hd h₁ isBehind_none item_ok
    have hg' := hd _ _ _ _ more hstop h₂ hg.behind
    have hfirst := opens_of_listElement hd ho h₁ item_ok
    have hrest := ho _ _ _ _ more hstop h₂
    refine (hfirst.append hrest hg'.keeps (place_le_of_follows h₁ hf₂)).mono
      (place_le_of_follows hs hf₁) ?_ rfl
    rintro (⟨x, rfl, hx⟩ | ⟨x, hmem, hx⟩)
    · exact ⟨x, List.mem_cons_self, hx⟩
    · exact ⟨x, List.mem_cons_of_mem _ hmem, hx⟩

theorem opens_of_property {pending : Pending} {r : Member × Pending} (hs : s.stream.IsPlaced)
    (h : Property d pending s r u) :
    LeavesPending pending r.2 s.place (r.1.opensDefault = true) := by
  cases h with
  | method => exact LeavesPending.of_same
  | value key_ok colon value_ok =>
    rintro rfl
    have hf := (follows_of_propertyName ht key_ok).trans (follows_of_takes colon (by decide))
    have h₁ := placed hs hf
    obtain ⟨-, hstart⟩ := gathers_of_value hd h₁ isBehind_none value_ok
    have hopens := ho _ _ _ _ value_ok trivial h₁
    have hle := Nat.le_trans (place_le_of_follows hs hf) hstart
    exact hopens.mono hle (fun h => Bool.or_eq_true_iff.mpr (.inr h)) rfl
  | shorthand key_ok more =>
    have hf₁ := follows_of_propertyName ht key_ok
    have h₁ := placed hs hf₁
    cases more with
    | bare => exact LeavesPending.of_same
    | default eq value_ok =>
      rintro rfl place hplace
      have hlt := place_lt_of_takes h₁ eq (by decide) (by decide)
      have h₂ := placed h₁ (follows_of_takes eq (by decide))
      obtain ⟨hg, -⟩ := gathers_of_value hd h₂ (isBehind_record isBehind_none hlt) value_ok
      cases (hg.keeps _ rfl).symm.trans hplace
      exact ⟨place_le_of_follows hs hf₁, rfl⟩

theorem opens_of_objectMember {pending : Pending} {r : Member × Pending} (hs : s.stream.IsPlaced)
    (h : ObjectMember d pending s r u) :
    LeavesPending pending r.2 s.place (r.1.opensDefault = true) := by
  cases h with
  | spread dots argument_ok =>
    rintro rfl
    have hf := follows_of_takes dots (by decide)
    have h₁ := placed hs hf
    obtain ⟨-, hstart⟩ := gathers_of_value hd h₁ isBehind_none argument_ok
    have hopens := ho _ _ _ _ argument_ok trivial h₁
    exact hopens.mono (Nat.le_trans (place_le_of_follows hs hf) hstart) id rfl
  | property property_ok => exact opens_of_property ht hd ho hs property_ok

theorem opens_of_members {isFirst : Bool} {pending : Pending} {r : List Member × Pending}
    (hs : s.stream.IsPlaced) (h : Members d isFirst pending s r u) :
    LeavesPending pending r.2 s.place (∃ x ∈ r.1, x.opensDefault = true) := by
  cases h with
  | closed | trailing => exact LeavesPending.of_same
  | item comma item_ok more =>
    rintro rfl
    have hf₁ := follows_of_separator comma
    have h₁ := placed hs hf₁
    have hf₂ := follows_of_objectMember ht item_ok
    have h₂ := placed h₁ hf₂
    have hg := gathers_of_objectMember ht hd h₁ isBehind_none item_ok
    have hg' := hd _ _ _ _ more trivial h₂ hg.behind
    have hfirst := opens_of_objectMember ht hd ho h₁ item_ok
    have hrest := ho _ _ _ _ more trivial h₂
    refine (hfirst.append hrest hg'.keeps (place_le_of_follows h₁ hf₂)).mono
      (place_le_of_follows hs hf₁) ?_ rfl
    rintro (hx | ⟨x, hmem, hx⟩)
    · exact ⟨_, List.mem_cons_self, hx⟩
    · exact ⟨x, List.mem_cons_of_mem _ hmem, hx⟩

omit ht hd in
theorem opens_of_primary {pending : Pending} {r : Expression × Pending} (hs : s.stream.IsPlaced)
    (h : Primary d pending s r u) : Goal.Opens (.primary pending) s r := by
  cases h with
  | array opening elements_ok =>
    have hf := follows_of_takes opening (by decide)
    have hopens := ho _ _ _ _ elements_ok nofun (placed hs hf)
    refine hopens.mono ?_ opensDefault_ofHoleyList.mpr
    exact Nat.le_trans (Nat.le_of_eq (congrArg Place.offset (start_spanFrom _ _)))
      (place_le_of_follows hs hf)
  | object opening members_ok =>
    have hf := follows_of_takes opening (by decide)
    have hopens := ho _ _ _ _ members_ok trivial (placed hs hf)
    refine hopens.mono ?_ opensDefault_ofList.mpr
    exact Nat.le_trans (Nat.le_of_eq (congrArg Place.offset (start_spanFrom _ _)))
      (place_le_of_follows hs hf)
  | _ => exact opens_of_primary_same

/-- The step of the induction: only the goals that hand a default on have something to show. -/
theorem opens_of_rule {options : ParseOptions} {g : Goal} {r : g.Result} (hg : g.IsBounded)
    (hs : s.stream.IsPlaced) (h : rule options d g s = .ok r u) : g.Opens s r := by
  cases g with
  | assignment => exact opens_of_assignment ho hs (of_assignment h)
  | unary => exact opens_of_unary ho hs (of_unary h)
  | primary => exact opens_of_primary ho hs (of_primary h)
  | elements => exact opens_of_elements ht hd ho hg hs (of_elements h)
  | members => exact opens_of_members ht hd ho hs (of_members h)
  | _ => trivial

end Rules

theorem opens_of_answer {options : ParseOptions} {fuel : Nat} {g : Goal} {r : g.Result}
    (hg : g.IsBounded) (hs : s.stream.IsPlaced) (h : answer options fuel g s = .ok r u) :
    g.Opens s r := by
  induction fuel generalizing g s u with
  | zero => cases h
  | succ fuel ih =>
    refine opens_of_rule (d := answer options fuel) ?_ ?_ ?_ hg hs h
    · exact fun g s r u h hg => traces_of_answer hg h
    · exact fun g s r u h hg hs => holds_of_answer hg hs h
    · exact fun g s r u h hg hs => ih hg hs h

end BareDefault

end EcmaTree
