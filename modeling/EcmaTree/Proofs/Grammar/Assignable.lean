import EcmaTree.Proofs.Grammar.Assignable.Expressed
import EcmaTree.Proofs.Grammar.Liberty

/-!
# Binding patterns as targets of assignments

What the binding grammar reads can be assigned to: read as an expression before an equals sign and
converted, it is the same pattern. The exceptions come from shorthands with a default value. While
their default is pending, operands are cut short, so the default value and the shorthands in it have
to stand alone, and the rest of an object is no target of an assignment at all.
-/

namespace EcmaTree

open EcmaTree.Parser EcmaTree.Grammar EcmaTree.Reading EcmaTree.Trail ParseState Node

/-- The answers for expressions and targets keep the scope. -/
theorem Scope.keeps_descend {options : ParseOptions} {g : Goal} (hg : ¬g.IsStatement) :
    Keeps (descend options g) := by
  intro s
  induction hn : worth g s using Nat.strongRecOn generalizing g s with
  | ind n ih =>
    rw [descend]
    refine keeps_rule (fun h hh t => ?_) hg s
    change (endState (if _ : h.Below t g s then descend options h t else .error .exhausted t)).scope
      = t.scope
    split
    · rename_i below
      exact ih _ (hn ▸ Goal.worth_lt_of_below below) hh t rfl
    · rfl

namespace Grammar

variable {options : ParseOptions} {s t t₁ u : ParseState} {p : Pattern} {value : Expression}

/-- No token stands behind a place and right before it. -/
theorem not_isParenthesized_self {ts : List Token} {opening : Place} (ho : AreOrdered ts) :
    ¬IsParenthesized ts opening opening := by
  rintro ⟨a, b, hab, -, hlt, rfl⟩
  obtain ⟨i, ha, hb⟩ := AreOrdered.exists_index hab
  have hle := ho.stop_le_start ha hb (Nat.lt_succ_self i)
  have hwidth := ho.start_le_stop a (List.mem_of_getElem? ha)
  omega

/-- A pattern that the binding grammar reads before an equals sign is in sloppy code the target of
an assignment, if the shorthands with a default value in it stand alone. -/
theorem assignment_of_bindingAtom {text : List Char} {s₀ : ParseState} {noIn owned : Bool}
    (begins : Begins options text s₀) (hf : s₀.Follows s)
    (hmark : ∀ o, s.arrowStart = some o → o ≤ s.place.offset) (sloppy : s.scope.strict = false)
    (plain : s.scope.inGenerator = false) (h : bindingAtom (descend options) s = .ok p t)
    (alone : p.StandsAlone t.stream.seen s.place) (eq : Takes .eq t t₁)
    (value_ok : Descent.value (descend options) noIn t₁ = .ok value u) :
    ∃ v, descend options (.assignment noIn owned none) s =
        .ok (.assignment (u.spanFrom s.place) .assign p value, none) v ∧
      v.stream = u.stream ∧ v.scope = u.scope := by
  obtain ⟨stream, hread, rfl⟩ := begins
  have hplaced := TokenStream.isPlaced_of_read hread
  have hs : s.stream.IsPlaced := TokenStream.isPlaced_of_follows hplaced hf
  have hd : Answers options (descend options) := answers_descend
  have hc : ∀ g : Goal, ¬g.IsStatement → Keeps (descend options g) :=
    fun g hg => Scope.keeps_descend hg
  have hatom := of_bindingAtom h
  have hordered : AreOrdered t.stream.seen :=
    TokenStream.areOrdered_of_follows hplaced (TokenStream.areOrdered_of_read hread)
      (hf.trans (follows_of_bindingAtom hd.traces hatom))
  have hbeside : s.Beside False s := ⟨rfl, hs, .refl _, hmark, hmark, Iff.rfl⟩
  obtain ⟨left, after, t', hleft, hbecomes, hend⟩ :=
    expresses_bindingAtom hd (expresses hordered hd hc) noIn ⟨hbeside, isBehind_none, sloppy, plain⟩
      (not_isParenthesized_self hordered) (Nat.le_refl _) hatom (by rw [eq.1]; rfl)
      List.prefix_rfl alone
  obtain ⟨t₁', eq', hend₁⟩ := hend.exists_of_takes (by decide) eq
  obtain ⟨v, hvalue, hend₂⟩ := hd.carries_value hend₁ value_ok
  have hyield : ¬(s.scope.inGenerator = true ∧ s.isWord "yield" = true) := by simp [plain]
  have hstrict : t'.scope.strict = false := by
    rw [(Scope.keeps_conditional hc).scope_eq hleft, scope_markArrow, sloppy]
  have hpending : (if owned = true then none else (none : Pending)) = none := by
    cases owned <;> rfl
  have hassign : assignment (descend options) noIn owned none s = .ok (_, _) v :=
    assignment_assign hyield (hpending ▸ hleft) (by rw [eq'.1]; rfl)
      (operatorOf_of_eq hend.right.placed eq'.1) (absurd rfl)
      (toPattern_eq_ok_iff.mpr hbecomes.converts) (hstrict ▸ hbecomes.check) eq'.2 hvalue
  rw [hend₂.spanFrom_eq] at hassign
  have hanswer := (hd.rule_eq (.assignment noIn owned none) s trivial).symm.trans hassign
  have hopens := opens_of_descend (g := .assignment noIn owned none) trivial hs hanswer rfl
  generalize (if owned = true then none else _) = after' at hanswer hopens
  cases after' with
  | none => exact ⟨v, hanswer, hend₂.stream_eq, hend₂.scope.eq_of_not not_false⟩
  | some place => cases (hopens place rfl).2

/-- A parenthesized assignment to an object pattern at the beginning of a text, with the states
before the pattern, behind it and behind the equals sign. -/
def leadingObject (d : Descent) : Parser (ParseState × List PatternMember × ParseState ×
    ParseState × Expression) := do
  scan TokenStream.read
  expect .parenL
  let s ← get
  expect .braceL
  let members ← d (.patternMembers true)
  let t ← get
  expect .eq
  let t₁ ← get
  return (s, members, t, t₁, ← d.value false)

theorem of_leadingObject {text : List Char} {members : List PatternMember}
    (h : Grammar.run options leadingObject (.ofText options text) =
      .ok (s, members, t, t₁, value) u) :
    ∃ s₀, Begins options text s₀ ∧ s₀.Follows s ∧
      bindingAtom (descend options) s =
        .ok (.objectPattern (t.spanFrom s.place) (ofList members)) t ∧
      Takes .eq t t₁ ∧ Descent.value (descend options) false t₁ = .ok value u := by
  simp [Grammar.run, leadingObject] at h
  obtain ⟨s₀, hread, paren, s₁, brace, items, eq, value_ok⟩ := h
  have begins := begins_of_scan hread
  have hf := follows_of_takes paren (by decide)
  have hf₁ := hf.trans (follows_of_takes brace (by decide))
  rw [answer_eq_descend (g := .patternMembers true) begins hf₁ trivial] at items
  have hf₂ := hf₁.trans (follows_of_goal answers_descend.traces items trivial)
  have hf₃ := hf₂.trans (follows_of_takes eq (by decide))
  obtain ⟨after, assignment_ok⟩ := of_value value_ok
  rw [answer_eq_descend (g := .assignment false true none) begins hf₃ trivial] at assignment_ok
  have hvalue : Descent.value (descend options) false t₁ = .ok value u := by
    unfold Descent.value
    rw [bind_of_ok assignment_ok]
    rfl
  exact ⟨s₀, begins, hf, (BindingAtom.object brace items).run, eq, hvalue⟩

/-- A default value in brackets may hold whatever it likes, and so may one behind a colon. -/
theorem assignment_of_bindingAtom_shorthand : ∃ s₀ s t t₁ u p value v,
    Begins {} "({a = [b], c: [d = 1 + 2]} = e)".toList s₀ ∧ s₀.Follows s ∧
    (∀ o, s.arrowStart = some o → o ≤ s.place.offset) ∧ s.scope.strict = false ∧
    s.scope.inGenerator = false ∧ bindingAtom (descend {}) s = .ok p t ∧
    p.StandsAlone t.stream.seen s.place ∧ Takes .eq t t₁ ∧
    Descent.value (descend {}) false t₁ = .ok value u ∧
    descend {} (.assignment false false none) s =
      .ok (.assignment (u.spanFrom s.place) .assign p value, none) v ∧
    v.stream = u.stream ∧ v.scope = u.scope := by
  have hreading : ((Grammar.run {} leadingObject).run'
      (.ofText {} "({a = [b], c: [d = 1 + 2]} = e)".toList)).any
      (fun r => !r.1.scope.strict && !r.1.scope.inGenerator && r.1.arrowStart == none &&
        (ofList r.2.1).isExposable false) = true := by
    decide +kernel
  obtain ⟨⟨s, members, t, t₁, value⟩, u, hrun, htest⟩ := exists_of_run' hreading
  obtain ⟨s₀, begins, hf, hatom, eq, value_ok⟩ := of_leadingObject hrun
  obtain ⟨⟨⟨sloppy, plain⟩, hnone⟩, hexposable⟩ : ((s.scope.strict = false ∧
      s.scope.inGenerator = false) ∧ s.arrowStart = none) ∧
      (ofList members).isExposable false = true := by
    simpa using htest
  have hmark : ∀ o, s.arrowStart = some o → o ≤ s.place.offset := by
    rw [hnone]
    nofun
  have hpattern : (Node.objectPattern (t.spanFrom s.place) (ofList members)).isExposable false =
      true := hexposable
  have alone : (Node.objectPattern (t.spanFrom s.place) (ofList members)).StandsAlone
      t.stream.seen s.place := (standsAlone_of_isExposable hpattern).1
  obtain ⟨v, hanswer, hstream, hscope⟩ :=
    assignment_of_bindingAtom begins hf hmark sloppy plain hatom alone eq value_ok
  exact ⟨s₀, s, t, t₁, u, _, value, v, begins, hf, hmark, sloppy, plain, hatom, alone, eq,
    value_ok, hanswer, hstream, hscope⟩

end Grammar

end EcmaTree
