import EcmaTree.Proofs.Grammar.Reading.Primary

/-!
# Array and object literals in each of these ways

An assignment, an array or an object that has been read in one of the ways that its predicate
names is what the rule answers. A rule looks at more tokens than the predicate of its answer names,
so where the predicate is silent, the token that comes next has to be known.
-/

namespace EcmaTree.Reading

open EcmaTree.Parser EcmaTree.Grammar

variable {d : Descent} {s t u : ParseState} {pending after : Pending}

theorem ListElement.run {holes : Bool} {r : Option Element × Pending}
    (h : ListElement d holes pending s r u) :
    elements.element d holes pending s = .ok r u := by
  simp only [elements.element, ite_bind]
  cases h with
  | hole allowed next => simp [allowed, next]
  | @spread s₁ argument after _ dots argument_ok =>
    have hspread : Grammar.spread d pending s = .ok ((u.spanFrom s.place, argument), after) u := by
      simp [Grammar.spread]
      exact ⟨s₁, dots.2, argument_ok⟩
    cases holes <;> simp [dots.1, hspread]
  | item item_ok plain present =>
    cases holes with
    | true => simp [plain, present rfl, item_ok]
    | false => simp [plain, item_ok]

theorem Elements.run {isFirst : Bool} {r : List (Option Element) × Pending}
    (h : Elements d .bracketR true true isFirst pending s r u) :
    elements d .bracketR true true isFirst pending s = .ok r u := by
  simp only [elements, ite_bind, unless_bind]
  simp [← separator_iff]
  cases h with
  | closed closing => exact .inr ⟨closing, rfl⟩
  | trailing comma closing =>
    cases comma with
    | first => exact .inr ⟨closing, rfl⟩
    | comma comma =>
      exact .inl ⟨by simp [comma.1], _, .comma comma, .inr ⟨⟨rfl, closing⟩, rfl⟩⟩
  | @item s₁ _ _ _ _ _ _ comma item_ok more opens goesOn =>
    have hpasses : isFirst = false ∧ ¬s₁.kind = .bracketR ∧ s₁ = s₁ ∨ isFirst = true ∧ s₁ = s₁ := by
      cases isFirst with
      | true => exact .inr ⟨rfl, rfl⟩
      | false => exact .inl ⟨rfl, goesOn rfl rfl, rfl⟩
    exact .inl ⟨opens, _, comma, .inl ⟨_, hpasses, _, _, _, item_ok.run, _, _, more, rfl⟩⟩

theorem ShorthandProperty.run {start : Place} {id : Identifier} {r : Member × Pending}
    (h : ShorthandProperty d start id pending s r u) (hu : u.kind = .comma ∨ u.kind = .braceR) :
    shorthandProperty d start id pending s = .ok r u := by
  cases h with
  | bare => rcases hu with hk | hk <;> simp [shorthandProperty, hk]
  | @default t value after _ eq value_ok =>
    simp [shorthandProperty, eq.1]
    exact ⟨t, eq.2, value_ok⟩

theorem not_star_of_propertyName {key : Key} (h : PropertyName d s key u) : s.kind ≠ .star :=
  fun hk => absurd (kind_of_propertyName h hk) (by decide)

theorem not_endsKey_of_propertyName {key : Key} (h : PropertyName d s key u) :
    endsKey s.kind = false := by
  cases hk : endsKey s.kind with
  | false => rfl
  | true =>
    unfold endsKey at hk
    split at hk
    all_goals first | exact absurd (kind_of_propertyName h ‹_›) (by decide) | cases hk

/-- A property before a token that ends it. -/
theorem Property.run {r : Member × Pending} (h : Property d pending s r u)
    (hu : u.kind = .comma ∨ u.kind = .braceR) : property d pending s = .ok r u := by
  simp only [property, ite_bind]
  simp
  cases h with
  | @method _ s₁ _ key s₂ f _ star key_ok exclusive method_ok =>
    obtain ⟨_, _, _, _, paren, -⟩ := of_method method_ok
    rcases star with ⟨rfl, star⟩ | ⟨rfl, hstar, rfl⟩
    · obtain rfl := exclusive rfl
      cases key_ok with
      | plain key_ok => exact .inr ⟨s₁, star, key, s₂, key_ok.run, f, method_ok, rfl⟩
    · refine .inl ⟨hstar, ?_⟩
      cases key_ok with
      | plain key_ok =>
        have hends : endsKey s₂.kind = true := by
          rw [paren.1]
          rfl
        refine ⟨key, s₂, key_ok.run, key, s₂, .inr ⟨by simp [hends], rfl, rfl⟩,
          .inl ⟨.inr paren.1, f, method_ok, ?_⟩⟩
        simp [hends]
      | accessor word_ok isAccessor key_ok =>
        have hends := not_endsKey_of_propertyName key_ok
        refine ⟨_, _, word_ok.run, key, s₂, .inl ⟨?_, key_ok.run⟩,
          .inl ⟨.inl ?_, f, method_ok, ?_⟩⟩ <;> simp [hends, isAccessor]
  | @value key s₁ s₂ _ _ _ key_ok colon value_ok =>
    have hends : endsKey s₁.kind = true := by
      rw [colon.1]
      rfl
    refine .inl ⟨not_star_of_propertyName key_ok, key, s₁, key_ok.run, key, s₁,
      .inr ⟨by simp [hends], rfl, rfl⟩, .inr ⟨⟨by simp [hends], by simp [colon.1]⟩, .inr ?_⟩⟩
    exact ⟨s₂, colon, _, _, value_ok, rfl⟩
  | @shorthand id s₁ _ _ key_ok more =>
    have hk : s₁.kind = .comma ∨ s₁.kind = .braceR ∨ s₁.kind = .eq := by
      cases more with
      | bare => exact hu.imp_right .inl
      | default eq => exact .inr (.inr eq.1)
    have hends : endsKey s₁.kind = true := by rcases hk with h | h | h <;> rw [h] <;> rfl
    have hplain : s₁.kind ≠ .parenL ∧ s₁.kind ≠ .colon := by
      rcases hk with h | h | h <;> simp [h]
    refine .inl ⟨not_star_of_propertyName key_ok, _, s₁, key_ok.run, _, s₁,
      .inr ⟨by simp [hends], rfl, rfl⟩, .inr ⟨⟨by simp [hends], hplain.1⟩, .inl ⟨hplain.2, ?_⟩⟩⟩
    exact more.run hu

theorem ObjectMember.run {r : Member × Pending} (h : ObjectMember d pending s r u)
    (hu : u.kind = .comma ∨ u.kind = .braceR) : members.member d pending s = .ok r u := by
  cases h with
  | spread dots argument_ok =>
    simp [members.member, Grammar.spread, dots.1]
    exact ⟨_, dots.2, argument_ok⟩
  | property property_ok plain => simp [members.member, plain, property_ok.run hu]

/-- Members each of which comes before a token that ends it. -/
theorem Members.run {isFirst : Bool} {r : List Member × Pending}
    (h : Members d isFirst pending s r u)
    (hmore : ∀ t between rest, d (.members false between) t = .ok rest u →
      t.kind = .comma ∨ t.kind = .braceR) : members d isFirst pending s = .ok r u := by
  simp only [members, ite_bind, unless_bind]
  simp [← separator_iff]
  cases h with
  | closed closing => exact .inr ⟨closing, rfl⟩
  | trailing comma closing =>
    cases comma with
    | first => exact .inr ⟨closing, rfl⟩
    | comma comma =>
      exact .inl ⟨by simp [comma.1], _, .comma comma, .inr ⟨⟨rfl, closing⟩, rfl⟩⟩
  | @item s₁ _ _ _ _ _ _ comma item_ok more opens goesOn =>
    have hpasses : isFirst = true ∧ s₁ = s₁ ∨ isFirst = false ∧ ¬s₁.kind = .braceR ∧ s₁ = s₁ := by
      cases isFirst with
      | true => exact .inl ⟨rfl, rfl⟩
      | false => exact .inr ⟨rfl, goesOn rfl, rfl⟩
    have hitem := item_ok.run (hmore _ _ _ more)
    exact .inl ⟨opens, _, comma, .inl ⟨_, hpasses, _, _, _, hitem, _, _, more, rfl⟩⟩

/-! ### Assignments -/

theorem assignment_yield {noIn owned owned' : Bool} {pending' : Pending} {e : Expression}
    (scope : s.scope.inGenerator = true) (word : s.isWord "yield" = true)
    (h : assignment d noIn owned pending s = .ok (e, after) u) :
    assignment d noIn owned' pending' s = .ok (e, pending') u := by
  simp only [assignment, ite_bind, when_bind] at h ⊢
  simp [scope, word] at h ⊢
  exact h.1

theorem markArrow_cases (s : ParseState) :
    (s.kind = .parenL ∨ s.kind = .name) ∧
        s.markArrow = { s with arrowStart := some s.place.offset } ∨
      (¬s.kind = .parenL ∧ ¬s.kind = .name) ∧ s.markArrow = s := by
  by_cases hk : s.kind = .parenL ∨ s.kind = .name
  · exact .inl ⟨hk, if_pos hk⟩
  · exact .inr ⟨not_or.mp hk, if_neg hk⟩

theorem simpleTarget_run {e : Expression} {p : Pattern} (simple : IsSimple e)
    (h : e.toPattern false = .ok p) : simpleTarget e s = .ok p s := by
  cases e with
  | identifier | member => simp [simpleTarget, h]
  | _ => exact simple.elim

theorem assignment_plain {noIn : Bool} {e : Expression}
    (hyield : ¬(s.scope.inGenerator = true ∧ s.isWord "yield" = true))
    (left_ok : conditional d noIn pending s.markArrow = .ok (e, after) u)
    (last : u.kind.isAssignment = false) :
    assignment d noIn false pending s = .ok (e, after) u := by
  simp only [assignment, ite_bind, when_bind]
  simp
  have hplain : s.scope.inGenerator = true → s.isWord "yield" = false := by simpa using hyield
  exact .inr ⟨hplain, _, markArrow_cases s, e, after, u, left_ok, .inr ⟨last, ⟨rfl, rfl⟩, rfl⟩⟩

theorem assignment_assign {noIn owned : Bool} {left : Expression} {between : Pending}
    {operator : AssignmentOperator} {target : Pattern} {value : Expression} {s₁ s₂ : ParseState}
    (hyield : ¬(s.scope.inGenerator = true ∧ s.isWord "yield" = true))
    (left_ok : conditional d noIn (if owned then none else pending) s.markArrow =
      .ok (left, between) s₁)
    (kind : s₁.kind.isAssignment = true)
    (spelling : operatorOf AssignmentOperator.ofSpelling? s₁.stream.token = some operator)
    (simple : operator ≠ .assign → IsSimple left)
    (target_ok : left.toPattern false = .ok target)
    (legal : (Pattern.check s₁.scope.strict false none target).1 = .ok ())
    (word : advance s₁ = .ok () s₂) (value_ok : d.value noIn s₂ = .ok value u) :
    assignment d noIn owned pending s =
      .ok (.assignment (u.spanFrom s.place) operator target value,
        if owned then none
        else between.filter fun place => place.offset < left.span.start.offset) u := by
  simp only [assignment, ite_bind, when_bind]
  simp
  have hplain : s.scope.inGenerator = true → s.isWord "yield" = false := by simpa using hyield
  refine .inr ⟨hplain, _, markArrow_cases s, left, between, s₁, left_ok, .inl ⟨kind, ?_⟩⟩
  rw [spelling]
  have htarget : (if operator = .assign then lift (left.toPattern false)
      else simpleTarget left) s₁ = .ok target s₁ := by
    split
    · rw [target_ok]
      rfl
    · exact simpleTarget_run (simple ‹_›) target_ok
  simp
  exact ⟨s₁, by simpa using htarget, legal, s₂, word, value_ok⟩

end EcmaTree.Reading
