import EcmaTree.Proofs.Grammar.Outcome

/-!
# What the rules for names, literals and targets have read

For each rule a predicate lists the ways in which the rule can succeed: the steps it took
from the state before to the state after, and what it answered. A proof about a rule
goes through these ways and does not open the rule.
-/

namespace EcmaTree.Reading

open EcmaTree.Parser EcmaTree.Grammar

variable {d : Descent} {s u : ParseState}

/-- The comma before an item of a list, which the first item does not have. -/
inductive Separator : Bool → ParseState → ParseState → Prop
  | first (s : ParseState) : Separator true s s
  | comma {s t : ParseState} (comma : Takes .comma s t) : Separator false s t

theorem separator_iff {isFirst : Bool} :
    Separator isFirst s u ↔ (isFirst = true ∧ u = s) ∨ (isFirst = false ∧ Takes .comma s u) := by
  constructor
  · rintro (_ | h)
    · exact .inl ⟨rfl, rfl⟩
    · exact .inr ⟨rfl, h⟩
  · rintro (⟨rfl, rfl⟩ | ⟨rfl, h⟩)
    · exact .first _
    · exact .comma h

/-- If no token of kind `k` stands behind a separator, then none stands before it. -/
theorem Separator.kind_ne {isFirst : Bool} {k : TokenKind} (h : Separator isFirst s u)
    (hk : k ≠ .comma) (hu : u.kind ≠ k) : s.kind ≠ k := by
  cases h with
  | first => exact hu
  | comma comma => exact comma.1 ▸ hk.symm

theorem of_identifier {liberal : Bool} {id : Identifier} (h : identifier liberal s = .ok id u) :
    ∃ name, s.stream.token.value = .name name ∧
      (s.kind = .name ∨ (liberal = true ∧ s.kind.isKeyword = true)) ∧
      advance s = .ok () u ∧ id = ⟨u.spanFrom s.place, name⟩ := by
  simp [identifier] at h
  rw [run_eq_ok] at h
  obtain ⟨m, hm, h⟩ := h
  split at hm <;> subst hm <;> simp at h
  rename_i name hv
  obtain ⟨hk, ha, rfl⟩ := h
  exact ⟨name, hv, hk, ha, rfl⟩

theorem of_literal {lit : Literal} (h : literal s = .ok lit u) :
    ∃ value, literalValue? s.stream.token = some value ∧ advance s = .ok () u ∧
      lit = ⟨u.spanFrom s.place, value, String.ofList s.stream.token.text⟩ := by
  simp [literal] at h
  rw [run_eq_ok] at h
  obtain ⟨m, hm, h⟩ := h
  split at hm <;> subst hm <;> simp at h
  rename_i value hv
  obtain ⟨ha, rfl⟩ := h
  exact ⟨value, hv, ha, rfl⟩

/-- How the key of a property is read. -/
inductive PropertyName (d : Descent) (s : ParseState) : Key → ParseState → Prop
  | computed {s₁ s₂ u key} (opening : Takes .bracketL s s₁) (key_ok : d.value false s₁ = .ok key s₂)
      (closing : Takes .bracketR s₂ u) : PropertyName d s (.computedKey key) u
  | literal {lit u} (key_ok : literal s = .ok lit u) (kind : s.kind = .num ∨ s.kind = .string) :
      PropertyName d s (.literalKey lit) u
  | name {id u} (key_ok : identifier true s = .ok id u) : PropertyName d s (.nameKey id) u

theorem of_propertyName {key : Key} (h : propertyName d s = .ok key u) :
    PropertyName d s key u := by
  simp [propertyName] at h
  rcases h with ⟨hk, h⟩ | ⟨t, ht, key, t', h, h', rfl⟩
  · rw [run_eq_ok] at h
    obtain ⟨m, hm, h⟩ := h
    split at hm <;> subst hm <;> simp at h
    · rename_i hk
      obtain ⟨lit, h, rfl⟩ := h
      exact .literal h (.inl hk)
    · rename_i hk
      obtain ⟨lit, h, rfl⟩ := h
      exact .literal h (.inr hk)
    · obtain ⟨id, h, rfl⟩ := h
      exact .name h
  · exact .computed ht h h'

theorem of_restOfBinding {r : Span × Pattern} (h : restOfBinding s = .ok r u) :
    ∃ s₁ id, advance s = .ok () s₁ ∧ identifier false s₁ = .ok id u ∧
      r = (u.spanFrom s.place, .namePattern id) := by
  simp [restOfBinding] at h
  obtain ⟨s₁, ha, id, h, rfl⟩ := h
  exact ⟨s₁, id, ha, h, rfl⟩

theorem of_objectPattern {p : Pattern} (h : objectPattern d s = .ok p u) :
    ∃ s₁ members, Takes .braceL s s₁ ∧ d (.patternMembers true) s₁ = .ok members u ∧
      p = .objectPattern (u.spanFrom s.place) (.ofList members) := by
  simp [objectPattern] at h
  obtain ⟨s₁, ht, members, h, rfl⟩ := h
  exact ⟨s₁, members, ht, h, rfl⟩

/-- How a target without a default value is read. -/
inductive BindingAtom (d : Descent) (s : ParseState) : Pattern → ParseState → Prop
  | name {id u} (name_ok : identifier false s = .ok id u) : BindingAtom d s (.namePattern id) u
  | array {s₁ elements u} (opening : Takes .bracketL s s₁)
      (items : d (.targets .bracketR true true true) s₁ = .ok elements u) :
      BindingAtom d s (.arrayPattern (u.spanFrom s.place) (.ofHoleyList elements)) u
  | object {s₁ members u} (opening : Takes .braceL s s₁)
      (items : d (.patternMembers true) s₁ = .ok members u) :
      BindingAtom d s (.objectPattern (u.spanFrom s.place) (.ofList members)) u

theorem of_bindingAtom {p : Pattern} (h : bindingAtom d s = .ok p u) : BindingAtom d s p u := by
  simp [bindingAtom] at h
  rw [run_eq_ok] at h
  obtain ⟨m, hm, h⟩ := h
  split at hm <;> subst hm
  · simp at h
    obtain ⟨id, h, rfl⟩ := h
    exact .name h
  · rename_i hk
    simp at h
    obtain ⟨s₁, ha, elements, h, rfl⟩ := h
    exact .array ⟨hk, ha⟩ h
  · obtain ⟨s₁, members, ht, hm, rfl⟩ := of_objectPattern h
    exact .object ht hm
  · simp at h

/-- How a default value after a target is read. -/
inductive WithDefault (d : Descent) (start : Place) (target : Pattern) (s : ParseState) :
    Pattern → ParseState → Prop
  | given {s₁ value u} (eq : Takes .eq s s₁) (value_ok : d.value false s₁ = .ok value u) :
      WithDefault d start target s (.defaultPattern (u.spanFrom start) target value) u
  | bare (bare : s.kind ≠ .eq) : WithDefault d start target s target s

theorem of_withDefault {start : Place} {target p : Pattern}
    (h : withDefault d start target s = .ok p u) : WithDefault d start target s p u := by
  simp [withDefault] at h
  rcases h with ⟨⟨hk, rfl⟩, rfl⟩ | ⟨t, ht, value, h, rfl⟩
  · exact .bare hk
  · exact .given ht h

theorem of_bindingElement {p : Pattern} (h : bindingElement d s = .ok p u) :
    ∃ target s₁, BindingAtom d s target s₁ ∧ WithDefault d s.place target s₁ p u := by
  simp [bindingElement] at h
  obtain ⟨target, s₁, h, h'⟩ := h
  exact ⟨target, s₁, of_bindingAtom h, of_withDefault h'⟩

/-- How the rest of a list of targets is read. -/
inductive Targets (d : Descent) (stop : TokenKind) (holes trailingComma isFirst : Bool)
    (s : ParseState) : List (Option Pattern) → ParseState → Prop
  | closed {u : ParseState} (closing : Takes stop s u) :
      Targets d stop holes trailingComma isFirst s [] u
  | trailing {s₁ u} (comma : Separator isFirst s s₁) (closing : Takes stop s₁ u)
      (allowed : trailingComma = true) : Targets d stop holes trailingComma isFirst s [] u
  | hole {s₁ rest u} (comma : Separator isFirst s s₁) (next : s₁.kind = .comma)
      (more : d (.targets stop holes trailingComma false) s₁ = .ok rest u)
      (allowed : holes = true) :
      Targets d stop holes trailingComma isFirst s (none :: rest) u
  | rest {s₁ span argument s₂ u} (comma : Separator isFirst s s₁) (dots : s₁.kind = .ellipsis)
      (rest_ok : restOfBinding s₁ = .ok (span, argument) s₂) (closing : Takes stop s₂ u) :
      Targets d stop holes trailingComma isFirst s [some (.restPattern span argument)] u
  | item {s₁ target s₂ rest u} (comma : Separator isFirst s s₁)
      (item_ok : bindingElement d s₁ = .ok target s₂)
      (more : d (.targets stop holes trailingComma false) s₂ = .ok rest u) :
      Targets d stop holes trailingComma isFirst s (some target :: rest) u

theorem of_targets {stop : TokenKind} {holes trailingComma isFirst : Bool}
    {r : List (Option Pattern)} (h : targets d stop holes trailingComma isFirst s = .ok r u) :
    Targets d stop holes trailingComma isFirst s r u := by
  simp only [targets, ite_bind, unless_bind] at h
  simp [← separator_iff] at h
  rcases h with ⟨-, s₁, hc, ⟨s₂, hh, ⟨s₃, ht, h⟩ | ⟨⟨htrailing, ht⟩, rfl⟩⟩ |
    ⟨⟨hholes, hk⟩, rest, h, rfl⟩⟩ | ⟨ht, rfl⟩
  · obtain rfl : s₂ = s₁ := by grind
    obtain rfl : s₃ = s₂ := by grind
    rcases h with ⟨hk, span, argument, s₄, h, ht, rfl⟩ | ⟨-, target, s₄, h, rest, h', rfl⟩
    · exact .rest hc hk h ht
    · exact .item hc h h'
  · obtain rfl : s₂ = s₁ := by grind
    exact .trailing hc ht htrailing
  · exact .hole hc hk h hholes
  · exact .closed ht

/-- How a property of an object pattern is read. -/
inductive PatternProperty (d : Descent) (s : ParseState) : PatternMember → ParseState → Prop
  | named {key s₁ s₂ value u} (key_ok : PropertyName d s key s₁) (colon : Takes .colon s₁ s₂)
      (value_ok : bindingElement d s₂ = .ok value u) :
      PatternProperty d s (.propertyPattern (u.spanFrom s.place) key value false) u
  | shorthand {id s₁ value u} (key_ok : PropertyName d s (.nameKey id) s₁)
      (value_ok : WithDefault d s.place (.namePattern id) s₁ value u) (plain : s₁.kind ≠ .colon) :
      PatternProperty d s (.propertyPattern (u.spanFrom s.place) (.nameKey id) value true) u

theorem of_patternProperty {m : PatternMember} (h : patternProperty d s = .ok m u) :
    PatternProperty d s m u := by
  simp [patternProperty] at h
  obtain ⟨key, s₁, hkey, ⟨hplain, h⟩ | ⟨s₂, ht, value, h, rfl⟩⟩ := h
  · rw [run_eq_ok] at h
    obtain ⟨m, hm, h⟩ := h
    split at hm <;> subst hm <;> simp at h
    obtain ⟨value, h, rfl⟩ := h
    exact .shorthand (of_propertyName hkey) (of_withDefault h) hplain
  · exact .named (of_propertyName hkey) ht h

/-- How the rest of the members of an object pattern is read. -/
inductive PatternMembers (d : Descent) (isFirst : Bool) (s : ParseState) :
    List PatternMember → ParseState → Prop
  | closed {u : ParseState} (closing : Takes .braceR s u) : PatternMembers d isFirst s [] u
  | trailing {s₁ u} (comma : Separator isFirst s s₁) (closing : Takes .braceR s₁ u) :
      PatternMembers d isFirst s [] u
  | rest {s₁ span argument s₂ u} (comma : Separator isFirst s s₁) (dots : s₁.kind = .ellipsis)
      (rest_ok : restOfBinding s₁ = .ok (span, argument) s₂) (closing : Takes .braceR s₂ u) :
      PatternMembers d isFirst s [.restMember span argument] u
  | item {s₁ member s₂ rest u} (comma : Separator isFirst s s₁)
      (item_ok : PatternProperty d s₁ member s₂)
      (more : d (.patternMembers false) s₂ = .ok rest u) :
      PatternMembers d isFirst s (member :: rest) u

theorem of_patternMembers {isFirst : Bool} {r : List PatternMember}
    (h : patternMembers d isFirst s = .ok r u) : PatternMembers d isFirst s r u := by
  simp only [patternMembers, ite_bind, unless_bind] at h
  simp [← separator_iff] at h
  rcases h with ⟨-, s₁, hc, ⟨s₂, hh, h⟩ | ⟨⟨-, ht⟩, rfl⟩⟩ | ⟨ht, rfl⟩
  · obtain rfl : s₂ = s₁ := by grind
    rcases h with ⟨hk, span, argument, s₃, h, ht, rfl⟩ | ⟨-, member, s₃, h, rest, h', rfl⟩
    · exact .rest hc hk h ht
    · exact .item hc (of_patternProperty h) h'
  · exact .trailing hc ht
  · exact .closed ht

/-! ### Targets in each of these ways

A target that has been read in one of the ways above is what the rule answers.
-/

theorem identifier_run {name : String} (hv : s.stream.token.value = .name name)
    (hk : s.kind = .name) (ha : advance s = .ok () u) :
    identifier false s = .ok ⟨u.spanFrom s.place, name⟩ u := by
  simp [identifier, hv, hk, ha]

theorem restOfBinding_run {t : ParseState} {id : Identifier} (ha : advance s = .ok () t)
    (hid : identifier false t = .ok id u) :
    restOfBinding s = .ok (u.spanFrom s.place, .namePattern id) u := by
  simp [restOfBinding]
  exact ⟨t, ha, hid⟩

theorem PropertyName.run {key : Key} (h : PropertyName d s key u) :
    propertyName d s = .ok key u := by
  cases h with
  | @computed s₁ s₂ _ key opening key_ok closing =>
    simp [propertyName]
    exact .inr ⟨s₁, opening, s₂, key_ok, closing⟩
  | literal key_ok kind => rcases kind with hk | hk <;> simp [propertyName, hk, key_ok]
  | name key_ok =>
    obtain ⟨name, -, hk, -⟩ := of_identifier key_ok
    have hk : s.kind ≠ .bracketL ∧ s.kind ≠ .num ∧ s.kind ≠ .string := by
      rcases hk with hk | ⟨-, hk⟩
      · simp [hk]
      · refine ⟨?_, ?_, ?_⟩ <;> intro h <;> simp [h, TokenKind.isKeyword, TokenKind.keyword?] at hk
    simp [propertyName, hk, key_ok]

theorem BindingAtom.run {p : Pattern} (h : BindingAtom d s p u) : bindingAtom d s = .ok p u := by
  cases h with
  | name name_ok =>
    obtain ⟨name, -, hk, -⟩ := of_identifier name_ok
    have hk : s.kind = .name := by simpa using hk
    simp [bindingAtom, hk, name_ok]
  | array opening items => simp [bindingAtom, opening.1, opening.2, items]
  | object opening items =>
    simp [bindingAtom, objectPattern, opening.1]
    exact ⟨_, opening, _, items, rfl⟩

theorem WithDefault.run {start : Place} {target p : Pattern}
    (h : WithDefault d start target s p u) : withDefault d start target s = .ok p u := by
  cases h with
  | given eq value_ok =>
    simp [withDefault]
    exact .inr ⟨_, eq, value_ok⟩
  | bare bare => simp [withDefault, bare]

theorem bindingElement_run {target p : Pattern} {t : ParseState} (h : BindingAtom d s target t)
    (h' : WithDefault d s.place target t p u) : bindingElement d s = .ok p u := by
  simp [bindingElement, h.run, h'.run]

theorem kind_of_bindingElement {p : Pattern} (h : bindingElement d s = .ok p u) :
    s.kind = .name ∨ s.kind = .bracketL ∨ s.kind = .braceL := by
  obtain ⟨target, t, hatom, -⟩ := of_bindingElement h
  cases hatom with
  | name name_ok =>
    obtain ⟨name, -, hk, -⟩ := of_identifier name_ok
    exact .inl (by simpa using hk)
  | array opening => exact .inr (.inl opening.1)
  | object opening => exact .inr (.inr opening.1)

/-- Lists of targets end with a parenthesis or a bracket. -/
theorem Targets.run {stop : TokenKind} {holes trailingComma isFirst : Bool}
    {r : List (Option Pattern)} (hstop : stop = .parenR ∨ stop = .bracketR)
    (h : Targets d stop holes trailingComma isFirst s r u) :
    targets d stop holes trailingComma isFirst s = .ok r u := by
  have hcomma : stop ≠ .comma := by rcases hstop with rfl | rfl <;> decide
  have hdots : stop ≠ .ellipsis := by rcases hstop with rfl | rfl <;> decide
  have hpasses : ∀ {b : Bool} {k : TokenKind} {t : ParseState}, t.kind ≠ k →
      (b = true ∧ t.kind ≠ k ∧ t = t ∨ b = false ∧ t = t) := by
    intro b k t hk
    cases b <;> simp [hk]
  simp only [targets, ite_bind, unless_bind]
  cases h with
  | closed closing =>
    simp [← separator_iff]
    exact .inr closing
  | trailing comma closing allowed =>
    simp [← separator_iff]
    cases comma with
    | first => exact .inr closing
    | comma comma =>
      have hk := closing.1 ▸ hcomma
      exact .inl ⟨comma.1 ▸ hcomma.symm, _, .comma comma, _, hpasses hk, allowed, closing⟩
  | hole comma next more allowed =>
    simp [← separator_iff]
    exact ⟨comma.kind_ne hcomma (next ▸ hcomma.symm), _, comma, ⟨allowed, next⟩, more⟩
  | rest comma dots rest_ok closing =>
    simp [← separator_iff]
    refine ⟨comma.kind_ne hcomma (dots ▸ hdots.symm), _, comma, _, hpasses (dots ▸ nofun), _,
      hpasses (dots ▸ hdots.symm), .inl ⟨dots, _, rest_ok, closing⟩⟩
  | @item s₁ _ _ _ _ comma item_ok more =>
    have hk := kind_of_bindingElement item_ok
    have hclosed : s₁.kind ≠ stop := by
      rcases hstop with rfl | rfl <;> rcases hk with hk | hk | hk <;> simp [hk]
    have hplain : s₁.kind ≠ .comma ∧ s₁.kind ≠ .ellipsis := by
      rcases hk with hk | hk | hk <;> simp [hk]
    simp [← separator_iff]
    exact ⟨comma.kind_ne hcomma hclosed, _, comma, _, hpasses hplain.1, _, hpasses hclosed,
      .inr ⟨hplain.2, _, item_ok, more⟩⟩

theorem PatternProperty.run {m : PatternMember} (h : PatternProperty d s m u) :
    patternProperty d s = .ok m u := by
  simp [patternProperty]
  cases h with
  | named key_ok colon value_ok => exact ⟨_, _, key_ok.run, .inr ⟨_, colon, _, value_ok, rfl⟩⟩
  | shorthand key_ok value_ok plain =>
    refine ⟨_, _, key_ok.run, .inl ⟨plain, ?_⟩⟩
    simp
    exact value_ok.run

/-- No key begins with a sign other than an opening bracket. -/
theorem kind_of_propertyName {key : Key} (h : PropertyName d s key u) {k : TokenKind}
    (hk : s.kind = k) :
    k = .bracketL ∨ k = .num ∨ k = .string ∨ k = .name ∨ k.isKeyword = true := by
  cases h with
  | computed opening => exact .inl (hk.symm.trans opening.1)
  | literal key_ok kind =>
    rcases kind with h | h
    · exact .inr (.inl (hk.symm.trans h))
    · exact .inr (.inr (.inl (hk.symm.trans h)))
  | name key_ok =>
    obtain ⟨name, -, h | ⟨-, h⟩, -⟩ := of_identifier key_ok
    · exact .inr (.inr (.inr (.inl (hk.symm.trans h))))
    · exact .inr (.inr (.inr (.inr (hk ▸ h))))

theorem kind_of_patternProperty {m : PatternMember} (h : PatternProperty d s m u) {k : TokenKind}
    (hk : s.kind = k) :
    k = .bracketL ∨ k = .num ∨ k = .string ∨ k = .name ∨ k.isKeyword = true := by
  cases h with
  | named key_ok => exact kind_of_propertyName key_ok hk
  | shorthand key_ok => exact kind_of_propertyName key_ok hk

theorem PatternMembers.run {isFirst : Bool} {r : List PatternMember}
    (h : PatternMembers d isFirst s r u) : patternMembers d isFirst s = .ok r u := by
  have hpasses : ∀ {t : ParseState}, t.kind ≠ .braceR →
      (isFirst = true ∧ t = t ∨ isFirst = false ∧ t.kind ≠ .braceR ∧ t = t) := by
    intro t hk
    cases isFirst <;> simp [hk]
  simp only [patternMembers, ite_bind, unless_bind]
  simp [← separator_iff]
  cases h with
  | closed closing => exact .inr ⟨closing, rfl⟩
  | trailing comma closing =>
    cases comma with
    | first => exact .inr ⟨closing, rfl⟩
    | comma comma =>
      exact .inl ⟨by simp [comma.1], _, .comma comma, .inr ⟨⟨rfl, closing⟩, rfl⟩⟩
  | @rest s₁ _ _ _ _ comma dots rest_ok closing =>
    have hk : s₁.kind ≠ .braceR := by simp [dots]
    exact .inl ⟨comma.kind_ne (by decide) hk, _, comma, .inl ⟨_, hpasses hk, .inl ⟨dots, _, _, _,
      rest_ok, closing, rfl⟩⟩⟩
  | item comma item_ok more =>
    have hk : ∀ {k : TokenKind}, ¬(k = .bracketL ∨ k = .num ∨ k = .string ∨ k = .name ∨
        k.isKeyword = true) → _ ≠ k := fun hno hk => hno (kind_of_patternProperty item_ok hk)
    have hclosed := @hk .braceR (by decide)
    exact .inl ⟨comma.kind_ne (by decide) hclosed, _, comma, .inl ⟨_, hpasses hclosed,
      .inr ⟨hk (by decide), _, _, item_ok.run, _, more, rfl⟩⟩⟩

end EcmaTree.Reading
