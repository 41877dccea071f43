import EcmaTree.Proofs.Grammar.Trail
import EcmaTree.Proofs.Target.BareDefault

/-!
# Where shorthand defaults stay expressions

While an expression is read its first shorthand default is pending. As long as one is
pending the expression may hold bare defaults on its spine, and when none is pending it
holds none there: either the literal has become a pattern, or the rule has refused it.
What slips through is a default value on the spine of the default value of a shorthand:
there the pending place is that of the outer default, and it is settled with the outer one.
-/

namespace EcmaTree

open EcmaTree.Parser EcmaTree.Grammar EcmaTree.Reading

/-- All bare defaults below a node are held by shorthands of patterns below it. -/
abbrev Node.IsHeld {c : Category} (n : Node c) : Prop :=
  n.defaultsHeld false false = true

namespace ParseState

variable {s u : ParseState} {k : TokenKind}

theorem place_le_of_follows (hs : s.stream.IsPlaced) (h : s.Follows u) :
    s.place.offset ≤ u.place.offset :=
  TokenStream.start_le_start_of_follows hs h

theorem place_lt_of_takes (hs : s.stream.IsPlaced) (h : Takes k s u) (he : k ≠ .eof)
    (ht : k ≠ .template) : s.place.offset < u.place.offset := by
  obtain ⟨hk, ha⟩ := h
  obtain ⟨stream, hstream, rfl⟩ := advance_eq_ok.mp ha
  have hwide := hs.wide (fun h => he (hk.symm.trans h)) (fun h => ht (hk.symm.trans h))
  have hnext := TokenStream.stop_le_start_of_advance hs hstream
  exact Nat.lt_of_lt_of_le hwide hnext

theorem le_start_spanFrom (start : Place) (s : ParseState) :
    start.offset ≤ (s.spanFrom start).start.offset :=
  Nat.le_of_eq (congrArg Place.offset (start_spanFrom s start)).symm

/-- A pending default lies before the current token. -/
def IsBehind (pending : Pending) (s : ParseState) : Prop :=
  ∀ place, pending = some place → place.offset < s.place.offset

theorem isBehind_none : IsBehind none s :=
  nofun

theorem isBehind_markArrow {pending : Pending} :
    IsBehind pending s.markArrow ↔ IsBehind pending s := by
  unfold IsBehind
  rw [place_markArrow]

theorem IsBehind.mono {pending : Pending} (h : IsBehind pending s) (hs : s.stream.IsPlaced)
    (hf : s.Follows u) : IsBehind pending u :=
  fun place hp => Nat.lt_of_lt_of_le (h place hp) (place_le_of_follows hs hf)

end ParseState

open ParseState

/-- What is read between two pending defaults: `held` says of it with which spine its bare
defaults are held. While none is pending the spine holds none. -/
structure Gathers (pending after : Pending) (u : ParseState) (held : Bool → Prop) : Prop where
  isOpen : held true
  settled : after = none → held false
  keeps : ∀ place, pending = some place → after = some place
  behind : IsBehind after u

namespace Gathers

variable {pending between after : Pending} {s t u : ParseState} {held held' : Bool → Prop}

/-- What holds no bare default leaves the pending one as it was. -/
theorem of_held (hp : IsBehind pending s) (hs : s.stream.IsPlaced) (hf : s.Follows u)
    (h : ∀ isOpen, held isOpen) : Gathers pending pending u held :=
  ⟨h true, fun _ => h false, fun _ hp => hp, hp.mono hs hf⟩

/-- Two pieces read one after the other; the second one ends later. -/
theorem append (h : Gathers pending between s held) (h' : Gathers between after u held') :
    Gathers pending after u fun isOpen => held isOpen ∧ held' isOpen where
  isOpen := ⟨h.isOpen, h'.isOpen⟩
  settled := by
    rintro rfl
    have hb : between = none := by
      cases between with
      | none => rfl
      | some place => cases h'.keeps place rfl
    exact ⟨h.settled hb, h'.settled rfl⟩
  keeps place hp := h'.keeps place (h.keeps place hp)
  behind := h'.behind

theorem mono (h : Gathers pending after s held) (hs : s.stream.IsPlaced) (hf : s.Follows u)
    (himp : ∀ isOpen, held isOpen → held' isOpen) : Gathers pending after u held' :=
  ⟨himp true h.isOpen, fun ha => himp false (h.settled ha), h.keeps, h.behind.mono hs hf⟩

end Gathers

/-- An expression read from `s` on between two pending defaults. -/
def GathersExpression (pending : Pending) (s : ParseState) (r : Expression × Pending)
    (u : ParseState) : Prop :=
  Gathers pending r.2 u (fun isOpen => r.1.defaultsHeld isOpen false = true) ∧
    s.place.offset ≤ r.1.span.start.offset

/-- What the answer to a goal holds. -/
def Goal.Holds (g : Goal) (s : ParseState) (r : g.Result) (u : ParseState) : Prop :=
  match g, r with
  | .statement, r => r.IsHeld
  | .statements _ _, r => ∀ x ∈ r, x.IsHeld
  | .declarators _ _, r => ∀ x ∈ r, x.IsHeld
  | .assignment _ owned pending, r =>
    (owned = true → pending = none) → IsBehind pending s →
      GathersExpression pending s r u ∧ (owned = true → r.2 = none)
  | .commaOperands _ owned pending, r =>
    (owned = true → pending = none) → IsBehind pending s →
      Gathers pending r.2 u (fun isOpen => ∀ x ∈ r.1, x.defaultsHeld isOpen false = true) ∧
        (owned = true → r.2 = none)
  | .unary pending, r => IsBehind pending s → GathersExpression pending s r u
  | .operators left start _ _, r =>
    left.IsHeld → r.IsHeld ∧
      (start.offset ≤ left.span.start.offset → start.offset ≤ r.span.start.offset)
  | .primary pending, r => IsBehind pending s → GathersExpression pending s r u
  | .suffixes base start _, r =>
    base.IsHeld → r.IsHeld ∧
      (start.offset ≤ base.span.start.offset → start.offset ≤ r.span.start.offset)
  | .elements _ _ _ _ pending, r =>
    IsBehind pending s →
      Gathers pending r.2 u fun isOpen => ∀ x, some x ∈ r.1 → x.defaultsHeld isOpen false = true
  | .parenthesized _ pending, r =>
    IsBehind pending s →
      Gathers pending r.2 u (fun isOpen => ∀ x ∈ r.1, x.defaultsHeld isOpen false = true) ∧
        ∀ x ∈ r.1, s.place.offset ≤ x.span.start.offset
  | .members _ pending, r =>
    IsBehind pending s →
      Gathers pending r.2 u fun isOpen => ∀ x ∈ r.1, x.defaultsHeld isOpen false = true
  | .chunks, r => ∀ x ∈ r.2, x.IsHeld
  | .targets _ _ _ _, r => ∀ x, some x ∈ r → x.IsHeld
  | .patternMembers _, r => ∀ x ∈ r, x.IsHeld

namespace BareDefault

open EcmaTree.Trail Node

variable {d : Descent} {s u : ParseState}

theorem held_of_isHeld {c : Category} {n : Node c} (h : n.IsHeld) (isOpen : Bool) :
    n.defaultsHeld isOpen false = true := by
  cases isOpen with
  | false => exact h
  | true => exact defaultsHeld_mono n h

/-- An expression that holds nothing open hands the pending default on. -/
theorem gathersExpression_of_isHeld {pending : Pending} {e : Expression}
    (hp : IsBehind pending s) (hs : s.stream.IsPlaced) (hf : s.Follows u) (he : e.IsHeld)
    (hstart : s.place.offset ≤ e.span.start.offset) :
    GathersExpression pending s (e, pending) u :=
  ⟨.of_held hp hs hf (held_of_isHeld he), hstart⟩

theorem gathersExpression_none {e : Expression} (he : e.IsHeld)
    (hstart : s.place.offset ≤ e.span.start.offset) : GathersExpression none s (e, none) u :=
  ⟨⟨held_of_isHeld he true, fun _ => he, nofun, isBehind_none⟩, hstart⟩

theorem eq_none_of_gathers {pending : Pending} {held : Bool → Prop}
    (h : Gathers pending none u held) : pending = none := by
  cases pending with
  | none => rfl
  | some place => cases h.keeps place rfl

/-- The state after a step of a rule is placed as well. -/
theorem placed (hs : s.stream.IsPlaced) (h : s.Follows u) : u.stream.IsPlaced :=
  TokenStream.isPlaced_of_follows hs h

section Rules

/- The answers that a rule depends on follow their token streams and hold what they should. -/
variable (ht : ∀ g s r u, d g s = .ok r u → g.IsBounded → g.Traces s u)
  (hd : ∀ g s r u, d g s = .ok r u → g.IsBounded → s.stream.IsPlaced → g.Holds s r u)

include hd

theorem isHeld_of_value {noIn : Bool} {e : Expression} (hs : s.stream.IsPlaced)
    (h : d.value noIn s = .ok e u) : e.IsHeld := by
  obtain ⟨after, h⟩ := of_value h
  obtain ⟨⟨hg, -⟩, ho⟩ := hd _ _ _ _ h trivial hs (fun _ => rfl) isBehind_none
  exact hg.settled (ho rfl)

theorem isHeld_of_operand {e : Expression} (hs : s.stream.IsPlaced)
    (h : d.operand s = .ok e u) : e.IsHeld := by
  obtain ⟨hg, -⟩ := hd _ _ _ _ (of_operand h) trivial hs isBehind_none
  exact hg.settled rfl

include ht

omit ht in
theorem isHeld_of_propertyName {key : Key} (hs : s.stream.IsPlaced)
    (h : PropertyName d s key u) : key.IsHeld := by
  cases h with
  | computed opening key_ok closing =>
    have h₁ := follows_of_takes opening (by decide)
    exact isHeld_of_value hd (placed hs h₁) key_ok
  | literal key_ok => rfl
  | name key_ok => rfl

omit ht in
theorem isHeld_of_bindingAtom {p : Pattern} (hs : s.stream.IsPlaced)
    (h : BindingAtom d s p u) : p.IsHeld := by
  cases h with
  | name name_ok => rfl
  | array opening items =>
    have h₁ := placed hs (follows_of_takes opening (by decide))
    exact defaultsHeld_ofHoleyList.mpr (hd _ _ _ _ items nofun h₁)
  | object opening items =>
    have h₁ := placed hs (follows_of_takes opening (by decide))
    exact defaultsHeld_ofList.mpr (hd _ _ _ _ items trivial h₁)

omit ht in
theorem isHeld_of_withDefault {start : Place} {target p : Pattern} (hs : s.stream.IsPlaced)
    (htarget : target.IsHeld) (h : WithDefault d start target s p u) : p.IsHeld := by
  cases h with
  | given eq value_ok =>
    have h₁ := placed hs (follows_of_takes eq (by decide))
    exact defaultsHeld_defaultPattern.mpr ⟨htarget, isHeld_of_value hd h₁ value_ok⟩
  | bare => exact htarget

theorem isHeld_of_bindingElement {p : Pattern} (hs : s.stream.IsPlaced)
    (h : bindingElement d s = .ok p u) : p.IsHeld := by
  obtain ⟨target, s₁, ha, hw⟩ := of_bindingElement h
  have h₁ := placed hs (follows_of_bindingAtom ht ha)
  exact isHeld_of_withDefault hd h₁ (isHeld_of_bindingAtom hd hs ha) hw

theorem isHeld_of_targets {stop : TokenKind} {holes trailingComma isFirst : Bool}
    {r : List (Option Pattern)} (hstop : stop ≠ .eof) (hs : s.stream.IsPlaced)
    (h : Targets d stop holes trailingComma isFirst s r u) : ∀ x, some x ∈ r → x.IsHeld := by
  cases h with
  | closed closing => nofun
  | trailing comma closing => nofun
  | hole comma next more =>
    have h₁ := placed hs (follows_of_separator comma)
    intro x hx
    rcases List.mem_cons.mp hx with hx | hx
    · cases hx
    · exact hd _ _ _ _ more hstop h₁ x hx
  | rest comma dots rest_ok closing =>
    obtain ⟨s₂, id, -, -, ⟨⟩⟩ := of_restOfBinding rest_ok
    intro x hx
    cases List.mem_singleton.mp hx
    rfl
  | item comma item_ok more =>
    have h₁ := placed hs (follows_of_separator comma)
    have h₂ := placed h₁ (follows_of_bindingElement ht item_ok)
    intro x hx
    rcases List.mem_cons.mp hx with hx | hx
    · cases hx
      exact isHeld_of_bindingElement ht hd h₁ item_ok
    · exact hd _ _ _ _ more hstop h₂ x hx

theorem isHeld_of_patternProperty {m : PatternMember} (hs : s.stream.IsPlaced)
    (h : PatternProperty d s m u) : m.IsHeld := by
  cases h with
  | named key_ok colon value_ok =>
    have h₁ := placed hs (follows_of_propertyName ht key_ok)
    have h₂ := placed h₁ (follows_of_takes colon (by decide))
    exact defaultsHeld_propertyPattern.mpr
      ⟨isHeld_of_propertyName hd hs key_ok, isHeld_of_bindingElement ht hd h₂ value_ok⟩
  | shorthand key_ok value_ok =>
    have h₁ := placed hs (follows_of_propertyName ht key_ok)
    have hv := isHeld_of_withDefault hd h₁ rfl value_ok
    exact defaultsHeld_propertyPattern.mpr ⟨rfl, defaultsHeld_shorthand_pattern hv⟩

theorem isHeld_of_patternMembers {isFirst : Bool} {r : List PatternMember}
    (hs : s.stream.IsPlaced) (h : PatternMembers d isFirst s r u) : ∀ x ∈ r, x.IsHeld := by
  cases h with
  | closed closing => nofun
  | trailing comma closing => nofun
  | rest comma dots rest_ok closing =>
    obtain ⟨s₂, id, -, -, ⟨⟩⟩ := of_restOfBinding rest_ok
    intro x hx
    cases List.mem_singleton.mp hx
    rfl
  | item comma item_ok more =>
    have h₁ := placed hs (follows_of_separator comma)
    have h₂ := placed h₁ (follows_of_patternProperty ht item_ok)
    exact List.forall_mem_cons.mpr
      ⟨isHeld_of_patternProperty ht hd h₁ item_ok, hd _ _ _ _ more trivial h₂⟩

omit ht in
theorem isHeld_of_block {directives : Bool} {b : Block} (hs : s.stream.IsPlaced)
    (h : block d directives s = .ok b u) : b.IsHeld := by
  obtain ⟨s₁, body, htakes, hb, rfl⟩ := of_block h
  have h₁ := placed hs (follows_of_takes htakes (by decide))
  exact defaultsHeld_ofList.mpr (hd _ _ _ _ hb trivial h₁)

omit ht in
theorem isHeld_of_parameters {params : List Pattern} (hs : s.stream.IsPlaced)
    (h : parameters d s = .ok params u) : ∀ p ∈ params, p.IsHeld := by
  obtain ⟨targets, htargets, rfl⟩ := of_parameters h
  intro p hp
  exact hd _ _ _ _ htargets nofun hs p (List.reduceOption_mem_iff.mp hp)

/-- What the parts of a function hold, whether it becomes an expression or a statement. -/
def PartsHeld (f : FunctionParts) : Prop :=
  (∀ p ∈ f.params, p.IsHeld) ∧ f.body.IsHeld

omit ht hd in
theorem isHeld_toExpression {f : FunctionParts} (h : PartsHeld f) (isOpen : Bool) :
    f.toExpression.defaultsHeld isOpen false = true :=
  Bool.and_eq_true_iff.mpr ⟨defaultsHeld_ofList.mpr h.1, h.2⟩

omit ht hd in
theorem isHeld_toDeclaration {f : FunctionParts} (h : PartsHeld f) : f.toDeclaration.IsHeld :=
  Bool.and_eq_true_iff.mpr ⟨defaultsHeld_ofList.mpr h.1, h.2⟩

omit ht in
theorem isHeld_of_functionBlock {id : Option Identifier} {params : List Pattern}
    {generator : Bool} {b : Block} (hs : s.stream.IsPlaced)
    (h : FunctionBody id params generator false (block d true) s b u) : b.IsHeld := by
  cases h with
  | intro body_ok =>
    have hs' : (s.enterFunction generator).stream.IsPlaced := hs
    exact isHeld_of_block hd hs' body_ok

theorem partsHeld_of_function {start : Place} {isDeclaration : Bool} {f : FunctionParts}
    (hs : s.stream.IsPlaced) (h : Function d start isDeclaration s f u) : PartsHeld f := by
  cases h with
  | intro star name opening params_ok body_ok =>
    rename_i s₁ _ s₂ s₃ _ s₄ _
    have h₁ := placed hs (follows_of_eats star (by decide))
    have h₂ : s₂.stream.IsPlaced := by
      cases name with
      | named name_ok => exact placed h₁ (follows_of_identifier name_ok)
      | anonymous => exact h₁
    have h₃ := placed h₂ (follows_of_takes opening (by decide))
    have h₄ := placed h₃ (follows_of_parameters ht params_ok)
    exact ⟨isHeld_of_parameters hd h₃ params_ok, isHeld_of_functionBlock hd h₄ body_ok⟩

theorem partsHeld_of_method {generator : Bool} {f : FunctionParts} (hs : s.stream.IsPlaced)
    (h : method d generator s = .ok f u) : PartsHeld f := by
  obtain ⟨s₁, s₂, params, body, htakes, hp, hb, rfl⟩ := of_method h
  have h₁ := placed hs (follows_of_takes htakes (by decide))
  have h₂ := placed h₁ (follows_of_parameters ht hp)
  exact ⟨isHeld_of_parameters hd h₁ hp, isHeld_of_functionBlock hd h₂ hb⟩

omit ht in
theorem isHeld_of_arrowBody {b : Body} (hs : s.stream.IsPlaced)
    (h : arrowBody d s = .ok b u) : b.IsHeld := by
  cases of_arrowBody h with
  | block block_ok => exact isHeld_of_block hd hs block_ok
  | concise value_ok => exact isHeld_of_value hd hs value_ok

omit ht in
/-- An arrow function holds what its parameters and its body hold, and starts where they do. -/
theorem isHeld_of_arrow {start : Place} {params : List Pattern} {e : Expression}
    (hs : s.stream.IsPlaced) (hparams : ∀ p ∈ params, p.IsHeld)
    (h : arrow d start params s = .ok e u) :
    (∀ isOpen, e.defaultsHeld isOpen false = true) ∧ e.span.start = start := by
  obtain ⟨s₁, body, htakes, hb, rfl⟩ := of_arrow h
  have h₁ := placed hs (follows_of_takes htakes (by decide))
  cases hb with
  | intro body_ok =>
    have h₁' : (s₁.enterFunction false).stream.IsPlaced := h₁
    have hbody := isHeld_of_arrowBody hd h₁' body_ok
    refine ⟨fun isOpen => ?_, start_spanFrom _ _⟩
    exact Bool.and_eq_true_iff.mpr ⟨defaultsHeld_ofList.mpr hparams, hbody⟩

theorem gathers_of_expressionWith {noIn owned : Bool} {pending : Pending}
    {r : Expression × Pending} (hs : s.stream.IsPlaced) (ho : owned = true → pending = none)
    (hp : IsBehind pending s) (h : ExpressionWith d noIn owned pending s r u) :
    GathersExpression pending s r u ∧ (owned = true → r.2 = none) := by
  cases h with
  | single first => exact hd _ _ _ _ first trivial hs ho hp
  | sequence first comma more =>
    have h₁ := follows_of_goal ht first trivial
    obtain ⟨⟨hg, -⟩, ho'⟩ := hd _ _ _ _ first trivial hs ho hp
    obtain ⟨hg', ho''⟩ := hd _ _ _ _ more trivial (placed hs h₁) ho' hg.behind
    have h₂ := follows_of_goal ht more trivial
    have hall := hg.append hg'
    refine ⟨⟨hall.mono (placed (placed hs h₁) h₂) .refl fun isOpen h => ?_, ?_⟩, ho''⟩
    · exact defaultsHeld_ofList.mpr (List.forall_mem_cons.mpr h)
    · exact le_start_spanFrom _ _

theorem isHeld_of_expression {noIn : Bool} {e : Expression} (hs : s.stream.IsPlaced)
    (h : expression d noIn s = .ok e u) : e.IsHeld := by
  obtain ⟨after, h⟩ := of_expression h
  obtain ⟨⟨hg, -⟩, ho⟩ :=
    gathers_of_expressionWith ht hd hs (fun _ => rfl) isBehind_none h
  exact hg.settled (ho rfl)

theorem gathers_of_commaOperands {noIn owned : Bool} {pending : Pending}
    {r : List Expression × Pending} (hs : s.stream.IsPlaced)
    (ho : owned = true → pending = none) (hp : IsBehind pending s)
    (h : CommaOperands d noIn owned pending s r u) :
    Gathers pending r.2 u (fun isOpen => ∀ x ∈ r.1, x.defaultsHeld isOpen false = true) ∧
      (owned = true → r.2 = none) := by
  cases h with
  | done => exact ⟨.of_held hp hs .refl fun _ => nofun, ho⟩
  | operand comma first more =>
    have hf₁ := follows_of_takes comma (by decide)
    have h₁ := placed hs hf₁
    have h₂ := placed h₁ (follows_of_goal ht first trivial)
    obtain ⟨⟨hg, -⟩, ho'⟩ := hd _ _ _ _ first trivial h₁ ho (hp.mono hs hf₁)
    obtain ⟨hg', ho''⟩ := hd _ _ _ _ more trivial h₂ ho' hg.behind
    have h₃ := placed h₂ (follows_of_goal ht more trivial)
    exact ⟨(hg.append hg').mono h₃ .refl fun _ h => List.forall_mem_cons.mpr h, ho''⟩

omit ht in
theorem isHeld_of_yieldExpression {noIn : Bool} {e : Expression} (hs : s.stream.IsPlaced)
    (hw : s.isWord "yield" = true) (h : YieldExpression d noIn s e u) :
    e.IsHeld ∧ e.span.start = s.place := by
  cases h with
  | alone word => exact ⟨rfl, start_spanFrom _ _⟩
  | argument word star argument =>
    have h₁ := placed hs (follows_of_word hw word)
    have h₂ := placed h₁ (follows_of_eats star (by decide))
    have hv := isHeld_of_value hd h₂ argument
    exact ⟨hv, start_spanFrom _ _⟩

omit ht in
theorem isHeld_of_unaryExpression {e : Expression} (hs : s.stream.IsPlaced)
    (hk : s.kind.isUnary = true) (h : UnaryExpression d s e u) :
    e.IsHeld ∧ e.span.start = s.place := by
  have hk : s.kind ≠ .eof := by
    rintro he
    simp [he, TokenKind.isUnary] at hk
  cases h with
  | update word argument_ok =>
    have h₁ := placed hs (follows_of_advance hk word)
    have ha := isHeld_of_operand hd h₁ argument_ok
    exact ⟨ha, start_spanFrom _ _⟩
  | unary word argument_ok =>
    have h₁ := placed hs (follows_of_advance hk word)
    have ha := isHeld_of_operand hd h₁ argument_ok
    exact ⟨ha, start_spanFrom _ _⟩

omit ht hd in
theorem isHeld_of_trailingUpdate {start : Place} {e r : Expression} (he : e.IsHeld)
    (hstart : start.offset ≤ e.span.start.offset) (h : TrailingUpdate start e s r u) :
    r.IsHeld ∧ start.offset ≤ r.span.start.offset := by
  cases h with
  | bare => exact ⟨he, hstart⟩
  | update =>
    exact ⟨he, le_start_spanFrom _ _⟩

theorem gathers_of_leftHandSide {pending : Pending} {r : Expression × Pending}
    (hs : s.stream.IsPlaced) (hp : IsBehind pending s) (h : LeftHandSide d pending s r u) :
    GathersExpression pending s r u := by
  cases h with
  | atom atom_ok => exact hd _ _ _ _ atom_ok trivial hs hp
  | suffixed atom_ok more =>
    obtain ⟨hg, hstart⟩ := hd _ _ _ _ atom_ok trivial hs hp
    obtain rfl := eq_none_of_gathers hg
    have h₁ := placed hs (follows_of_goal ht atom_ok trivial)
    obtain ⟨hr, hstart'⟩ := hd _ _ _ _ more trivial h₁ (hg.settled rfl)
    exact gathersExpression_none hr (hstart' hstart)

theorem gathers_of_unary {pending : Pending} {r : Expression × Pending}
    (hs : s.stream.IsPlaced) (hp : IsBehind pending s) (h : Unary d pending s r u) :
    GathersExpression pending s r u := by
  cases h with
  | operator kind unary_ok =>
    have hf := follows_of_unaryExpression ht kind unary_ok
    obtain ⟨he, hstart⟩ := isHeld_of_unaryExpression hd hs kind unary_ok
    exact gathersExpression_of_isHeld hp hs hf he (Nat.le_of_eq (congrArg _ hstart).symm)
  | pending left_ok => exact gathers_of_leftHandSide ht hd hs hp left_ok
  | trailing left_ok more =>
    obtain ⟨hg, hstart⟩ := gathers_of_leftHandSide ht hd hs hp left_ok
    obtain rfl := eq_none_of_gathers hg
    obtain ⟨hr, hstart'⟩ := isHeld_of_trailingUpdate (hg.settled rfl) hstart more
    exact gathersExpression_none hr hstart'

omit ht hd in
theorem isHeld_of_joined {t : Token} {span : Span} {left right e : Expression}
    (hl : left.IsHeld) (hr : right.IsHeld) (h : Joined t span left right e) :
    e.IsHeld ∧ e.span = span := by
  cases h with
  | logical => exact ⟨Bool.and_eq_true_iff.mpr ⟨hl, hr⟩, rfl⟩
  | binary => exact ⟨Bool.and_eq_true_iff.mpr ⟨hl, hr⟩, rfl⟩

theorem isHeld_of_operators {left : Expression} {start : Place} {floor : Nat} {noIn : Bool}
    {r : Expression} (hs : s.stream.IsPlaced) (hl : left.IsHeld)
    (h : Operators d left start floor noIn s r u) :
    r.IsHeld ∧ (start.offset ≤ left.span.start.offset → start.offset ≤ r.span.start.offset) := by
  cases h with
  | done => exact ⟨hl, id⟩
  | operator kind tight notIn word operand_ok right_ok joined more =>
    rename_i strength s₁ operand s₂ right s₃ e
    have hk : s.kind ≠ .eof := by
      rintro he
      simp [he, TokenKind.binaryStrength?] at kind
    have h₁ := placed hs (follows_of_advance hk word)
    have h₂ := placed h₁ (follows_of_operand ht operand_ok)
    have h₃ := placed h₂ (follows_of_goal ht right_ok trivial)
    obtain ⟨hright, -⟩ := hd _ _ _ _ right_ok trivial h₂ (isHeld_of_operand hd h₁ operand_ok)
    obtain ⟨he, hspan⟩ := isHeld_of_joined hl hright joined
    obtain ⟨hr, hstart⟩ := hd _ _ _ _ more trivial h₃ he
    have hle : start.offset ≤ e.span.start.offset := by
      rw [hspan]
      exact le_start_spanFrom _ _
    exact ⟨hr, fun _ => hstart hle⟩

theorem gathers_of_binary {noIn : Bool} {pending : Pending} {r : Expression × Pending}
    (hs : s.stream.IsPlaced) (hp : IsBehind pending s) (h : Binary d noIn pending s r u) :
    GathersExpression pending s r u := by
  cases h with
  | operand first => exact hd _ _ _ _ first trivial hs hp
  | operators first more =>
    obtain ⟨hg, hstart⟩ := hd _ _ _ _ first trivial hs hp
    obtain rfl := eq_none_of_gathers hg
    have h₁ := placed hs (follows_of_goal ht first trivial)
    obtain ⟨hr, hstart'⟩ := hd _ _ _ _ more trivial h₁ (hg.settled rfl)
    exact gathersExpression_none hr (hstart' hstart)

theorem gathers_of_conditional {noIn : Bool} {pending : Pending} {r : Expression × Pending}
    (hs : s.stream.IsPlaced) (hp : IsBehind pending s) (h : Conditional d noIn pending s r u) :
    GathersExpression pending s r u := by
  cases h with
  | plain test_ok => exact gathers_of_binary ht hd hs hp test_ok
  | choice test_ok question consequent_ok colon alternate_ok =>
    obtain ⟨hg, -⟩ := gathers_of_binary ht hd hs hp test_ok
    obtain rfl := eq_none_of_gathers hg
    have h₁ := placed hs (follows_of_binary ht test_ok)
    have h₂ := placed h₁ (follows_of_takes question (by decide))
    have h₃ := placed h₂ (follows_of_value ht consequent_ok)
    have h₄ := placed h₃ (follows_of_takes colon (by decide))
    have hc := isHeld_of_value hd h₂ consequent_ok
    have ha := isHeld_of_value hd h₄ alternate_ok
    refine gathersExpression_none (Bool.and_eq_true_iff.mpr ⟨?_, ha⟩) ?_
    · exact Bool.and_eq_true_iff.mpr ⟨hg.settled rfl, hc⟩
    · exact le_start_spanFrom _ _

/-- The target of an assignment takes up what its expression held open, and of the defaults
that were pending only those before the target stay pending. -/
theorem gathers_of_assignment {noIn owned : Bool} {outer : Pending} {r : Expression × Pending}
    (hs : s.stream.IsPlaced) (ho : owned = true → outer = none) (hp : IsBehind outer s)
    (h : Assignment d noIn owned outer s r u) :
    GathersExpression outer s r u ∧ (owned = true → r.2 = none) := by
  have hinherited : (if owned then none else outer) = outer := by
    cases owned with
    | true => exact (ho rfl).symm
    | false => rfl
  have hmark : s.markArrow.stream.IsPlaced := by rwa [stream_markArrow]
  have hplace : s.markArrow.place = s.place := place_markArrow s
  have hp' : IsBehind outer s.markArrow := isBehind_markArrow.mpr hp
  cases h with
  | yield scope word yield_ok =>
    have hf := follows_of_yieldExpression ht word yield_ok
    obtain ⟨he, hstart⟩ := isHeld_of_yieldExpression hd hs word yield_ok
    exact ⟨gathersExpression_of_isHeld hp hs hf he (Nat.le_of_eq (congrArg _ hstart).symm), ho⟩
  | plain left_ok last settled =>
    rw [hinherited] at left_ok
    obtain ⟨hg, hstart⟩ := gathers_of_conditional ht hd hmark hp' (of_conditional left_ok)
    exact ⟨⟨hg, hplace ▸ hstart⟩, settled⟩
  | assign left_ok kind spelling simple target_ok legal word value_ok =>
    rename_i left pending s₁ operator target s₂ value
    rw [hinherited] at left_ok
    obtain ⟨hg, hstart⟩ := gathers_of_conditional ht hd hmark hp' (of_conditional left_ok)
    rw [hplace] at hstart
    have h₁ := placed hmark (follows_of_conditional ht (of_conditional left_ok))
    have hk : s₁.kind ≠ .eof := by
      rintro he
      simp [he, TokenKind.isAssignment] at kind
    have hf₂ := follows_of_advance hk word
    have hf₃ := follows_of_value ht value_ok
    have htarget := defaultsHeld_of_toPattern target_ok hg.isOpen (isSpreadless_of_check legal)
    have hvalue := isHeld_of_value hd (placed h₁ hf₂) value_ok
    have hheld : ∀ isOpen, (Node.assignment (u.spanFrom s.place) operator target
        value).defaultsHeld isOpen false = true :=
      fun isOpen => defaultsHeld_assignment.mpr ⟨.inr rfl, htarget, hvalue⟩
    have hstart' : s.place.offset ≤ (u.spanFrom s.place).start.offset :=
      le_start_spanFrom _ _
    refine ⟨⟨⟨hheld true, fun _ => hheld false, ?_, ?_⟩, hstart'⟩, ?_⟩
    · rintro place rfl
      have hfilter : place.offset < left.span.start.offset :=
        Nat.lt_of_lt_of_le (hp place rfl) hstart
      have hkeep := hg.keeps place rfl
      dsimp only at hkeep
      cases owned with
      | true => cases ho rfl
      | false => simp [hkeep, hfilter]
    · intro place hplace
      have hpending : pending = some place := by
        cases owned with
        | true => cases hplace
        | false => exact (Option.filter_eq_some_iff.mp hplace).1
      exact hg.behind.mono h₁ (hf₂.trans hf₃) place hpending
    · rintro rfl
      rfl

end Rules

end BareDefault

end EcmaTree
