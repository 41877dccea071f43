import EcmaTree.Proofs.Grammar.Induction
import EcmaTree.Proofs.Token.Trail

/-!
# A parse follows its token stream

Whatever a rule tries on its way, a rule that succeeds leaves the token stream where the
stream itself comes by leaving tokens behind one after the other. An attempt that fails
and a look at the next token change nothing. So an accepted program ends with the trail
of its text: with the same tokens and with the same comments.
-/

namespace EcmaTree

open EcmaTree.Parser EcmaTree.Grammar EcmaTree.Reading

/-- The token stream of `u` comes after that of `s`. -/
abbrev ParseState.Follows (s u : ParseState) : Prop :=
  s.stream.Follows u.stream

/-- The token stream of `u` comes after that of `s` without its current token. -/
def ParseState.Passes (s u : ParseState) : Prop :=
  ∃ t, advance s = .ok () t ∧ t.Follows u

namespace Goal

/-- A list of items does not go on to the end of input. -/
def IsBounded : Goal → Prop
  | .elements stop _ _ _ _ | .targets stop _ _ _ => stop ≠ .eof
  | _ => True

/-- What answering a goal does to the token stream. -/
def Traces (g : Goal) (s u : ParseState) : Prop :=
  s.Follows u ∧
    match g with
    | .statements _ stop => stop = .eof → u.kind = .eof
    | .chunks => u.kind = .backQuote
    | _ => True

end Goal

namespace Trail

variable {d : Descent} {s u : ParseState}

theorem step_of_advance (hk : s.kind ≠ .eof) (h : advance s = .ok () u) :
    TokenStream.Step s.stream u.stream := by
  obtain ⟨stream, ha, rfl⟩ := advance_eq_ok.mp h
  exact ⟨hk, ha⟩

theorem follows_of_advance (hk : s.kind ≠ .eof) (h : advance s = .ok () u) : s.Follows u :=
  .single (step_of_advance hk h)

theorem follows_of_passes (hk : s.kind ≠ .eof) (h : s.Passes u) : s.Follows u := by
  obtain ⟨t, ha, hf⟩ := h
  exact (follows_of_advance hk ha).trans hf

theorem follows_of_takes {k : TokenKind} (h : Takes k s u) (hk : k ≠ .eof) :
    s.Follows u :=
  follows_of_advance (h.1 ▸ hk) h.2

theorem follows_of_eats {k : TokenKind} {b : Bool} (h : Eats k b s u)
    (hk : k ≠ .eof) : s.Follows u := by
  rcases h with ⟨-, h⟩ | ⟨-, -, rfl⟩
  · exact follows_of_takes h hk
  · exact .refl

theorem follows_markArrow : s.markArrow.Follows u ↔ s.Follows u := by
  rw [ParseState.Follows, ParseState.stream_markArrow]

theorem follows_of_ends (h : Ends s u) : s.Follows u := by
  rcases h with h | ⟨-, -, rfl⟩
  · exact follows_of_takes h (by decide)
  · exact .refl

theorem follows_of_separator {isFirst : Bool} (h : Separator isFirst s u) : s.Follows u := by
  cases h with
  | first => exact .refl
  | comma h => exact follows_of_takes h (by decide)

theorem follows_of_identifier {liberal : Bool} {id : Identifier}
    (h : identifier liberal s = .ok id u) : s.Follows u := by
  obtain ⟨name, -, hk, ha, -⟩ := of_identifier h
  refine follows_of_advance ?_ ha
  rintro he
  simp [he, TokenKind.isKeyword, TokenKind.keyword?] at hk

theorem follows_of_literal {lit : Literal} (h : literal s = .ok lit u) : s.Follows u := by
  obtain ⟨value, hv, ha, -⟩ := of_literal h
  refine follows_of_advance ?_ ha
  rintro he
  simp [literalValue?, he] at hv

theorem follows_of_word {word : String} (hw : s.isWord word = true) (h : advance s = .ok () u) :
    s.Follows u := by
  refine follows_of_advance ?_ h
  rintro he
  simp [ParseState.isWord, he] at hw

theorem follows_of_restOfBinding {r : Span × Pattern} (hk : s.kind = .ellipsis)
    (h : restOfBinding s = .ok r u) : s.Follows u := by
  obtain ⟨s₁, id, ha, hid, -⟩ := of_restOfBinding h
  exact (follows_of_advance (by simp [hk]) ha).trans (follows_of_identifier hid)

section Rules

/- The answers that a rule depends on follow their token streams. -/
variable (hd : ∀ g s r u, d g s = .ok r u → g.IsBounded → g.Traces s u)

include hd

theorem follows_of_goal {g : Goal} {r : g.Result} (h : d g s = .ok r u)
    (hg : g.IsBounded) : s.Follows u :=
  (hd g s r u h hg).1

theorem follows_of_value {noIn : Bool} {e : Expression} (h : d.value noIn s = .ok e u) :
    s.Follows u := by
  obtain ⟨after, h⟩ := of_value h
  exact follows_of_goal hd h trivial

theorem follows_of_operand {e : Expression} (h : d.operand s = .ok e u) : s.Follows u :=
  follows_of_goal hd (of_operand h) trivial

theorem follows_of_propertyName {key : Key} (h : PropertyName d s key u) : s.Follows u := by
  cases h with
  | computed opening key_ok closing =>
    have h₁ := follows_of_takes opening (by decide)
    have h₂ := follows_of_value hd key_ok
    exact (h₁.trans h₂).trans (follows_of_takes closing (by decide))
  | literal key_ok => exact follows_of_literal key_ok
  | name key_ok => exact follows_of_identifier key_ok

theorem follows_of_bindingAtom {p : Pattern} (h : BindingAtom d s p u) : s.Follows u := by
  cases h with
  | name name_ok => exact follows_of_identifier name_ok
  | array opening items =>
    exact (follows_of_takes opening (by decide)).trans (follows_of_goal hd items nofun)
  | object opening items =>
    exact (follows_of_takes opening (by decide)).trans (follows_of_goal hd items trivial)

theorem follows_of_withDefault {start : Place} {target p : Pattern}
    (h : WithDefault d start target s p u) : s.Follows u := by
  cases h with
  | given eq value_ok =>
    exact (follows_of_takes eq (by decide)).trans (follows_of_value hd value_ok)
  | bare => exact .refl

theorem follows_of_bindingElement {p : Pattern} (h : bindingElement d s = .ok p u) :
    s.Follows u := by
  obtain ⟨target, s₁, ha, hw⟩ := of_bindingElement h
  exact (follows_of_bindingAtom hd ha).trans (follows_of_withDefault hd hw)

theorem follows_of_targets {stop : TokenKind} {holes trailingComma isFirst : Bool}
    {r : List (Option Pattern)} (hstop : stop ≠ .eof)
    (h : Targets d stop holes trailingComma isFirst s r u) : s.Follows u := by
  cases h with
  | closed closing => exact follows_of_takes closing hstop
  | trailing comma closing =>
    exact (follows_of_separator comma).trans (follows_of_takes closing hstop)
  | hole comma next more => exact (follows_of_separator comma).trans (follows_of_goal hd more hstop)
  | rest comma dots rest_ok closing =>
    have h₁ := follows_of_separator comma
    have h₂ := follows_of_restOfBinding dots rest_ok
    exact (h₁.trans h₂).trans (follows_of_takes closing hstop)
  | item comma item_ok more =>
    have h₁ := follows_of_separator comma
    have h₂ := follows_of_bindingElement hd item_ok
    exact (h₁.trans h₂).trans (follows_of_goal hd more hstop)

theorem follows_of_patternProperty {m : PatternMember} (h : PatternProperty d s m u) :
    s.Follows u := by
  cases h with
  | named key_ok colon value_ok =>
    have h₁ := follows_of_propertyName hd key_ok
    have h₂ := follows_of_takes colon (by decide)
    exact (h₁.trans h₂).trans (follows_of_bindingElement hd value_ok)
  | shorthand key_ok value_ok =>
    exact (follows_of_propertyName hd key_ok).trans (follows_of_withDefault hd value_ok)

theorem follows_of_patternMembers {isFirst : Bool} {r : List PatternMember}
    (h : PatternMembers d isFirst s r u) : s.Follows u := by
  cases h with
  | closed closing => exact follows_of_takes closing (by decide)
  | trailing comma closing =>
    exact (follows_of_separator comma).trans (follows_of_takes closing (by decide))
  | rest comma dots rest_ok closing =>
    have h₁ := follows_of_separator comma
    have h₂ := follows_of_restOfBinding dots rest_ok
    exact (h₁.trans h₂).trans (follows_of_takes closing (by decide))
  | item comma item_ok more =>
    have h₁ := follows_of_separator comma
    have h₂ := follows_of_patternProperty hd item_ok
    exact (h₁.trans h₂).trans (follows_of_goal hd more trivial)

theorem follows_of_block {directives : Bool} {b : Block} (h : block d directives s = .ok b u) :
    s.Follows u := by
  obtain ⟨s₁, body, ht, hb, -⟩ := of_block h
  exact (follows_of_takes ht (by decide)).trans (follows_of_goal hd hb trivial)

theorem follows_of_parameters {params : List Pattern} (h : parameters d s = .ok params u) :
    s.Follows u := by
  obtain ⟨targets, ht, -⟩ := of_parameters h
  exact follows_of_goal hd ht nofun

omit hd in
/-- The scope of a function body is no part of the token stream. -/
theorem follows_of_functionBody {α : Type} {id : Option Identifier} {params : List Pattern}
    {generator isArrow : Bool} {body : Parser α} {result : α}
    (hbody : ∀ {s t r}, body s = .ok r t → s.Follows t)
    (h : FunctionBody id params generator isArrow body s result u) : s.Follows u := by
  cases h with
  | intro body_ok =>
    have hb := hbody body_ok
    exact hb

theorem follows_of_function {start : Place} {isDeclaration : Bool} {f : FunctionParts}
    (h : Function d start isDeclaration s f u) : s.Follows u := by
  cases h with
  | intro star name opening params_ok body_ok =>
    have h₁ := follows_of_eats star (by decide)
    have h₃ := follows_of_takes opening (by decide)
    have h₄ := follows_of_parameters hd params_ok
    have h₅ := follows_of_functionBody (follows_of_block hd) body_ok
    cases name with
    | named name_ok =>
      exact (((h₁.trans (follows_of_identifier name_ok)).trans h₃).trans h₄).trans h₅
    | anonymous => exact ((h₁.trans h₃).trans h₄).trans h₅

theorem follows_of_method {generator : Bool} {f : FunctionParts}
    (h : method d generator s = .ok f u) : s.Follows u := by
  obtain ⟨s₁, s₂, params, body, ht, hp, hb, -⟩ := of_method h
  have h₁ := follows_of_takes ht (by decide)
  have h₂ := follows_of_parameters hd hp
  exact (h₁.trans h₂).trans (follows_of_functionBody (follows_of_block hd) hb)

theorem follows_of_arrowBody {b : Body} (h : arrowBody d s = .ok b u) : s.Follows u := by
  cases of_arrowBody h with
  | block block_ok => exact follows_of_block hd block_ok
  | concise value_ok => exact follows_of_value hd value_ok

theorem follows_of_arrow {start : Place} {params : List Pattern} {e : Expression}
    (h : arrow d start params s = .ok e u) : s.Follows u := by
  obtain ⟨s₁, body, ht, hb, -⟩ := of_arrow h
  exact (follows_of_takes ht (by decide)).trans
    (follows_of_functionBody (follows_of_arrowBody hd) hb)

theorem follows_of_expressionWith {noIn owned : Bool} {pending : Pending}
    {r : Expression × Pending} (h : ExpressionWith d noIn owned pending s r u) : s.Follows u := by
  cases h with
  | single first => exact follows_of_goal hd first trivial
  | sequence first comma more =>
    exact (follows_of_goal hd first trivial).trans (follows_of_goal hd more trivial)

theorem follows_of_expression {noIn : Bool} {e : Expression}
    (h : expression d noIn s = .ok e u) : s.Follows u := by
  obtain ⟨after, h⟩ := of_expression h
  exact follows_of_expressionWith hd h

theorem follows_of_commaOperands {noIn owned : Bool} {pending : Pending}
    {r : List Expression × Pending} (h : CommaOperands d noIn owned pending s r u) :
    s.Follows u := by
  cases h with
  | done => exact .refl
  | operand comma first more =>
    have h₁ := follows_of_takes comma (by decide)
    have h₂ := follows_of_goal hd first trivial
    exact (h₁.trans h₂).trans (follows_of_goal hd more trivial)

theorem follows_of_yieldExpression {noIn : Bool} {e : Expression}
    (hw : s.isWord "yield" = true) (h : YieldExpression d noIn s e u) : s.Follows u := by
  cases h with
  | alone word => exact follows_of_word hw word
  | argument word star argument =>
    have h₁ := follows_of_word hw word
    have h₂ := follows_of_eats star (by decide)
    exact (h₁.trans h₂).trans (follows_of_value hd argument)

theorem follows_of_unaryExpression {e : Expression} (hk : s.kind.isUnary = true)
    (h : UnaryExpression d s e u) : s.Follows u := by
  have hk : s.kind ≠ .eof := by
    rintro he
    simp [he, TokenKind.isUnary] at hk
  cases h with
  | update word argument_ok =>
    exact (follows_of_advance hk word).trans (follows_of_operand hd argument_ok)
  | unary word argument_ok =>
    exact (follows_of_advance hk word).trans (follows_of_operand hd argument_ok)

omit hd in
theorem follows_of_trailingUpdate {start : Place} {e r : Expression}
    (h : TrailingUpdate start e s r u) : s.Follows u := by
  cases h with
  | bare => exact .refl
  | update kind simple spelling word => exact follows_of_advance (by simp [kind]) word

theorem follows_of_leftHandSide {pending : Pending} {r : Expression × Pending}
    (h : LeftHandSide d pending s r u) : s.Follows u := by
  cases h with
  | atom atom_ok => exact follows_of_goal hd atom_ok trivial
  | suffixed atom_ok more =>
    exact (follows_of_goal hd atom_ok trivial).trans (follows_of_goal hd more trivial)

theorem follows_of_unary {pending : Pending} {r : Expression × Pending}
    (h : Unary d pending s r u) : s.Follows u := by
  cases h with
  | operator kind unary_ok => exact follows_of_unaryExpression hd kind unary_ok
  | pending left_ok => exact follows_of_leftHandSide hd left_ok
  | trailing left_ok more =>
    exact (follows_of_leftHandSide hd left_ok).trans (follows_of_trailingUpdate more)

theorem follows_of_operators {left : Expression} {start : Place} {floor : Nat} {noIn : Bool}
    {r : Expression} (h : Operators d left start floor noIn s r u) : s.Follows u := by
  cases h with
  | done => exact .refl
  | operator kind tight notIn word operand_ok right_ok joined more =>
    have hk : s.kind ≠ .eof := by
      rintro he
      simp [he, TokenKind.binaryStrength?] at kind
    have h₁ := follows_of_advance hk word
    have h₂ := follows_of_operand hd operand_ok
    have h₃ := follows_of_goal hd right_ok trivial
    exact ((h₁.trans h₂).trans h₃).trans (follows_of_goal hd more trivial)

theorem follows_of_binary {noIn : Bool} {pending : Pending} {r : Expression × Pending}
    (h : Binary d noIn pending s r u) : s.Follows u := by
  cases h with
  | operand first => exact follows_of_goal hd first trivial
  | operators first more =>
    exact (follows_of_goal hd first trivial).trans (follows_of_goal hd more trivial)

theorem follows_of_conditional {noIn : Bool} {pending : Pending} {r : Expression × Pending}
    (h : Conditional d noIn pending s r u) : s.Follows u := by
  cases h with
  | plain test_ok => exact follows_of_binary hd test_ok
  | choice test_ok question consequent_ok colon alternate_ok =>
    have h₁ := follows_of_binary hd test_ok
    have h₂ := follows_of_takes question (by decide)
    have h₃ := follows_of_value hd consequent_ok
    have h₄ := follows_of_takes colon (by decide)
    exact (((h₁.trans h₂).trans h₃).trans h₄).trans (follows_of_value hd alternate_ok)

theorem follows_of_assignment {noIn owned : Bool} {outer : Pending} {r : Expression × Pending}
    (h : Assignment d noIn owned outer s r u) : s.Follows u := by
  cases h with
  | yield scope word yield_ok => exact follows_of_yieldExpression hd word yield_ok
  | plain left_ok => exact follows_markArrow.mp (follows_of_conditional hd (of_conditional left_ok))
  | assign left_ok kind spelling simple target_ok legal word value_ok =>
    rename_i s₁ _ _ _ _
    have h₁ := follows_markArrow.mp (follows_of_conditional hd (of_conditional left_ok))
    have hk : s₁.kind ≠ .eof := by
      rintro he
      simp [he, TokenKind.isAssignment] at kind
    have h₂ := follows_of_advance hk word
    exact (h₁.trans h₂).trans (follows_of_value hd value_ok)

theorem follows_of_callArguments {arguments : Node (.list .element)}
    (h : suffixes.callArguments d s = .ok arguments u) : s.Follows u := by
  obtain ⟨elements, he, -⟩ := of_callArguments h
  exact follows_of_goal hd he nofun

theorem follows_of_suffixes {base : Expression} {start : Place} {noCalls : Bool}
    {r : Expression} (h : Suffixes d base start noCalls s r u) : s.Follows u := by
  cases h with
  | done => exact .refl
  | name dot name_ok more =>
    have h₁ := follows_of_takes dot (by decide)
    have h₂ := follows_of_identifier name_ok
    exact (h₁.trans h₂).trans (follows_of_goal hd more trivial)
  | index opening property_ok closing more =>
    have h₁ := follows_of_takes opening (by decide)
    have h₂ := follows_of_expression hd property_ok
    have h₃ := follows_of_takes closing (by decide)
    exact ((h₁.trans h₂).trans h₃).trans (follows_of_goal hd more trivial)
  | call allowed opening arguments_ok more =>
    have h₁ := follows_of_takes opening (by decide)
    have h₂ := follows_of_callArguments hd arguments_ok
    exact (h₁.trans h₂).trans (follows_of_goal hd more trivial)

theorem follows_of_listElement {holes : Bool} {pending : Pending} {r : Option Element × Pending}
    (h : ListElement d holes pending s r u) : s.Follows u := by
  cases h with
  | hole => exact .refl
  | spread dots argument_ok =>
    exact (follows_of_takes dots (by decide)).trans (follows_of_goal hd argument_ok trivial)
  | item item_ok => exact follows_of_goal hd item_ok trivial

theorem follows_of_elements {stop : TokenKind} {trailingComma holes isFirst : Bool}
    {pending : Pending} {r : List (Option Element) × Pending} (hstop : stop ≠ .eof)
    (h : Elements d stop trailingComma holes isFirst pending s r u) : s.Follows u := by
  cases h with
  | closed closing => exact follows_of_takes closing hstop
  | trailing comma closing =>
    exact (follows_of_separator comma).trans (follows_of_takes closing hstop)
  | item comma item_ok more =>
    have h₁ := follows_of_separator comma
    have h₂ := follows_of_listElement hd item_ok
    exact (h₁.trans h₂).trans (follows_of_goal hd more hstop)

theorem follows_of_parenthesized {isFirst : Bool} {pending : Pending}
    {r : List Element × Pending} (h : Parenthesized d isFirst pending s r u) : s.Follows u := by
  cases h with
  | done => exact .refl
  | rest comma dots rest_ok =>
    exact (follows_of_separator comma).trans (follows_of_restOfBinding dots rest_ok)
  | item comma item_ok more =>
    have h₁ := follows_of_separator comma
    have h₂ := follows_of_goal hd item_ok trivial
    exact (h₁.trans h₂).trans (follows_of_goal hd more trivial)

theorem follows_of_parenthesizedExpression {start : Place} {canBeArrow : Bool} {e : Expression}
    (h : ParenthesizedExpression d start canBeArrow s e u) : s.Follows u := by
  have list : ∀ {s₁ s₂ s₃ : ParseState} {r}, Takes .parenL s s₁ →
      d (.parenthesized true none) s₁ = .ok r s₂ → Takes .parenR s₂ s₃ → s.Follows s₃ := by
    intro s₁ s₂ s₃ r opening items_ok closing
    have h₁ := follows_of_takes opening (by decide)
    have h₂ := follows_of_goal hd items_ok trivial
    exact (h₁.trans h₂).trans (follows_of_takes closing (by decide))
  cases h with
  | arrow allowed opening items_ok closing patterns_ok legal arrow_ok =>
    exact (list opening items_ok closing).trans (follows_of_arrow hd arrow_ok)
  | single opening items_ok closing => exact list opening items_ok closing
  | sequence opening items_ok closing => exact list opening items_ok closing

/-- An attempt at parameters that has failed has left the stream where it was. -/
theorem follows_of_parenthesis {canBeArrow : Bool} {e : Expression}
    (h : Parenthesis d canBeArrow s e u) : s.Follows u := by
  cases h with
  | arrow allowed params_ok arrow_ok =>
    obtain ⟨s₁, ht, hp, -⟩ := of_arrowParameters params_ok
    have h₁ := follows_of_takes ht (by decide)
    have h₂ := follows_of_parameters hd hp
    exact (h₁.trans h₂).trans (follows_of_arrow hd arrow_ok)
  | list no_params list_ok => exact follows_of_parenthesizedExpression hd list_ok

theorem follows_of_nameOrArrow {canBeArrow : Bool} {e : Expression}
    (h : NameOrArrow d canBeArrow s e u) : s.Follows u := by
  cases h with
  | name name_ok => exact follows_of_identifier name_ok
  | arrow allowed name_ok arrow_ok =>
    exact (follows_of_identifier name_ok).trans (follows_of_arrow hd arrow_ok)

theorem follows_of_newExpression {e : Expression} (hk : s.kind = .keyword .new)
    (h : newExpression d s = .ok e u) : s.Follows u := by
  obtain ⟨s₁, atom, s₂, callee, s₃, arguments, ha, hp, hs, hargs, -⟩ := of_newExpression h
  have h₁ := follows_of_advance (by simp [hk]) ha
  have h₂ := follows_of_goal hd hp trivial
  have h₃ := follows_of_goal hd hs trivial
  cases hargs with
  | none => exact (h₁.trans h₂).trans h₃
  | given opening arguments_ok =>
    have h₄ := follows_of_takes opening (by decide)
    exact (((h₁.trans h₂).trans h₃).trans h₄).trans (follows_of_callArguments hd arguments_ok)

theorem traces_of_chunks {r : List TemplateElement × List Expression}
    (h : Chunks d s r u) : s.Follows u ∧ u.kind = .backQuote := by
  cases h with
  | last kind value chunk closing => exact ⟨follows_of_advance (by simp [kind]) chunk, closing⟩
  | more kind value chunk opening value_ok closing more =>
    have h₁ := follows_of_advance (by simp [kind]) chunk
    have h₂ := follows_of_takes opening (by decide)
    have h₃ := follows_of_expression hd value_ok
    have h₄ := follows_of_takes closing (by decide)
    obtain ⟨h₅, hk⟩ := hd _ _ _ _ more trivial
    exact ⟨(((h₁.trans h₂).trans h₃).trans h₄).trans h₅, hk⟩

theorem follows_of_template {e : Expression} (h : template d s = .ok e u) : s.Follows u := by
  obtain ⟨s₁, quasis, values, s₂, ht, hc, ha, -⟩ := of_template h
  have h₁ := follows_of_takes ht (by decide)
  obtain ⟨h₂, hk⟩ := hd _ _ _ _ hc trivial
  exact (h₁.trans h₂).trans (follows_of_advance (by simp [hk]) ha)

theorem follows_of_shorthandProperty {start : Place} {id : Identifier} {pending : Pending}
    {r : Member × Pending} (h : ShorthandProperty d start id pending s r u) : s.Follows u := by
  cases h with
  | bare => exact .refl
  | default eq value_ok =>
    exact (follows_of_takes eq (by decide)).trans (follows_of_goal hd value_ok trivial)

theorem follows_of_memberKey {accessor : Option PropertyKind} {key : Key}
    (h : MemberKey d s accessor key u) : s.Follows u := by
  cases h with
  | plain key_ok => exact follows_of_propertyName hd key_ok
  | accessor word_ok isAccessor key_ok =>
    exact (follows_of_propertyName hd word_ok).trans (follows_of_propertyName hd key_ok)

theorem follows_of_property {pending : Pending} {r : Member × Pending}
    (h : Property d pending s r u) : s.Follows u := by
  cases h with
  | method star key_ok exclusive method_ok =>
    have h₁ := follows_of_eats star (by decide)
    have h₂ := follows_of_memberKey hd key_ok
    exact (h₁.trans h₂).trans (follows_of_method hd method_ok)
  | value key_ok colon value_ok =>
    have h₁ := follows_of_propertyName hd key_ok
    have h₂ := follows_of_takes colon (by decide)
    exact (h₁.trans h₂).trans (follows_of_goal hd value_ok trivial)
  | shorthand key_ok more =>
    exact (follows_of_propertyName hd key_ok).trans (follows_of_shorthandProperty hd more)

theorem follows_of_objectMember {pending : Pending} {r : Member × Pending}
    (h : ObjectMember d pending s r u) : s.Follows u := by
  cases h with
  | spread dots argument_ok =>
    exact (follows_of_takes dots (by decide)).trans (follows_of_goal hd argument_ok trivial)
  | property property_ok => exact follows_of_property hd property_ok

theorem follows_of_members {isFirst : Bool} {pending : Pending} {r : List Member × Pending}
    (h : Members d isFirst pending s r u) : s.Follows u := by
  cases h with
  | closed closing => exact follows_of_takes closing (by decide)
  | trailing comma closing =>
    exact (follows_of_separator comma).trans (follows_of_takes closing (by decide))
  | item comma item_ok more =>
    have h₁ := follows_of_separator comma
    have h₂ := follows_of_objectMember hd item_ok
    exact (h₁.trans h₂).trans (follows_of_goal hd more trivial)

theorem follows_of_primary {pending : Pending} {r : Expression × Pending}
    (h : Primary d pending s r u) : s.Follows u := by
  cases h with
  | name kind name_ok => exact follows_of_nameOrArrow hd name_ok
  | this word => exact follows_of_takes word (by decide)
  | literal literal_ok => exact follows_of_literal literal_ok
  | parenthesis kind parenthesis_ok => exact follows_of_parenthesis hd parenthesis_ok
  | array opening elements_ok =>
    exact (follows_of_takes opening (by decide)).trans (follows_of_goal hd elements_ok nofun)
  | object opening members_ok =>
    exact (follows_of_takes opening (by decide)).trans (follows_of_goal hd members_ok trivial)
  | function word function_ok =>
    exact (follows_of_takes word (by decide)).trans
      (follows_of_function hd (of_function function_ok))
  | template kind template_ok => exact follows_of_template hd template_ok
  | new kind new_ok => exact follows_of_newExpression hd kind new_ok

theorem traces_of_statements {inPrologue : Bool} {stop : TokenKind} {r : List Statement}
    (h : Statements d inPrologue stop s r u) :
    s.Follows u ∧ (stop = .eof → u.kind = .eof) := by
  cases h with
  | closed different closing =>
    exact ⟨follows_of_takes closing different, fun h => absurd h different⟩
  | ended same eof => exact ⟨.refl, fun _ => eof⟩
  | directive more_text prologue statement_ok isDirective more =>
    obtain ⟨h, hk⟩ := hd _ _ _ _ more trivial
    rw [ParseState.Follows, stream_obeyed] at h
    exact ⟨(follows_of_goal hd statement_ok trivial).trans h, hk⟩
  | statement more_text not_directive statement_ok more =>
    obtain ⟨h, hk⟩ := hd _ _ _ _ more trivial
    exact ⟨(follows_of_goal hd statement_ok trivial).trans h, hk⟩

theorem follows_of_declaratorRead {inFor : Bool} {kind : VariableKind} {r : Declarator}
    (h : DeclaratorRead d inFor kind s r u) : s.Follows u := by
  cases h with
  | initialized target_ok legal eq init_ok =>
    have h₁ := follows_of_bindingAtom hd target_ok
    have h₂ := follows_of_takes eq (by decide)
    exact (h₁.trans h₂).trans (follows_of_value hd init_ok)
  | bare target_ok => exact follows_of_bindingAtom hd target_ok

theorem follows_of_declarators {inFor : Bool} {kind : VariableKind} {r : List Declarator}
    (h : Declarators d inFor kind s r u) : s.Follows u := by
  cases h with
  | last first_ok => exact follows_of_declaratorRead hd first_ok
  | more first_ok comma more =>
    have h₁ := follows_of_declaratorRead hd first_ok
    have h₂ := follows_of_takes comma (by decide)
    exact (h₁.trans h₂).trans (follows_of_goal hd more trivial)

omit hd in
theorem ne_eof_of_begins {kind : VariableKind} (h : BeginsDeclaration kind s) : s.kind ≠ .eof := by
  rintro he
  cases kind <;> simp [BeginsDeclaration, he, ParseState.isWord] at h

theorem passes_of_declarationStatement {kind : VariableKind} {r : Statement}
    (h : declarationStatement d kind s = .ok r u) : s.Passes u := by
  obtain ⟨s₁, list, s₂, ha, hl, he, -⟩ := of_declarationStatement h
  exact ⟨s₁, ha, (follows_of_goal hd hl trivial).trans (follows_of_ends he)⟩

theorem passes_of_returnStatement {options : ParseOptions} {r : Statement}
    (h : returnStatement d options s = .ok r u) : s.Passes u := by
  cases of_returnStatement h with
  | empty allowed word ends => exact ⟨_, word, follows_of_ends ends⟩
  | value allowed word value_ok ends =>
    exact ⟨_, word, (follows_of_expression hd value_ok).trans (follows_of_ends ends)⟩

theorem follows_of_headExpression {e : Expression} (h : headExpression d s = .ok e u) :
    s.Follows u := by
  obtain ⟨s₁, s₂, ht, he, ht'⟩ := of_headExpression h
  have h₁ := follows_of_takes ht (by decide)
  have h₂ := follows_of_expression hd he
  exact (h₁.trans h₂).trans (follows_of_takes ht' (by decide))

theorem passes_of_ifStatement {r : Statement} (h : ifStatement d s = .ok r u) : s.Passes u := by
  obtain ⟨s₁, test, s₂, consequent, s₃, alternate, ha, ht, hc, halt, -⟩ := of_ifStatement h
  have h₂ := follows_of_headExpression hd ht
  have h₃ := follows_of_goal hd hc trivial
  cases halt with
  | absent => exact ⟨s₁, ha, h₂.trans h₃⟩
  | present word statement_ok =>
    have h₄ := follows_of_takes word (by decide)
    exact ⟨s₁, ha, ((h₂.trans h₃).trans h₄).trans (follows_of_goal hd statement_ok trivial)⟩

theorem follows_of_loopBody {r : Statement} (h : loopBody d s = .ok r u) : s.Follows u := by
  obtain ⟨t, hb, rfl⟩ := of_loopBody h
  have hf := follows_of_goal hd hb trivial
  exact hf

theorem passes_of_whileStatement {r : Statement} (h : whileStatement d s = .ok r u) :
    s.Passes u := by
  obtain ⟨s₁, test, s₂, body, ha, ht, hb, -⟩ := of_whileStatement h
  exact ⟨s₁, ha, (follows_of_headExpression hd ht).trans (follows_of_loopBody hd hb)⟩

theorem follows_of_optionalExpression {stop : TokenKind} {r : Node (.option .expression)}
    (h : OptionalExpression d stop s r u) : s.Follows u := by
  cases h with
  | absent => exact .refl
  | present value_ok => exact follows_of_expression hd value_ok

theorem follows_of_forParts {start : Place} {init : Node (.option .forInit)} {r : Statement}
    (h : forParts d start init s = .ok r u) : s.Follows u := by
  obtain ⟨s₁, test, s₂, s₃, update, s₄, s₅, body, ht, htest, ht', hupdate, ht'', hb, -⟩ :=
    of_forParts h
  have h₁ := follows_of_takes ht (by decide)
  have h₂ := follows_of_optionalExpression hd htest
  have h₃ := follows_of_takes ht' (by decide)
  have h₄ := follows_of_optionalExpression hd hupdate
  have h₅ := follows_of_takes ht'' (by decide)
  exact ((((h₁.trans h₂).trans h₃).trans h₄).trans h₅).trans (follows_of_loopBody hd hb)

theorem follows_of_forEach {start : Place} {left : Node .forTarget} {r : Statement}
    (hn : s.kind = .keyword .in ∨ s.isWord "of" = true) (h : ForEach d start left s r u) :
    s.Follows u := by
  cases h with
  | keys word right_ok closing body_ok =>
    have h₁ := follows_of_takes word (by decide)
    have h₂ := follows_of_expression hd right_ok
    have h₃ := follows_of_takes closing (by decide)
    exact ((h₁.trans h₂).trans h₃).trans (follows_of_loopBody hd body_ok)
  | values not_in word right_ok closing body_ok =>
    have h₁ := follows_of_word (hn.resolve_left not_in) word
    have h₂ := follows_of_value hd right_ok
    have h₃ := follows_of_takes closing (by decide)
    exact ((h₁.trans h₂).trans h₃).trans (follows_of_loopBody hd body_ok)

theorem follows_of_forDeclaration {start : Place} {kind : VariableKind} {r : Statement}
    (hb : BeginsDeclaration kind s) (h : ForDeclaration d start kind s r u) : s.Follows u := by
  cases h with
  | each word list_ok next each_ok =>
    have h₁ := follows_of_advance (ne_eof_of_begins hb) word
    have h₂ := follows_of_goal hd list_ok trivial
    exact (h₁.trans h₂).trans (follows_of_forEach hd next each_ok)
  | parts word list_ok parts_ok =>
    have h₁ := follows_of_advance (ne_eof_of_begins hb) word
    have h₂ := follows_of_goal hd list_ok trivial
    exact (h₁.trans h₂).trans (follows_of_forParts hd parts_ok)

theorem follows_of_forExpression {start : Place} {r : Statement}
    (h : ForExpression d start s r u) : s.Follows u := by
  cases h with
  | each init_ok next target_ok legal each_ok =>
    exact (follows_of_expressionWith hd init_ok).trans (follows_of_forEach hd next each_ok)
  | parts init_ok parts_ok =>
    exact (follows_of_expressionWith hd init_ok).trans (follows_of_forParts hd parts_ok)

theorem passes_of_forStatement {r : Statement} (h : forStatement d s = .ok r u) : s.Passes u := by
  obtain ⟨s₁, s₂, ha, ht, hh⟩ := of_forStatement h
  refine ⟨s₁, ha, (follows_of_takes ht (by decide)).trans ?_⟩
  cases hh with
  | empty next parts_ok => exact follows_of_forParts hd parts_ok
  | declaration begins declaration_ok => exact follows_of_forDeclaration hd begins declaration_ok
  | expression expression_ok => exact follows_of_forExpression hd expression_ok

omit hd in
theorem passes_of_jumpStatement {jump : Jump} {r : Statement}
    (h : jumpStatement jump s = .ok r u) : s.Passes u := by
  obtain ⟨s₁, label, ha, hl, -⟩ := of_jumpStatement h
  cases hl with
  | none ends => exact ⟨s₁, ha, follows_of_ends ends⟩
  | some label_ok ends =>
    exact ⟨s₁, ha, (follows_of_identifier label_ok).trans (follows_of_ends ends)⟩

theorem passes_of_throwStatement {r : Statement} (h : throwStatement d s = .ok r u) :
    s.Passes u := by
  obtain ⟨s₁, argument, s₂, ha, he, hs, -⟩ := of_throwStatement h
  exact ⟨s₁, ha, (follows_of_expression hd he).trans (follows_of_ends hs)⟩

theorem passes_of_catchClause {r : Node .handler} (h : catchClause d s = .ok r u) :
    s.Passes u := by
  obtain ⟨s₁, s₂, param, s₃, s₄, body, ha, ht, hp, -, ht', hb, -⟩ := of_catchClause h
  have h₂ := follows_of_takes ht (by decide)
  have h₃ := follows_of_bindingAtom hd hp
  have h₄ := follows_of_takes ht' (by decide)
  exact ⟨s₁, ha, ((h₂.trans h₃).trans h₄).trans (follows_of_block hd hb)⟩

theorem passes_of_tryStatement {r : Statement} (h : tryStatement d s = .ok r u) : s.Passes u := by
  obtain ⟨s₁, body, s₂, handler, s₃, finalizer, ha, hb, hh, hf, -⟩ := of_tryStatement h
  have h₁ := follows_of_block hd hb
  have h₂ : s₂.Follows s₃ := by
    cases hh with
    | none => exact .refl
    | some word clause_ok =>
      exact follows_of_passes (by simp [word]) (passes_of_catchClause hd clause_ok)
  cases hf with
  | none => exact ⟨s₁, ha, h₁.trans h₂⟩
  | some word block_ok =>
    have h₃ := follows_of_takes word (by decide)
    exact ⟨s₁, ha, ((h₁.trans h₂).trans h₃).trans (follows_of_block hd block_ok)⟩

theorem passes_of_labeledStatement {start : Place} {label : Identifier} {r : Statement}
    (h : labeledStatement d start label s = .ok r u) : s.Passes u := by
  obtain ⟨s₁, body, t, -, ha, hb, rfl, -⟩ := of_labeledStatement h
  have hf := follows_of_goal hd hb trivial
  exact ⟨s₁, ha, hf⟩

theorem passes_of_functionStatement {r : Statement} (h : functionStatement d s = .ok r u) :
    s.Passes u := by
  obtain ⟨s₁, f, ha, hf, -⟩ := of_functionStatement h
  exact ⟨s₁, ha, follows_of_function hd hf⟩

/-- A statement leaves its first token behind, or it begins with an expression. -/
theorem passes_of_statement {options : ParseOptions} {r : Statement}
    (h : StatementRead d options s r u) :
    (s.kind ≠ .eof ∧ s.Passes u) ∨ ∃ e t, expression d false s = .ok e t ∧ t.Follows u := by
  cases h with
  | declaration begins statement_ok =>
    exact .inl ⟨ne_eof_of_begins begins, passes_of_declarationStatement hd statement_ok⟩
  | block block_ok =>
    obtain ⟨s₁, body, ⟨hk, ha⟩, hb, -⟩ := of_block block_ok
    have hf := follows_of_goal hd hb trivial
    exact .inl ⟨by simp [hk], s₁, ha, hf⟩
  | empty word statement_ok =>
    exact .inl ⟨by simp [word], u, (of_emptyStatement statement_ok).1, .refl⟩
  | function word statement_ok =>
    exact .inl ⟨by simp [word], passes_of_functionStatement hd statement_ok⟩
  | returned word statement_ok =>
    exact .inl ⟨by simp [word], passes_of_returnStatement hd statement_ok⟩
  | conditional word statement_ok =>
    exact .inl ⟨by simp [word], passes_of_ifStatement hd statement_ok⟩
  | whileLoop word statement_ok =>
    exact .inl ⟨by simp [word], passes_of_whileStatement hd statement_ok⟩
  | forLoop word statement_ok =>
    exact .inl ⟨by simp [word], passes_of_forStatement hd statement_ok⟩
  | jump word statement_ok =>
    refine .inl ⟨?_, passes_of_jumpStatement statement_ok⟩
    rcases word with hk | hk <;> simp [hk]
  | thrown word statement_ok =>
    exact .inl ⟨by simp [word], passes_of_throwStatement hd statement_ok⟩
  | guarded word statement_ok =>
    exact .inl ⟨by simp [word], passes_of_tryStatement hd statement_ok⟩
  | expression statement_ok =>
    refine .inr ?_
    cases of_expressionStatement statement_ok with
    | labeled name label_ok colon body_ok =>
      have hf := follows_of_passes (by simp [colon]) (passes_of_labeledStatement hd body_ok)
      exact ⟨_, _, label_ok, hf⟩
    | plain value_ok ends => exact ⟨_, _, value_ok, follows_of_ends ends⟩

theorem follows_of_statement {options : ParseOptions} {r : Statement}
    (h : StatementRead d options s r u) : s.Follows u := by
  rcases passes_of_statement hd h with ⟨hk, hp⟩ | ⟨e, t, he, hf⟩
  · exact follows_of_passes hk hp
  · exact (follows_of_expression hd he).trans hf

/-- The step of the induction: one case for each kind of goal. -/
theorem traces_of_rule {options : ParseOptions} {g : Goal} {r : g.Result} (hg : g.IsBounded)
    (h : rule options d g s = .ok r u) : g.Traces s u := by
  cases g with
  | statement => exact ⟨follows_of_statement hd (of_statement h), trivial⟩
  | statements => exact traces_of_statements hd (of_statements h)
  | declarators => exact ⟨follows_of_declarators hd (of_declarators h), trivial⟩
  | assignment => exact ⟨follows_of_assignment hd (of_assignment h), trivial⟩
  | commaOperands => exact ⟨follows_of_commaOperands hd (of_commaOperands h), trivial⟩
  | unary => exact ⟨follows_of_unary hd (of_unary h), trivial⟩
  | operators => exact ⟨follows_of_operators hd (of_operators h), trivial⟩
  | primary => exact ⟨follows_of_primary hd (of_primary h), trivial⟩
  | suffixes => exact ⟨follows_of_suffixes hd (of_suffixes h), trivial⟩
  | elements => exact ⟨follows_of_elements hd hg (of_elements h), trivial⟩
  | parenthesized => exact ⟨follows_of_parenthesized hd (of_parenthesized h), trivial⟩
  | members => exact ⟨follows_of_members hd (of_members h), trivial⟩
  | chunks => exact traces_of_chunks hd (of_chunks h)
  | targets => exact ⟨follows_of_targets hd hg (of_targets h), trivial⟩
  | patternMembers => exact ⟨follows_of_patternMembers hd (of_patternMembers h), trivial⟩

end Rules

/-- Every answer to a goal follows its token stream. -/
theorem traces_of_answer {options : ParseOptions} {fuel : Nat} {g : Goal} {s u : ParseState}
    {r : g.Result} (hg : g.IsBounded) (h : answer options fuel g s = .ok r u) : g.Traces s u :=
  answer_induction (I := fun g s _ u => g.IsBounded → g.Traces s u)
    (fun _ hd _ _ _ _ h hg => traces_of_rule hd hg h) fuel g s r u h hg

end Trail

/-- An accepted text is read as its trail of tokens and leaves nothing else behind: the trail
ends without an error, and the parse ends with its tokens and hands out its comments. -/
theorem trail_of_parse {options : ParseOptions} {text : List Char} {file : File}
    (h : (parse options text).result = .ok file) :
    (TokenStream.scan text).error = none ∧
      (TokenStream.scan text).final.token.kind = .eof ∧
      (parse options text).state.stream.tokens = (TokenStream.scan text).final.tokens ∧
      file.comments = (TokenStream.scan text).final.comments.toList := by
  obtain ⟨fuel, s, body, t, ⟨stream, hr, rfl⟩, hb, -, hc, hstate⟩ := of_parse h
  obtain ⟨hf, he⟩ := Trail.traces_of_answer (g := .statements true .eof) trivial hb
  have hk : t.stream.token.kind = .eof := he rfl
  obtain ⟨herror, hfinal⟩ := TokenStream.scan_of_follows hr hf hk
  refine ⟨herror, ?_, ?_, ?_⟩
  · rw [hfinal, hk]
  · rw [hstate, hfinal]
    rfl
  · rw [hc, hfinal]

/-- The parenthesis is tried as parameters before it is read as a list, across the comment. -/
theorem trail_of_parse_parenthesis : ∃ file,
    (parse {} "(a /* c */ + b)".toList).result = .ok file ∧
      (TokenStream.scan "(a /* c */ + b)".toList).error = none ∧
      (TokenStream.scan "(a /* c */ + b)".toList).final.token.kind = .eof ∧
      (parse {} "(a /* c */ + b)".toList).state.stream.tokens =
        (TokenStream.scan "(a /* c */ + b)".toList).final.tokens ∧
      file.comments = (TokenStream.scan "(a /* c */ + b)".toList).final.comments.toList := by
  obtain ⟨file, h⟩ := exists_of_isOk (x := (parse {} "(a /* c */ + b)".toList).result)
    (by decide +kernel)
  exact ⟨file, h, trail_of_parse h⟩

end EcmaTree
