import EcmaTree.Proofs.Grammar.Outcome

/-!
# Expressions and targets keep the scope

A rule for an expression or a target leaves the scope as it found it, whether it succeeds or
stops. Only the body of a function is read in another scope, and the function returns to its
own.
-/

namespace EcmaTree

namespace Parser

variable {α β : Type} {p q : Parser α} {f : α → Parser β}

/-- The state at the end of a parse. -/
def endState : EStateM.Result Stop ParseState α → ParseState
  | .ok _ s => s
  | .error _ s => s

/-- However the parser ends, the scope is what it was. -/
def Keeps (p : Parser α) : Prop :=
  ∀ s, (endState (p s)).scope = s.scope

theorem Keeps.scope_eq {s u : ParseState} {a : α} (hp : Keeps p) (h : p s = .ok a u) :
    u.scope = s.scope := by
  have hkeeps := hp s
  rwa [h] at hkeeps

theorem keeps_pure {a : α} : Keeps (pure a) :=
  fun _ => rfl

theorem keeps_fail {fault : Fault} {place : Place} : Keeps (fail fault place : Parser α) :=
  fun _ => rfl

theorem keeps_unexpected : Keeps (unexpected : Parser α) :=
  fun _ => rfl

theorem keeps_lift {r : Except ParseError α} : Keeps (lift r) := by
  cases r with
  | ok a => exact keeps_pure
  | error e => exact fun _ => rfl

theorem keeps_advance : Keeps advance := by
  intro s
  unfold advance scan
  split <;> rfl

theorem keeps_refuse {pending : Pending} : Keeps pending.refuse := by
  cases pending with
  | none => exact keeps_pure
  | some place => exact keeps_fail

namespace Keeps

theorem bind (hp : Keeps p) (hf : ∀ a, Keeps (f a)) : Keeps (p >>= f) := by
  intro s
  have hkeeps := hp s
  change (endState (EStateM.bind p f s)).scope = s.scope
  unfold EStateM.bind
  cases h : p s with
  | ok a t =>
    rw [h] at hkeeps
    exact (hf a t).trans hkeeps
  | error e t =>
    rw [h] at hkeeps
    exact hkeeps

theorem map {g : α → β} (hp : Keeps p) : Keeps (g <$> p) := by
  rw [map_eq_pure_bind]
  exact hp.bind fun _ => keeps_pure

theorem ite {c : Prop} [Decidable c] (hp : Keeps p) (hq : Keeps q) :
    Keeps (if c then p else q) := by
  split
  · exact hp
  · exact hq

theorem attempt (hp : Keeps p) : Keeps (attempt p) := by
  intro s
  have hkeeps := hp s
  unfold Parser.attempt
  cases h : p s with
  | ok a t =>
    rw [h] at hkeeps
    exact hkeeps
  | error e t =>
    rw [h] at hkeeps
    cases e with
    | fault e => rfl
    | exhausted => exact hkeeps

end Keeps

theorem keeps_withinFunction {generator : Bool} : Keeps (withinFunction generator p) := by
  intro s
  unfold withinFunction
  split <;> rfl

theorem keeps_token : Keeps token :=
  fun _ => rfl

theorem keeps_kind : Keeps kind :=
  fun _ => rfl

theorem keeps_here : Keeps here :=
  fun _ => rfl

theorem keeps_get : Keeps (get : Parser ParseState) :=
  fun _ => rfl

theorem keeps_strict : Keeps strict :=
  fun _ => rfl

theorem keeps_afterLineBreak : Keeps afterLineBreak :=
  fun _ => rfl

theorem keeps_sees {k : TokenKind} : Keeps (sees k) :=
  fun _ => rfl

theorem keeps_isContextual {word : String} : Keeps (isContextual word) :=
  fun _ => rfl

theorem keeps_finish {start : Place} : Keeps (finish start) := by
  refine keeps_get.bind fun s => ?_
  split <;> exact keeps_pure

theorem keeps_lastEnd {start : Place} : Keeps (lastEnd start) := by
  refine keeps_get.bind fun s => ?_
  split <;> exact keeps_pure

theorem keeps_canInsertSemicolon : Keeps canInsertSemicolon :=
  keeps_kind.bind fun _ => keeps_afterLineBreak.bind fun _ => keeps_pure

theorem keeps_eat {k : TokenKind} : Keeps (eat k) :=
  keeps_sees.bind fun _ => .ite (keeps_advance.bind fun _ => keeps_pure) keeps_pure

theorem keeps_expect {k : TokenKind} : Keeps (expect k) :=
  keeps_eat.bind fun _ => .ite keeps_pure keeps_unexpected

theorem keeps_checkTarget {isBinding : Bool} {p : Pattern} : Keeps (checkTarget isBinding p) :=
  keeps_strict.bind fun _ => keeps_lift

theorem keeps_checkTargets {isBinding distinct : Bool} {targets : List Pattern} :
    Keeps (checkTargets isBinding distinct targets) :=
  keeps_strict.bind fun _ => keeps_lift

end Parser

/-- The goals for statements; a directive among them may change the scope. -/
def Goal.IsStatement : Goal → Prop
  | .statement | .statements _ _ | .declarators _ _ => True
  | _ => False

namespace Scope

open EcmaTree.Parser EcmaTree.Grammar

theorem keeps_identifier {liberal : Bool} : Keeps (identifier liberal) := by
  refine keeps_here.bind fun _ => keeps_token.bind fun t => ?_
  split
  · refine .ite ?_ keeps_unexpected
    exact keeps_advance.bind fun _ => keeps_finish.bind fun _ => keeps_pure
  · exact keeps_unexpected

theorem keeps_literal : Keeps literal := by
  refine keeps_here.bind fun _ => keeps_token.bind fun t => ?_
  split
  · exact keeps_advance.bind fun _ => keeps_finish.bind fun _ => keeps_pure
  · exact keeps_unexpected

theorem keeps_restOfBinding : Keeps restOfBinding := by
  refine keeps_here.bind fun _ => keeps_advance.bind fun _ => keeps_identifier.bind fun _ => ?_
  exact keeps_finish.bind fun _ => keeps_pure

theorem keeps_functionBody {α : Type} {id : Option Identifier} {params : List Pattern}
    {generator arrow : Bool} {body : Parser α} :
    Keeps (functionBody id params generator arrow body) :=
  keeps_withinFunction

theorem keeps_simpleTarget {e : Expression} : Keeps (simpleTarget e) := by
  unfold simpleTarget
  split
  · exact keeps_lift
  · exact keeps_lift
  · exact keeps_fail

theorem keeps_checkUpdated {e : Expression} : Keeps (checkUpdated e) := by
  unfold checkUpdated
  split
  · exact keeps_checkTarget
  · exact keeps_pure
  · exact keeps_fail

theorem keeps_seesTrailing : Keeps seesTrailing :=
  keeps_kind.bind fun _ => keeps_canInsertSemicolon.bind fun _ => keeps_pure

theorem keeps_trailingUpdate {start : Place} {e : Expression} : Keeps (trailingUpdate start e) := by
  unfold trailingUpdate
  refine keeps_seesTrailing.bind fun _ => .ite (keeps_checkUpdated.bind fun _ => ?_) keeps_pure
  refine keeps_token.bind fun t => ?_
  split
  · refine keeps_advance.bind fun _ => keeps_finish.bind fun _ => ?_
    refine keeps_seesTrailing.bind fun _ => ?_
    exact .ite (keeps_checkUpdated.bind fun _ => keeps_pure) keeps_pure
  · exact keeps_unexpected

section Rules

/- The answers that a rule for an expression or a target depends on keep the scope. -/
variable {d : Descent} (hd : ∀ g, ¬g.IsStatement → Keeps (d g))

include hd

theorem keeps_value {noIn : Bool} : Keeps (d.value noIn) :=
  (hd _ id).bind fun _ => keeps_pure

theorem keeps_operand : Keeps d.operand :=
  (hd _ id).bind fun _ => keeps_refuse.bind fun _ => keeps_pure

theorem keeps_propertyName : Keeps (propertyName d) := by
  refine keeps_eat.bind fun _ => .ite ?_ (keeps_kind.bind fun k => ?_)
  · exact (keeps_value hd).bind fun _ => keeps_expect.bind fun _ => keeps_pure
  · split
    · exact keeps_literal.bind fun _ => keeps_pure
    · exact keeps_literal.bind fun _ => keeps_pure
    · exact keeps_identifier.bind fun _ => keeps_pure

theorem keeps_bindingAtom : Keeps (bindingAtom d) := by
  refine keeps_kind.bind fun k => ?_
  split
  · exact keeps_identifier.bind fun _ => keeps_pure
  · refine keeps_here.bind fun _ => keeps_advance.bind fun _ => (hd _ id).bind fun _ => ?_
    exact keeps_finish.bind fun _ => keeps_pure
  · refine keeps_here.bind fun _ => keeps_expect.bind fun _ => (hd _ id).bind fun _ => ?_
    exact keeps_finish.bind fun _ => keeps_pure
  · exact keeps_unexpected

theorem keeps_withDefault {start : Place} {target : Pattern} :
    Keeps (withDefault d start target) := by
  refine keeps_eat.bind fun _ => .ite ((keeps_value hd).bind fun _ => ?_) keeps_pure
  exact keeps_finish.bind fun _ => keeps_pure

theorem keeps_bindingElement : Keeps (bindingElement d) :=
  keeps_here.bind fun _ => (keeps_bindingAtom hd).bind fun _ => keeps_withDefault hd

theorem keeps_targets {stop : TokenKind} {holes trailingComma isFirst : Bool} :
    Keeps (targets d stop holes trailingComma isFirst) := by
  simp only [targets, ite_bind, unless_bind]
  refine keeps_eat.bind fun _ => .ite keeps_pure (.bind (.ite keeps_pure keeps_expect) fun _ => ?_)
  refine .bind (.ite keeps_sees keeps_pure) fun _ => .ite ((hd _ id).bind fun _ => keeps_pure) ?_
  refine .bind (.ite keeps_eat keeps_pure) fun _ => .ite keeps_pure ?_
  refine keeps_sees.bind fun _ => .ite ?_ ?_
  · exact keeps_restOfBinding.bind fun _ => keeps_expect.bind fun _ => keeps_pure
  · exact (keeps_bindingElement hd).bind fun _ => (hd _ id).bind fun _ => keeps_pure

theorem keeps_patternProperty : Keeps (patternProperty d) := by
  refine keeps_here.bind fun _ => (keeps_propertyName hd).bind fun key => keeps_eat.bind fun _ => ?_
  refine .ite ?_ ?_
  · exact (keeps_bindingElement hd).bind fun _ => keeps_finish.bind fun _ => keeps_pure
  · split
    · exact (keeps_withDefault hd).bind fun _ => keeps_finish.bind fun _ => keeps_pure
    · exact keeps_unexpected

theorem keeps_patternMembers {isFirst : Bool} : Keeps (patternMembers d isFirst) := by
  simp only [patternMembers, ite_bind, unless_bind]
  refine keeps_eat.bind fun _ => .ite keeps_pure (.bind (.ite keeps_pure keeps_expect) fun _ => ?_)
  refine .bind (.ite keeps_pure keeps_eat) fun _ => .ite keeps_pure ?_
  refine keeps_sees.bind fun _ => .ite ?_ ?_
  · exact keeps_restOfBinding.bind fun _ => keeps_expect.bind fun _ => keeps_pure
  · exact (keeps_patternProperty hd).bind fun _ => (hd _ id).bind fun _ => keeps_pure

theorem keeps_parameters : Keeps (parameters d) :=
  (hd _ id).bind fun _ => keeps_pure

theorem keeps_function {start : Place} {isDeclaration : Bool} :
    Keeps (function d start isDeclaration) := by
  simp only [function, ite_bind]
  refine keeps_eat.bind fun _ => .bind (.ite keeps_pure keeps_sees) fun _ => ?_
  refine .bind (.ite keeps_identifier.map keeps_pure) fun _ => keeps_expect.bind fun _ => ?_
  refine (keeps_parameters hd).bind fun _ => keeps_functionBody.bind fun _ => ?_
  exact keeps_finish.bind fun _ => keeps_pure

theorem keeps_method {generator : Bool} : Keeps (method d generator) := by
  refine keeps_here.bind fun _ => keeps_expect.bind fun _ => (keeps_parameters hd).bind fun _ => ?_
  exact keeps_functionBody.bind fun _ => keeps_finish.bind fun _ => keeps_pure

omit hd in
theorem keeps_arrow {start : Place} {params : List Pattern} : Keeps (arrow d start params) :=
  keeps_expect.bind fun _ => keeps_functionBody.bind fun _ => keeps_finish.bind fun _ => keeps_pure

theorem keeps_expressionWith {noIn owned : Bool} {pending : Pending} :
    Keeps (expressionWith d noIn owned pending) := by
  refine keeps_here.bind fun _ => (hd _ id).bind fun _ => ?_
  refine keeps_sees.bind fun _ => .ite ?_ keeps_pure
  exact (hd _ id).bind fun _ => keeps_finish.bind fun _ => keeps_pure

theorem keeps_expression {noIn : Bool} : Keeps (expression d noIn) :=
  (keeps_expressionWith hd).bind fun _ => keeps_pure

theorem keeps_commaOperands {noIn owned : Bool} {pending : Pending} :
    Keeps (commaOperands d noIn owned pending) := by
  refine keeps_eat.bind fun _ => .ite ?_ keeps_pure
  exact (hd _ id).bind fun _ => (hd _ id).bind fun _ => keeps_pure

theorem keeps_yieldExpression {noIn : Bool} : Keeps (yieldExpression d noIn) := by
  refine keeps_here.bind fun _ => keeps_advance.bind fun _ => keeps_kind.bind fun _ => ?_
  refine keeps_canInsertSemicolon.bind fun _ => .ite (keeps_finish.bind fun _ => keeps_pure) ?_
  refine keeps_eat.bind fun _ => (keeps_value hd).bind fun _ => ?_
  exact keeps_finish.bind fun _ => keeps_pure

theorem keeps_unaryExpression : Keeps (unaryExpression d) := by
  refine keeps_here.bind fun _ => keeps_token.bind fun t => keeps_advance.bind fun _ => ?_
  refine (keeps_operand hd).bind fun _ => .ite (keeps_checkUpdated.bind fun _ => ?_) ?_
  · split
    · exact keeps_finish.bind fun _ => keeps_pure
    · exact keeps_unexpected
  · split
    · refine keeps_strict.bind fun _ => ?_
      split
      · exact keeps_fail
      · exact keeps_finish.bind fun _ => keeps_pure
    · exact keeps_fail

theorem keeps_leftHandSide {pending : Pending} : Keeps (leftHandSide d pending) := by
  refine keeps_here.bind fun _ => (hd _ id).bind fun _ => .ite keeps_pure ?_
  exact (hd _ id).bind fun _ => keeps_pure

theorem keeps_unary {pending : Pending} : Keeps (unary d pending) := by
  refine keeps_here.bind fun _ => keeps_kind.bind fun _ => .ite ?_ ?_
  · exact (keeps_unaryExpression hd).bind fun _ => keeps_pure
  · refine (keeps_leftHandSide hd).bind fun _ => .ite keeps_pure ?_
    exact keeps_trailingUpdate.bind fun _ => keeps_pure

theorem keeps_operators {left : Expression} {start : Place} {floor : Nat} {noIn : Bool} :
    Keeps (operators d left start floor noIn) := by
  refine keeps_token.bind fun t => ?_
  split
  · exact keeps_pure
  · refine .ite keeps_pure (keeps_advance.bind fun _ => keeps_here.bind fun _ => ?_)
    refine (keeps_operand hd).bind fun _ => (hd _ id).bind fun _ => keeps_finish.bind fun _ => ?_
    split
    · exact hd _ id
    · exact hd _ id
    · exact keeps_fail

theorem keeps_conditional {noIn : Bool} {pending : Pending} :
    Keeps (conditional d noIn pending) := by
  have hbinary : Keeps (binary d noIn pending) := by
    refine keeps_here.bind fun _ => (hd _ id).bind fun _ => .ite keeps_pure ?_
    exact (hd _ id).bind fun _ => keeps_pure
  refine keeps_here.bind fun _ => hbinary.bind fun _ => .ite keeps_pure ?_
  refine keeps_eat.bind fun _ => .ite ((keeps_value hd).bind fun _ => ?_) keeps_pure
  refine keeps_expect.bind fun _ => (keeps_value hd).bind fun _ => ?_
  exact keeps_finish.bind fun _ => keeps_pure

theorem keeps_assignment {noIn owned : Bool} {outer : Pending} :
    Keeps (assignment d noIn owned outer) := by
  simp only [assignment, ite_bind, when_bind]
  refine keeps_get.bind fun _ => keeps_isContextual.bind fun _ => .ite ?_ ?_
  · exact (keeps_yieldExpression hd).bind fun _ => keeps_pure
  refine keeps_here.bind fun _ => keeps_kind.bind fun _ => ?_
  refine .bind (.ite (fun _ => rfl) keeps_pure) fun _ => (keeps_conditional hd).bind fun _ => ?_
  refine keeps_kind.bind fun _ => .ite (keeps_token.bind fun _ => ?_) ?_
  · split
    · exact keeps_unexpected
    · refine .bind (.ite keeps_lift keeps_simpleTarget) fun _ => keeps_checkTarget.bind fun _ => ?_
      refine keeps_advance.bind fun _ => (keeps_value hd).bind fun _ => ?_
      exact keeps_finish.bind fun _ => keeps_pure
  · exact .bind (.ite keeps_refuse keeps_pure) fun _ => keeps_pure

theorem keeps_callArguments : Keeps (suffixes.callArguments d) :=
  (hd _ id).bind fun _ => keeps_refuse.bind fun _ => keeps_pure

theorem keeps_suffixes {base : Expression} {start : Place} {noCalls : Bool} :
    Keeps (suffixes d base start noCalls) := by
  simp only [suffixes, ite_bind]
  refine keeps_eat.bind fun _ => .ite ?_ (keeps_eat.bind fun _ => .ite ?_ ?_)
  · exact keeps_identifier.bind fun _ => keeps_finish.bind fun _ => hd _ id
  · refine (keeps_expression hd).bind fun _ => keeps_expect.bind fun _ => ?_
    exact keeps_finish.bind fun _ => hd _ id
  · refine .bind (.ite keeps_pure keeps_eat) fun _ => .ite ?_ keeps_pure
    exact (keeps_callArguments hd).bind fun _ => keeps_finish.bind fun _ => hd _ id

theorem keeps_spread {pending : Pending} : Keeps (spread d pending) := by
  refine keeps_here.bind fun _ => keeps_advance.bind fun _ => (hd _ id).bind fun _ => ?_
  exact keeps_finish.bind fun _ => keeps_pure

theorem keeps_elements {stop : TokenKind} {trailingComma holes isFirst : Bool} {pending : Pending} :
    Keeps (elements d stop trailingComma holes isFirst pending) := by
  have helement : Keeps (elements.element d holes pending) := by
    simp only [elements.element, ite_bind]
    refine .bind (.ite keeps_sees keeps_pure) fun _ => .ite keeps_pure ?_
    refine keeps_sees.bind fun _ => .ite ?_ ?_
    · exact (keeps_spread hd).bind fun _ => keeps_pure
    · exact (hd _ id).bind fun _ => keeps_pure
  simp only [elements, ite_bind, unless_bind]
  refine keeps_eat.bind fun _ => .ite keeps_pure (.bind (.ite keeps_pure keeps_expect) fun _ => ?_)
  refine .bind (.ite keeps_eat keeps_pure) fun _ => .ite keeps_pure ?_
  exact helement.bind fun _ => (hd _ id).bind fun _ => keeps_pure

theorem keeps_parenthesized {isFirst : Bool} {pending : Pending} :
    Keeps (parenthesized d isFirst pending) := by
  unfold parenthesized
  refine keeps_sees.bind fun _ => .ite keeps_pure ?_
  extract_lets item
  have hitem : ∀ u, Keeps (item u) := by
    intro u
    refine keeps_sees.bind fun _ => .ite (keeps_restOfBinding.bind fun _ => keeps_pure) ?_
    exact (hd _ id).bind fun _ => (hd _ id).bind fun _ => keeps_pure
  refine .ite (hitem ()) (keeps_expect.bind fun _ => keeps_sees.bind fun _ => ?_)
  exact .ite (keeps_unexpected.bind hitem) (hitem ())

theorem keeps_parenthesizedExpression {start : Place} {canBeArrow : Bool} :
    Keeps (parenthesizedExpression d start canBeArrow) := by
  simp only [parenthesizedExpression, ite_bind]
  refine keeps_expect.bind fun _ => keeps_here.bind fun _ => (hd _ id).bind fun _ => ?_
  refine keeps_lastEnd.bind fun _ => keeps_expect.bind fun _ => ?_
  have hsees : Keeps parenthesizedExpression.seesArrow :=
    keeps_canInsertSemicolon.bind fun _ => keeps_kind.bind fun _ => keeps_pure
  refine .bind (.ite hsees keeps_pure) fun _ => .ite ?_ ?_
  · exact keeps_lift.bind fun _ => keeps_checkTargets.bind fun _ => keeps_arrow
  · split
    · refine keeps_get.bind fun _ => ?_
      split <;> exact keeps_fail
    · exact keeps_fail
    · refine keeps_refuse.bind fun _ => ?_
      split <;> exact keeps_pure

theorem keeps_parenthesis {canBeArrow : Bool} : Keeps (parenthesis d canBeArrow) := by
  have hparameters : Keeps (arrowParameters d) := by
    refine keeps_expect.bind fun _ => (keeps_parameters hd).bind fun _ => ?_
    refine keeps_canInsertSemicolon.bind fun _ => keeps_kind.bind fun _ => ?_
    exact .ite (keeps_unexpected.bind fun _ => keeps_pure) keeps_pure
  simp only [parenthesis, ite_bind]
  refine keeps_here.bind fun _ => .bind (.ite hparameters.attempt keeps_pure) fun _ => ?_
  split
  · exact keeps_arrow
  · exact keeps_parenthesizedExpression hd

omit hd in
theorem keeps_nameOrArrow {canBeArrow : Bool} : Keeps (nameOrArrow d canBeArrow) := by
  refine keeps_here.bind fun _ => keeps_identifier.bind fun _ => ?_
  refine keeps_canInsertSemicolon.bind fun _ => keeps_kind.bind fun _ => ?_
  exact .ite keeps_arrow keeps_pure

theorem keeps_newExpression : Keeps (newExpression d) := by
  simp only [newExpression, ite_bind]
  refine keeps_here.bind fun _ => keeps_advance.bind fun _ => keeps_here.bind fun _ => ?_
  refine (hd _ id).bind fun _ => keeps_refuse.bind fun _ => (hd _ id).bind fun _ => ?_
  refine keeps_eat.bind fun _ => .bind (.ite (keeps_callArguments hd) keeps_pure) fun _ => ?_
  exact keeps_finish.bind fun _ => keeps_pure

theorem keeps_chunks : Keeps (chunks d) := by
  refine keeps_here.bind fun _ => keeps_token.bind fun t => ?_
  split
  · refine keeps_advance.bind fun _ => keeps_sees.bind fun _ => keeps_finish.bind fun _ => ?_
    refine .ite keeps_pure (keeps_expect.bind fun _ => (keeps_expression hd).bind fun _ => ?_)
    exact keeps_expect.bind fun _ => (hd _ id).bind fun _ => keeps_pure
  · exact keeps_unexpected

theorem keeps_template : Keeps (template d) := by
  refine keeps_here.bind fun _ => keeps_expect.bind fun _ => (hd _ id).bind fun _ => ?_
  exact keeps_advance.bind fun _ => keeps_finish.bind fun _ => keeps_pure

theorem keeps_shorthandProperty {start : Place} {id' : Identifier} {pending : Pending} :
    Keeps (shorthandProperty d start id' pending) := by
  refine keeps_kind.bind fun k => ?_
  split
  · exact keeps_finish.bind fun _ => keeps_pure
  · exact keeps_finish.bind fun _ => keeps_pure
  · refine keeps_here.bind fun _ => keeps_advance.bind fun _ => (hd _ id).bind fun _ => ?_
    exact keeps_finish.bind fun _ => keeps_finish.bind fun _ => keeps_pure
  · exact keeps_unexpected

theorem keeps_property {pending : Pending} : Keeps (property d pending) := by
  simp only [property, ite_bind]
  refine keeps_here.bind fun _ => keeps_eat.bind fun _ => (keeps_propertyName hd).bind fun _ => ?_
  refine keeps_kind.bind fun _ => .bind (.ite (keeps_propertyName hd) keeps_pure) fun _ => ?_
  refine keeps_kind.bind fun _ => .ite ?_ (keeps_eat.bind fun _ => .ite ?_ ?_)
  · exact (keeps_method hd).bind fun _ => keeps_finish.bind fun _ => keeps_pure
  · exact (hd _ id).bind fun _ => keeps_finish.bind fun _ => keeps_pure
  · split
    · exact keeps_shorthandProperty hd
    · exact keeps_unexpected

theorem keeps_members {isFirst : Bool} {pending : Pending} : Keeps (members d isFirst pending) := by
  have hmember : Keeps (members.member d pending) :=
    keeps_sees.bind fun _ => .ite ((keeps_spread hd).bind fun _ => keeps_pure) (keeps_property hd)
  simp only [members, ite_bind, unless_bind]
  refine keeps_eat.bind fun _ => .ite keeps_pure (.bind (.ite keeps_pure keeps_expect) fun _ => ?_)
  refine .bind (.ite keeps_pure keeps_eat) fun _ => .ite keeps_pure ?_
  exact hmember.bind fun _ => (hd _ id).bind fun _ => keeps_pure

theorem keeps_primary {pending : Pending} : Keeps (primary d pending) := by
  refine keeps_here.bind fun _ => keeps_get.bind fun _ => keeps_kind.bind fun k => ?_
  split
  · exact keeps_nameOrArrow.bind fun _ => keeps_pure
  · exact keeps_advance.bind fun _ => keeps_finish.bind fun _ => keeps_pure
  · exact keeps_literal.bind fun _ => keeps_pure
  · exact keeps_literal.bind fun _ => keeps_pure
  · exact keeps_literal.bind fun _ => keeps_pure
  · exact keeps_literal.bind fun _ => keeps_pure
  · exact keeps_literal.bind fun _ => keeps_pure
  · exact keeps_literal.bind fun _ => keeps_pure
  · exact (keeps_parenthesis hd).bind fun _ => keeps_pure
  · refine keeps_advance.bind fun _ => (hd _ id).bind fun _ => ?_
    exact keeps_finish.bind fun _ => keeps_pure
  · refine keeps_advance.bind fun _ => (hd _ id).bind fun _ => ?_
    exact keeps_finish.bind fun _ => keeps_pure
  · exact keeps_advance.bind fun _ => (keeps_function hd).bind fun _ => keeps_pure
  · exact (keeps_template hd).bind fun _ => keeps_pure
  · exact (keeps_newExpression hd).bind fun _ => keeps_pure
  · exact keeps_unexpected

/-- The step of the induction: one case for each kind of goal. -/
theorem keeps_rule {options : ParseOptions} {g : Goal} (hg : ¬g.IsStatement) :
    Keeps (rule options d g) := by
  cases g with
  | statement | statements | declarators => exact absurd trivial hg
  | assignment => exact keeps_assignment hd
  | commaOperands => exact keeps_commaOperands hd
  | unary => exact keeps_unary hd
  | operators => exact keeps_operators hd
  | primary => exact keeps_primary hd
  | suffixes => exact keeps_suffixes hd
  | elements => exact keeps_elements hd
  | parenthesized => exact keeps_parenthesized hd
  | members => exact keeps_members hd
  | chunks => exact keeps_chunks hd
  | targets => exact keeps_targets hd
  | patternMembers => exact keeps_patternMembers hd

end Rules

end Scope

end EcmaTree
