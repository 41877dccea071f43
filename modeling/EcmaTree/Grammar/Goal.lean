import EcmaTree.Grammar.State

/-!
# Goals of the grammar

A goal is a question that rules ask each other: read a statement, the rest of a list,
the operators after an operand. A rule is written over a `Descent`, which answers the
goals it depends on, so each rule is a plain definition and the recursion through the
grammar is tied in one place.
-/

namespace EcmaTree

/-- The first shorthand default, such as `{a = 1}`, in an expression that may still become a
pattern. If it does not, that place is unexpected. -/
abbrev Pending := Option Place

inductive Goal where
  | statement
  /-- Statements up to a token of kind `stop`. -/
  | statements (inPrologue : Bool) (stop : TokenKind)
  /-- Declarators, of which one more has to follow. -/
  | declarators (inFor : Bool) (kind : VariableKind)
  /-- An expression without a comma. If `owned`, a pending default is refused here; else it is
  handed on, together with the one that was handed in. -/
  | assignment (noIn owned : Bool) (pending : Pending)
  /-- The operands after the first one of a comma expression. -/
  | commaOperands (noIn owned : Bool) (pending : Pending)
  | unary (pending : Pending)
  /-- Binary operators that bind tighter than `floor`, after an operand. -/
  | operators (left : Expression) (start : Place) (floor : Nat) (noIn : Bool)
  | primary (pending : Pending)
  /-- Member accesses and calls after an expression. -/
  | suffixes (base : Expression) (start : Place) (noCalls : Bool)
  /-- The rest of a list of elements up to `stop`. -/
  | elements (stop : TokenKind) (trailingComma holes isFirst : Bool) (pending : Pending)
  /-- The rest of a parenthesized list, whose last item may gather the rest. -/
  | parenthesized (isFirst : Bool) (pending : Pending)
  | members (isFirst : Bool) (pending : Pending)
  /-- The chunks of a template and the expressions between them. -/
  | chunks
  /-- The rest of a list of targets up to `stop`. -/
  | targets (stop : TokenKind) (holes trailingComma isFirst : Bool)
  | patternMembers (isFirst : Bool)

/-- What answers a goal. -/
@[reducible]
def Goal.Result : Goal → Type
  | .statement => Statement
  | .statements _ _ => List Statement
  | .declarators _ _ => List Declarator
  | .assignment _ _ _ => Expression × Pending
  | .commaOperands _ _ _ => List Expression × Pending
  | .unary _ => Expression × Pending
  | .operators _ _ _ _ => Expression
  | .primary _ => Expression × Pending
  | .suffixes _ _ _ => Expression
  | .elements _ _ _ _ _ => List (Option Element) × Pending
  | .parenthesized _ _ => List Element × Pending
  | .members _ _ => List Member × Pending
  | .chunks => List TemplateElement × List Expression
  | .targets _ _ _ _ => List (Option Pattern)
  | .patternMembers _ => List PatternMember

/-- Answers to all goals. -/
abbrev Descent := (g : Goal) → Parser g.Result

namespace Pending

/-- Records a default, unless an earlier one is pending. -/
def record (pending : Pending) (place : Place) : Pending :=
  match pending with
  | some first => some first
  | none => some place

/-- Refuses a pending default. -/
def refuse (pending : Pending) : Parser Unit :=
  match pending with
  | some place => Parser.fail .unexpectedToken place
  | none => pure ()

end Pending

namespace Descent

/-- An expression without a comma, in which no default stays pending. -/
def value (d : Descent) (noIn : Bool) : Parser Expression := do
  return (← d (.assignment noIn true none)).1

/-- An operand whose own pending default is refused. -/
def operand (d : Descent) : Parser Expression := do
  let (e, pending) ← d (.unary none)
  pending.refuse
  return e

end Descent

end EcmaTree
