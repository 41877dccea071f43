import EcmaTree.Tree.Node

/-!
# Precedence of printed expressions

The place of an expression asks for a binding strength, and an expression that binds
looser is put in parentheses.
-/

namespace EcmaTree

/-- Binding strengths, weakest first. -/
inductive Precedence where
  | sequence
  | assignment
  | conditional
  | logicalOr
  | logicalAnd
  | bitwiseOr
  | bitwiseXor
  | bitwiseAnd
  | equality
  | relational
  | shift
  | additive
  | multiplicative
  | exponent
  | unary
  | trailing
  | call
  | primary
deriving DecidableEq, Repr, Inhabited

namespace Precedence

def title : Precedence → String
  | sequence => "Sequence"
  | assignment => "Assignment"
  | conditional => "Conditional"
  | logicalOr => "LogicalOr"
  | logicalAnd => "LogicalAnd"
  | bitwiseOr => "BitwiseOr"
  | bitwiseXor => "BitwiseXor"
  | bitwiseAnd => "BitwiseAnd"
  | equality => "Equality"
  | relational => "Relational"
  | shift => "Shift"
  | additive => "Additive"
  | multiplicative => "Multiplicative"
  | exponent => "Exponent"
  | unary => "Unary"
  | trailing => "Postfix"
  | call => "Call"
  | primary => "Primary"

/-- The number of weaker strengths. -/
def rank : Precedence → Nat
  | sequence => 0
  | assignment => 1
  | conditional => 2
  | logicalOr => 3
  | logicalAnd => 4
  | bitwiseOr => 5
  | bitwiseXor => 6
  | bitwiseAnd => 7
  | equality => 8
  | relational => 9
  | shift => 10
  | additive => 11
  | multiplicative => 12
  | exponent => 13
  | unary => 14
  | trailing => 15
  | call => 16
  | primary => 17

def order (p q : Precedence) : Ordering :=
  compare p.rank q.rank

/-- Whether `p` binds looser than `q`. -/
def isLooser (p q : Precedence) : Bool :=
  p.rank < q.rank

/-- The next tighter strength. -/
def tighter : Precedence → Precedence
  | sequence => assignment
  | assignment => conditional
  | conditional => logicalOr
  | logicalOr => logicalAnd
  | logicalAnd => bitwiseOr
  | bitwiseOr => bitwiseXor
  | bitwiseXor => bitwiseAnd
  | bitwiseAnd => equality
  | equality => relational
  | relational => shift
  | shift => additive
  | additive => multiplicative
  | multiplicative => exponent
  | exponent => unary
  | unary => trailing
  | trailing => call
  | call | primary => primary

def ofBinary : BinaryOperator → Precedence
  | .equal | .notEqual | .strictEqual | .strictNotEqual => equality
  | .lessThan | .lessEqual | .greaterThan | .greaterEqual | .in | .instanceof => relational
  | .shiftLeft | .shiftRight | .shiftRightUnsigned => shift
  | .add | .sub => additive
  | .mul | .div | .mod => multiplicative
  | .exp => exponent
  | .bitOr => bitwiseOr
  | .bitXor => bitwiseXor
  | .bitAnd => bitwiseAnd

def ofLogical : LogicalOperator → Precedence
  | .or => logicalOr
  | .and => logicalAnd

end Precedence

def Expression.precedence : Expression → Precedence
  | .sequence _ _ => .sequence
  | .assignment _ _ _ _ | .arrow _ _ _ | .yield _ _ _ => .assignment
  | .conditional _ _ _ _ => .conditional
  | .logical _ operator _ _ => .ofLogical operator
  | .binary _ operator _ _ => .ofBinary operator
  | .unary _ _ _ => .unary
  | .update _ _ isPrefix _ => if isPrefix then .unary else .trailing
  | .call _ _ _ | .new _ _ _ | .member _ _ _ _ => .call
  | .identifier _ | .literal _ | .this _ | .array _ _ | .object _ _ | .function _ _ _ _ _
  | .template _ _ _ => .primary

end EcmaTree
