import EcmaTree.Tree.Node

/-!
# Where printed text could be read otherwise

Some nodes need parentheses, a space or braces beyond what precedence asks for, since
their text would be read in another way at the place where it stands.
-/

namespace EcmaTree

/-- Whether the text of an expression begins with a brace or with `function`, which would be
read as a block or a declaration at the start of a statement. -/
def Node.startsLikeStatement : {c : Category} → Node c → Bool
  | _, .object _ _ | _, .function _ _ _ _ _ | _, .objectPattern _ _ => true
  | _, .memberPattern _ target _ _ => startsLikeStatement target
  | _, .assignment _ _ target _ => startsLikeStatement target
  | _, .binary _ _ left _ | _, .logical _ _ left _ => startsLikeStatement left
  | _, .conditional _ test _ _ => startsLikeStatement test
  | _, .call _ callee _ => startsLikeStatement callee
  | _, .member _ target _ _ => startsLikeStatement target
  | _, .update _ _ false argument => startsLikeStatement argument
  | _, .sequence _ expressions => startsLikeStatement expressions
  | _, .cons first _ => startsLikeStatement first
  | _, _ => false

/-- Whether an `in` operator stands outside all brackets in the text of an expression, where
the head of a `for` would take it for its own. -/
def Node.containsIn : {c : Category} → Node c → Bool
  | _, .binary _ operator left right =>
    operator == .in || containsIn left || containsIn right
  | _, .logical _ _ left right => containsIn left || containsIn right
  | _, .assignment _ _ _ value => containsIn value
  | _, .conditional _ test consequent alternate =>
    containsIn test || containsIn consequent || containsIn alternate
  | _, .sequence _ expressions => containsIn expressions
  | _, .cons first others => containsIn first || containsIn others
  | _, .unary _ _ argument => containsIn argument
  | _, .arrow _ _ body => containsIn body
  | _, .conciseBody value => containsIn value
  | _, _ => false

/-- Whether a statement ends in an `if` without `else`, which a following `else` would join. -/
def Node.hasDanglingIf : {c : Category} → Node c → Bool
  | _, .ifStatement _ _ _ .absent => true
  | _, .ifStatement _ _ _ (.present alternate) => hasDanglingIf alternate
  | _, .forStatement _ _ _ _ body | _, .forInStatement _ _ _ body
  | _, .forOfStatement _ _ _ body | _, .whileStatement _ _ body
  | _, .labeledStatement _ _ body => hasDanglingIf body
  | _, _ => false

/-- Whether a `new` would take the arguments of a call inside its callee. -/
def Node.containsCall : {c : Category} → Node c → Bool
  | _, .call _ _ _ => true
  | _, .member _ target _ _ => containsCall target
  | _, _ => false

/-- Whether a dot after the text of an expression would be read as a decimal point. -/
def Expression.isInteger : Expression → Bool
  | .literal ⟨_, .number _, raw⟩ => raw.toList.all fun c => '0' ≤ c && c ≤ '9'
  | _ => false

/-- A string literal, which as a statement could be read as a directive. -/
def Expression.isString : Expression → Bool
  | .literal ⟨_, .string _, _⟩ => true
  | _ => false

namespace UnaryOperator

/-- Operators that are words. -/
def isWord (operator : UnaryOperator) : Bool :=
  operator.spelling.toList.all Char.isAlpha

/-- Whether the operator would fuse with the text of its argument. -/
def needsSpace (operator : UnaryOperator) (argument : Expression) : Bool :=
  operator.isWord ||
    match operator, argument with
    | .minus, .unary _ .minus _ | .plus, .unary _ .plus _ => true
    | .minus, .update _ .decrement true _ | .plus, .update _ .increment true _ => true
    | _, _ => false

end UnaryOperator

end EcmaTree
