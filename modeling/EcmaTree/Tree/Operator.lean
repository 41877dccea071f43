/-!
# Operators

The operators of expressions by group. Each has a spelling, and within its group a
spelling names one operator.
-/

namespace EcmaTree

inductive UnaryOperator where
  | minus | plus | not | bitNot | typeof | void | delete
deriving DecidableEq, Repr, Inhabited

namespace UnaryOperator

def all : List UnaryOperator :=
  [.minus, .plus, .not, .bitNot, .typeof, .void, .delete]

def spelling : UnaryOperator → String
  | .minus => "-"
  | .plus => "+"
  | .not => "!"
  | .bitNot => "~"
  | .typeof => "typeof"
  | .void => "void"
  | .delete => "delete"

def title : UnaryOperator → String
  | .minus => "Minus"
  | .plus => "Plus"
  | .not => "Not"
  | .bitNot => "BitNot"
  | .typeof => "Typeof"
  | .void => "Void"
  | .delete => "Delete"

def ofSpelling? (s : String) : Option UnaryOperator :=
  all.find? fun op => op.spelling == s

end UnaryOperator

inductive UpdateOperator where
  | increment | decrement
deriving DecidableEq, Repr, Inhabited

namespace UpdateOperator

def all : List UpdateOperator :=
  [.increment, .decrement]

def spelling : UpdateOperator → String
  | .increment => "++"
  | .decrement => "--"

def title : UpdateOperator → String
  | .increment => "Increment"
  | .decrement => "Decrement"

def ofSpelling? (s : String) : Option UpdateOperator :=
  all.find? fun op => op.spelling == s

end UpdateOperator

inductive BinaryOperator where
  | equal | notEqual | strictEqual | strictNotEqual
  | lessThan | lessEqual | greaterThan | greaterEqual
  | shiftLeft | shiftRight | shiftRightUnsigned
  | add | sub | mul | div | mod | exp
  | bitOr | bitXor | bitAnd | in | instanceof
deriving DecidableEq, Repr, Inhabited

namespace BinaryOperator

def all : List BinaryOperator :=
  [.equal, .notEqual, .strictEqual, .strictNotEqual, .lessThan, .lessEqual, .greaterThan,
   .greaterEqual, .shiftLeft, .shiftRight, .shiftRightUnsigned, .add, .sub, .mul, .div,
   .mod, .exp, .bitOr, .bitXor, .bitAnd, .in, .instanceof]

def spelling : BinaryOperator → String
  | .equal => "=="
  | .notEqual => "!="
  | .strictEqual => "==="
  | .strictNotEqual => "!=="
  | .lessThan => "<"
  | .lessEqual => "<="
  | .greaterThan => ">"
  | .greaterEqual => ">="
  | .shiftLeft => "<<"
  | .shiftRight => ">>"
  | .shiftRightUnsigned => ">>>"
  | .add => "+"
  | .sub => "-"
  | .mul => "*"
  | .div => "/"
  | .mod => "%"
  | .exp => "**"
  | .bitOr => "|"
  | .bitXor => "^"
  | .bitAnd => "&"
  | .in => "in"
  | .instanceof => "instanceof"

def title : BinaryOperator → String
  | .equal => "Equal"
  | .notEqual => "NotEqual"
  | .strictEqual => "StrictEqual"
  | .strictNotEqual => "StrictNotEqual"
  | .lessThan => "LessThan"
  | .lessEqual => "LessEqual"
  | .greaterThan => "GreaterThan"
  | .greaterEqual => "GreaterEqual"
  | .shiftLeft => "ShiftLeft"
  | .shiftRight => "ShiftRight"
  | .shiftRightUnsigned => "ShiftRightUnsigned"
  | .add => "Add"
  | .sub => "Sub"
  | .mul => "Mul"
  | .div => "Div"
  | .mod => "Mod"
  | .exp => "Exp"
  | .bitOr => "BitOr"
  | .bitXor => "BitXor"
  | .bitAnd => "BitAnd"
  | .in => "In"
  | .instanceof => "Instanceof"

def ofSpelling? (s : String) : Option BinaryOperator :=
  all.find? fun op => op.spelling == s

end BinaryOperator

inductive LogicalOperator where
  | or | and
deriving DecidableEq, Repr, Inhabited

namespace LogicalOperator

def all : List LogicalOperator :=
  [.or, .and]

def spelling : LogicalOperator → String
  | .or => "||"
  | .and => "&&"

def title : LogicalOperator → String
  | .or => "Or"
  | .and => "And"

def ofSpelling? (s : String) : Option LogicalOperator :=
  all.find? fun op => op.spelling == s

end LogicalOperator

inductive AssignmentOperator where
  | assign
  | addAssign | subAssign | mulAssign | divAssign | modAssign | expAssign
  | shlAssign | shrAssign | ushrAssign
  | bitOrAssign | bitXorAssign | bitAndAssign
deriving DecidableEq, Repr, Inhabited

namespace AssignmentOperator

def all : List AssignmentOperator :=
  [.assign, .addAssign, .subAssign, .mulAssign, .divAssign, .modAssign, .expAssign,
   .shlAssign, .shrAssign, .ushrAssign, .bitOrAssign, .bitXorAssign, .bitAndAssign]

def spelling : AssignmentOperator → String
  | .assign => "="
  | .addAssign => "+="
  | .subAssign => "-="
  | .mulAssign => "*="
  | .divAssign => "/="
  | .modAssign => "%="
  | .expAssign => "**="
  | .shlAssign => "<<="
  | .shrAssign => ">>="
  | .ushrAssign => ">>>="
  | .bitOrAssign => "|="
  | .bitXorAssign => "^="
  | .bitAndAssign => "&="

def title : AssignmentOperator → String
  | .assign => "Assign"
  | .addAssign => "AddAssign"
  | .subAssign => "SubAssign"
  | .mulAssign => "MulAssign"
  | .divAssign => "DivAssign"
  | .modAssign => "ModAssign"
  | .expAssign => "ExpAssign"
  | .shlAssign => "ShlAssign"
  | .shrAssign => "ShrAssign"
  | .ushrAssign => "UShrAssign"
  | .bitOrAssign => "BitOrAssign"
  | .bitXorAssign => "BitXorAssign"
  | .bitAndAssign => "BitAndAssign"

def ofSpelling? (s : String) : Option AssignmentOperator :=
  all.find? fun op => op.spelling == s

end AssignmentOperator

end EcmaTree
