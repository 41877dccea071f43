import EcmaTree.Options
import EcmaTree.Source.Comment
import EcmaTree.Tree.Operator

/-!
# Syntax trees

One family of trees covers all kinds of nodes, indexed by the category of the node, so
a child of the wrong category cannot be built and a traversal is one recursive
function. Lists and optional children are categories as well. Expressions and patterns
are different categories: a literal that turns out to be a target is converted.
-/

namespace EcmaTree

structure Identifier where
  span : Span
  name : String
deriving DecidableEq, Repr, Inhabited

inductive LiteralValue where
  | null
  | boolean (b : Bool)
  | number (x : Float)
  | string (text : String)
  | regexp (pattern flags : String)
deriving Inhabited

structure Literal where
  span : Span
  value : LiteralValue
  /-- The literal as written. -/
  raw : String
deriving Inhabited

/-- A chunk of text of a template. -/
structure TemplateElement where
  span : Span
  raw : String
  /-- The chunk ends the template. -/
  tail : Bool
deriving DecidableEq, Repr, Inhabited

/-- What a property of an object literal does. -/
inductive PropertyKind where
  | init
  | get
  | set
deriving DecidableEq, Repr, Inhabited

def PropertyKind.word : PropertyKind → String
  | .init => "init"
  | .get => "get"
  | .set => "set"

inductive VariableKind where
  | var
  | let
  | const
deriving DecidableEq, Repr, Inhabited

def VariableKind.word : VariableKind → String
  | .var => "var"
  | .let => "let"
  | .const => "const"

inductive Category where
  | expression
  /-- An item of an array literal or of an argument list. -/
  | element
  /-- A member of an object literal. -/
  | member
  | key
  | pattern
  | patternMember
  | block
  /-- The body of an arrow function. -/
  | body
  | statement
  | declaration
  | declarator
  /-- The first part of a `for` head. -/
  | forInit
  /-- The left part of a `for`-`in` or `for`-`of` head. -/
  | forTarget
  | handler
  | list (item : Category)
  | option (item : Category)
deriving DecidableEq, Repr, Inhabited

inductive Node : Category → Type where
  | identifier (id : Identifier) : Node .expression
  | literal (lit : Literal) : Node .expression
  | this (span : Span) : Node .expression
  /-- An absent element is a hole. -/
  | array (span : Span) (elements : Node (.list (.option .element))) : Node .expression
  | object (span : Span) (members : Node (.list .member)) : Node .expression
  | function (span : Span) (id : Option Identifier) (params : Node (.list .pattern))
      (body : Node .block) (generator : Bool) : Node .expression
  | arrow (span : Span) (params : Node (.list .pattern)) (body : Node .body) : Node .expression
  | template (span : Span) (quasis : List TemplateElement)
      (expressions : Node (.list .expression)) : Node .expression
  | unary (span : Span) (operator : UnaryOperator) (argument : Node .expression) :
      Node .expression
  | update (span : Span) (operator : UpdateOperator) (isPrefix : Bool)
      (argument : Node .expression) : Node .expression
  | binary (span : Span) (operator : BinaryOperator) (left right : Node .expression) :
      Node .expression
  | logical (span : Span) (operator : LogicalOperator) (left right : Node .expression) :
      Node .expression
  | assignment (span : Span) (operator : AssignmentOperator) (target : Node .pattern)
      (value : Node .expression) : Node .expression
  | conditional (span : Span) (test consequent alternate : Node .expression) : Node .expression
  | call (span : Span) (callee : Node .expression) (arguments : Node (.list .element)) :
      Node .expression
  | new (span : Span) (callee : Node .expression) (arguments : Node (.list .element)) :
      Node .expression
  | member (span : Span) (object property : Node .expression) (computed : Bool) :
      Node .expression
  | sequence (span : Span) (expressions : Node (.list .expression)) : Node .expression
  | yield (span : Span) (argument : Node (.option .expression)) (delegate : Bool) :
      Node .expression
  | item (value : Node .expression) : Node .element
  | spread (span : Span) (argument : Node .expression) : Node .element
  | rest (span : Span) (argument : Node .pattern) : Node .element
  | property (span : Span) (key : Node .key) (value : Node .expression) (kind : PropertyKind)
      (method shorthand : Bool) : Node .member
  | spreadMember (span : Span) (argument : Node .expression) : Node .member
  | nameKey (id : Identifier) : Node .key
  | literalKey (lit : Literal) : Node .key
  | computedKey (value : Node .expression) : Node .key
  | namePattern (id : Identifier) : Node .pattern
  | objectPattern (span : Span) (members : Node (.list .patternMember)) : Node .pattern
  | arrayPattern (span : Span) (elements : Node (.list (.option .pattern))) : Node .pattern
  | defaultPattern (span : Span) (target : Node .pattern) (value : Node .expression) :
      Node .pattern
  | restPattern (span : Span) (argument : Node .pattern) : Node .pattern
  | memberPattern (span : Span) (object property : Node .expression) (computed : Bool) :
      Node .pattern
  | propertyPattern (span : Span) (key : Node .key) (value : Node .pattern) (shorthand : Bool) :
      Node .patternMember
  | restMember (span : Span) (argument : Node .pattern) : Node .patternMember
  /-- A spread of an object literal, which the conversion keeps as it is. -/
  | spreadPattern (span : Span) (argument : Node .expression) : Node .patternMember
  | block (span : Span) (body : Node (.list .statement)) : Node .block
  | blockBody (block : Node .block) : Node .body
  | conciseBody (value : Node .expression) : Node .body
  | expressionStatement (span : Span) (value : Node .expression) (directive : Option String) :
      Node .statement
  | blockStatement (block : Node .block) : Node .statement
  | emptyStatement (span : Span) : Node .statement
  | declarationStatement (declaration : Node .declaration) : Node .statement
  | functionDeclaration (span : Span) (id : Option Identifier) (params : Node (.list .pattern))
      (body : Node .block) (generator : Bool) : Node .statement
  | returnStatement (span : Span) (argument : Node (.option .expression)) : Node .statement
  | ifStatement (span : Span) (test : Node .expression) (consequent : Node .statement)
      (alternate : Node (.option .statement)) : Node .statement
  | forStatement (span : Span) (init : Node (.option .forInit))
      (test update : Node (.option .expression)) (body : Node .statement) : Node .statement
  | forInStatement (span : Span) (left : Node .forTarget) (right : Node .expression)
      (body : Node .statement) : Node .statement
  | forOfStatement (span : Span) (left : Node .forTarget) (right : Node .expression)
      (body : Node .statement) : Node .statement
  | whileStatement (span : Span) (test : Node .expression) (body : Node .statement) :
      Node .statement
  | breakStatement (span : Span) (label : Option Identifier) : Node .statement
  | continueStatement (span : Span) (label : Option Identifier) : Node .statement
  | labeledStatement (span : Span) (label : Identifier) (body : Node .statement) :
      Node .statement
  | throwStatement (span : Span) (argument : Node .expression) : Node .statement
  | tryStatement (span : Span) (block : Node .block) (handler : Node (.option .handler))
      (finalizer : Node (.option .block)) : Node .statement
  | declaration (span : Span) (kind : VariableKind) (declarators : Node (.list .declarator)) :
      Node .declaration
  | declarator (span : Span) (target : Node .pattern) (init : Node (.option .expression)) :
      Node .declarator
  | initDeclaration (declaration : Node .declaration) : Node .forInit
  | initExpression (value : Node .expression) : Node .forInit
  | targetDeclaration (declaration : Node .declaration) : Node .forTarget
  | targetPattern (pattern : Node .pattern) : Node .forTarget
  | handler (span : Span) (param : Node .pattern) (body : Node .block) : Node .handler
  | nil {c : Category} : Node (.list c)
  | cons {c : Category} (head : Node c) (tail : Node (.list c)) : Node (.list c)
  | absent {c : Category} : Node (.option c)
  | present {c : Category} (value : Node c) : Node (.option c)

abbrev Expression := Node .expression
abbrev Element := Node .element
abbrev Member := Node .member
abbrev Key := Node .key
abbrev Pattern := Node .pattern
abbrev PatternMember := Node .patternMember
abbrev Block := Node .block
abbrev Body := Node .body
abbrev Statement := Node .statement
abbrev Declaration := Node .declaration
abbrev Declarator := Node .declarator

instance : Inhabited Expression := ⟨.this default⟩
instance : Inhabited Pattern := ⟨.namePattern default⟩
instance : Inhabited Statement := ⟨.emptyStatement default⟩

namespace Node

variable {c : Category}

def ofList : List (Node c) → Node (.list c)
  | [] => .nil
  | x :: xs => .cons x (ofList xs)

def ofOption : Option (Node c) → Node (.option c)
  | none => .absent
  | some x => .present x

/-- A list whose items may be absent. -/
def ofHoleyList (xs : List (Option (Node c))) : Node (.list (.option c)) :=
  ofList (xs.map ofOption)

/-- What a node of a category lists. -/
def Listed : Category → Type
  | .list c => Node c
  | _ => Empty

/-- The items of a node, if it is a list. -/
def items : {c : Category} → Node c → List (Listed c)
  | _, .cons x xs => x :: items xs
  | _, _ => []

def toList (xs : Node (.list c)) : List (Node c) :=
  items xs

def toOption : Node (.option c) → Option (Node c)
  | .absent => none
  | .present x => some x

theorem toList_ofList (xs : List (Node c)) : (ofList xs).toList = xs := by
  induction xs with
  | nil => rfl
  | cons x xs ih => exact congrArg (x :: ·) ih

theorem ofList_toList : ∀ xs : Node (.list c), ofList xs.toList = xs
  | .nil => rfl
  | .cons x xs => congrArg (Node.cons x) (ofList_toList xs)

theorem toOption_ofOption (x : Option (Node c)) : (ofOption x).toOption = x := by
  cases x <;> rfl

end Node

/-- Where a node lies. A list or an optional child has no place of its own. -/
def Node.span : {c : Category} → Node c → Span
  | _, .identifier id => id.span
  | _, .literal lit => lit.span
  | _, .this span | _, .array span _ | _, .object span _ | _, .function span _ _ _ _
  | _, .arrow span _ _ | _, .template span _ _ | _, .unary span _ _ | _, .update span _ _ _
  | _, .binary span _ _ _ | _, .logical span _ _ _ | _, .assignment span _ _ _
  | _, .conditional span _ _ _ | _, .call span _ _ | _, .new span _ _ | _, .member span _ _ _
  | _, .sequence span _ | _, .yield span _ _ => span
  | _, .item value => span value
  | _, .spread span _ | _, .rest span _ | _, .property span _ _ _ _ _ | _, .spreadMember span _ =>
    span
  | _, .nameKey id => id.span
  | _, .literalKey lit => lit.span
  | _, .computedKey value => span value
  | _, .namePattern id => id.span
  | _, .objectPattern span _ | _, .arrayPattern span _ | _, .defaultPattern span _ _
  | _, .restPattern span _ | _, .memberPattern span _ _ _ | _, .propertyPattern span _ _ _
  | _, .restMember span _ | _, .spreadPattern span _ | _, .block span _ => span
  | _, .blockBody b => span b
  | _, .conciseBody value => span value
  | _, .blockStatement b => span b
  | _, .declarationStatement d => span d
  | _, .expressionStatement span _ _ | _, .emptyStatement span
  | _, .functionDeclaration span _ _ _ _ | _, .returnStatement span _ | _, .ifStatement span _ _ _
  | _, .forStatement span _ _ _ _ | _, .forInStatement span _ _ _ | _, .forOfStatement span _ _ _
  | _, .whileStatement span _ _ | _, .breakStatement span _ | _, .continueStatement span _
  | _, .labeledStatement span _ _ | _, .throwStatement span _ | _, .tryStatement span _ _ _
  | _, .declaration span _ _ | _, .declarator span _ _ | _, .handler span _ _ => span
  | _, .initDeclaration d => span d
  | _, .initExpression value => span value
  | _, .targetDeclaration d => span d
  | _, .targetPattern pattern => span pattern
  | _, .nil | _, .cons _ _ | _, .absent | _, .present _ => default

/-- The name of the kind of an expression. -/
def Expression.kindName : Expression → String
  | .identifier _ => "Identifier"
  | .literal _ => "Literal"
  | .this _ => "ThisExpression"
  | .array _ _ => "ArrayExpression"
  | .object _ _ => "ObjectExpression"
  | .function _ _ _ _ _ => "FunctionExpression"
  | .arrow _ _ _ => "ArrowFunctionExpression"
  | .template _ _ _ => "TemplateLiteral"
  | .unary _ _ _ => "UnaryExpression"
  | .update _ _ _ _ => "UpdateExpression"
  | .binary _ _ _ _ => "BinaryExpression"
  | .logical _ _ _ _ => "LogicalExpression"
  | .assignment _ _ _ _ => "AssignmentExpression"
  | .conditional _ _ _ _ => "ConditionalExpression"
  | .call _ _ _ => "CallExpression"
  | .new _ _ _ => "NewExpression"
  | .member _ _ _ _ => "MemberExpression"
  | .sequence _ _ => "SequenceExpression"
  | .yield _ _ _ => "YieldExpression"

/-- The name of the kind of a pattern. -/
def Pattern.kindName : Pattern → String
  | .namePattern _ => "Identifier"
  | .objectPattern _ _ => "ObjectPattern"
  | .arrayPattern _ _ => "ArrayPattern"
  | .defaultPattern _ _ _ => "AssignmentPattern"
  | .restPattern _ _ => "RestElement"
  | .memberPattern _ _ _ _ => "MemberExpression"

/-- A bare name. -/
def Pattern.isName : Pattern → Bool
  | .namePattern _ => true
  | _ => false

def Key.isComputed : Key → Bool
  | .computedKey _ => true
  | _ => false

structure Program where
  span : Span
  sourceType : SourceType
  body : Node (.list .statement)

structure File where
  span : Span
  program : Program
  comments : List Comment

end EcmaTree
