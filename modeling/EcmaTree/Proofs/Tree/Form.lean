import EcmaTree.Proofs.Token.Spelling
import EcmaTree.Tree.Node

/-!
# The form of a node

Constructors of nodes take lists where the grammar gives at least one or two parts, optional parts
where it gives one of two, and any pattern where it gives a name. The form of a node says what the
grammar gives. It also says where directives are: they lead the body of a function and are found
nowhere else, whether statements are in a block or stand alone.
-/

namespace EcmaTree

namespace Node

/-- What a statement is marked with as a directive. -/
def mark? : Statement → Option String
  | .expressionStatement _ _ directive => directive
  | _ => none

/-- A statement that is a string literal, and with no parenthesis before the literal. -/
def isStringStatement : Statement → Bool
  | .expressionStatement span (.literal lit) _ =>
    match lit.value with
    | .string _ => lit.span.start.offset == span.start.offset
    | _ => false
  | _ => false

/-- A string literal that is marked with the text between its quotes. -/
inductive IsDirective : Statement → Prop
  | intro {span : Span} {lit : Literal} {quote : Char} {text : String}
      (string : isStringStatement (.expressionStatement span (.literal lit) (some text)) = true)
      (quotes : quote = '\x22' ∨ quote = '\x27')
      (written : lit.raw.toList = quote :: (text.toList ++ [quote])) :
      IsDirective (.expressionStatement span (.literal lit) (some text))

/-- The string literals that lead the statements are directives, and nothing else is marked. -/
inductive IsPrologue : List Statement → Prop
  | directive {x : Statement} {xs : List Statement} (head : IsDirective x)
      (tail : IsPrologue xs) : IsPrologue (x :: xs)
  | rest {xs : List Statement} (first : ∀ x ∈ xs.head?, isStringStatement x = false)
      (unmarked : ∀ x ∈ xs, mark? x = none) : IsPrologue xs

/-- No statement is marked as a directive. -/
def IsUnmarked (xs : List Statement) : Prop :=
  ∀ x ∈ xs, mark? x = none

def content : Block → List Statement
  | .block _ body => body.toList

/-- The chunks of a template around `n` expressions. Only the last one ends the template. -/
def IsInterleaved (quasis : List TemplateElement) (n : Nat) : Prop :=
  ∃ front last, quasis = front ++ [last] ∧ front.length = n ∧ (∀ q ∈ front, q.tail = false) ∧
    last.tail = true

/-- A name or a member of an object, as an expression or as a target. -/
def isReference : {c : Category} → Node c → Bool
  | _, .identifier _ | _, .member _ _ _ _ | _, .namePattern _ | _, .memberPattern _ _ _ _ => true
  | _, _ => false

/-- The declarator has a value unless it declares a name that may change. -/
def IsInitialized (kind : VariableKind) : Declarator → Prop
  | .declarator _ target .absent => kind ≠ .const ∧ Pattern.isName target = true
  | _ => True

/-- All declarators have the values that they need. -/
def IsSettled : Declaration → Prop
  | .declaration _ kind declarators => ∀ x ∈ declarators.toList, x.IsInitialized kind

/-- The form that the grammar gives to a node. -/
def HasForm : {c : Category} → Node c → Prop
  | _, .literal lit => ∀ text, lit.value = .string text → IsQuoted lit.raw.toList
  | _, .sequence _ expressions => 2 ≤ expressions.toList.length
  | _, .template _ quasis expressions => IsInterleaved quasis expressions.toList.length
  | _, .update _ _ _ argument => argument.isReference = true
  | _, .assignment _ operator target _ => operator ≠ .assign → target.isReference = true
  | _, .declaration _ _ declarators => declarators.toList ≠ []
  | _, .declarationStatement d | _, .initDeclaration d => d.IsSettled
  | _, .targetDeclaration d => ∃ span kind x, d = .declaration span kind (.cons x .nil)
  | _, .tryStatement _ body caught last =>
    (caught.toOption.isSome = true ∨ last.toOption.isSome = true) ∧
      IsUnmarked body.content ∧ ∀ b ∈ last.toOption, IsUnmarked b.content
  | _, .handler _ _ body | _, .blockStatement body => IsUnmarked body.content
  | _, .function _ _ _ body _ | _, .functionDeclaration _ _ _ body _ | _, .blockBody body =>
    IsPrologue body.content
  | _, .ifStatement _ _ consequent alternate =>
    mark? consequent = none ∧ ∀ x ∈ alternate.toOption, mark? x = none
  | _, .forStatement _ _ _ _ body | _, .forInStatement _ _ _ body | _, .forOfStatement _ _ _ body
  | _, .whileStatement _ _ body | _, .labeledStatement _ _ body => mark? body = none
  | _, _ => True

end Node

end EcmaTree
