import EcmaTree.Print.Ambiguity
import EcmaTree.Print.Precedence
import EcmaTree.Print.Writer

/-!
# The layout of trees

The text of a tree as pieces to write. Statements stand on lines of their own, blocks
are indented, and expressions have no more parentheses than their places ask for. An
expression is laid out for a binding strength, a declaration for a place where an `in`
operator is or is not allowed, and a list as the list of its items.
-/

namespace EcmaTree

/-- What the layout of a node is, by category. -/
@[reducible] def Layout : Category → Type
  | .expression => Precedence → List Piece
  | .declaration | .declarator => Bool → List Piece
  | .list item => List (Layout item)
  | .option item => Option (Layout item)
  | _ => List Piece

namespace Layout

def parenthesized (inner : List Piece) : List Piece :=
  .text "(" :: inner ++ [.text ")"]

/-- The text of an expression where the strength `floor` is asked for. -/
def guarded (e : Expression) (inner : List Piece) (floor : Precedence) : List Piece :=
  if e.precedence.isLooser floor then parenthesized inner else inner

def commaSeparated (items : List (List Piece)) : List Piece :=
  (items.intersperse [.text ", "]).flatten

/-- The rest of a list with holes, with a comma before each item. -/
def holeyRest : List (Option (List Piece)) → List Piece
  | [] => []
  | none :: items => .text "," :: holeyRest items
  | some item :: items => .text "," :: .text " " :: item ++ holeyRest items

/-- A list with holes; a hole at the end needs a comma of its own. -/
def holeyList : List (Option (List Piece)) → List Piece
  | [] => []
  | first :: items =>
    first.getD [] ++ holeyRest items ++
      if (items.getLast?.getD first).isNone then [.text ","] else []

/-- Members between braces. -/
def braced (members : List (List Piece)) : List Piece :=
  if members.isEmpty then [.text "\x7b\x7d"]
  else .text "\x7b " :: commaSeparated members ++ [.text " \x7d"]

def lines (statements : List (List Piece)) : List Piece :=
  statements.flatMap fun statement => statement ++ [.line]

/-- Statements between braces. -/
def blockOf (statements : List (List Piece)) : List Piece :=
  if statements.isEmpty then [.text "\x7b\x7d"]
  else [.text "\x7b", .line, .indent] ++ lines statements ++ [.dedent, .text "\x7d"]

/-- A part with text in front, or nothing. -/
def following (lead : String) : Option (List Piece) → List Piece
  | none => []
  | some part => .text lead :: part

def labelName (label : Option Identifier) : List Piece :=
  following " " (label.map fun id => [.text id.name])

/-- The chunks of a template with the expressions between them. -/
def chunks : List TemplateElement → List (List Piece) → List Piece
  | [], _ => []
  | quasi :: quasis, [] => .text quasi.raw :: chunks quasis []
  | quasi :: quasis, e :: expressions =>
    .text quasi.raw :: .text "$\x7b" :: e ++ .text "\x7d" :: chunks quasis expressions

def parameters (params : List (List Piece)) : List Piece :=
  parenthesized (commaSeparated params)

/-- The word that begins a function. -/
def functionWord (id : Option Identifier) (generator : Bool) : List Piece :=
  .text (if generator then "function*" else "function") ::
    match id with
    | some id => [.text " ", .text id.name]
    | none => if generator then [] else [.text " "]

/-- What stands before the key of a method or an accessor. -/
def methodMark (kind : PropertyKind) (generator : Bool) : List Piece :=
  match kind with
  | .get => [.text "get "]
  | .set => [.text "set "]
  | .init => if generator then [.text "*"] else []

/-- The text of a member access. -/
def access (target : Expression) (computed : Bool) (inner property : Precedence → List Piece) :
    List Piece :=
  let receiver :=
    if target.isInteger && !computed then parenthesized (inner .sequence) else inner .call
  let selector :=
    if computed then .text "[" :: property .sequence ++ [.text "]"]
    else .text "." :: property .primary
  receiver ++ selector

/-- Two operands with an operator between them. -/
def between (operator : String) (left right : List Piece) : List Piece :=
  left ++ [.text " ", .text operator, .text " "] ++ right

/-- An expression in the head of a `for`, laid out for the strength `floor`. -/
def withoutIn (e : Expression) (inner : Precedence → List Piece) (floor : Precedence) :
    List Piece :=
  if e.containsIn then parenthesized (inner .sequence) else inner floor

/-- A branch of an `if` before its `else`. -/
def beforeElse (branch : Statement) (inner : List Piece) : List Piece :=
  if branch.hasDanglingIf then
    [.text " \x7b", .line, .indent] ++ inner ++ [.line, .dedent, .text "\x7d"]
  else .text " " :: inner

def spread (argument : Precedence → List Piece) : List Piece :=
  .text "..." :: argument .assignment

/-- The layout of a property that is no method. -/
def plainProperty (key value : List Piece) (shorthand : Bool) : List Piece :=
  if shorthand then value else key ++ .text ": " :: value

end Layout

open Layout in
/-- The layout of a node. -/
def Node.layout : {c : Category} → Node c → Layout c
  | _, .identifier id => guarded (.identifier id) [.text id.name]
  | _, .literal lit => guarded (.literal lit) [.text lit.raw]
  | _, .this span => guarded (.this span) [.text "this"]
  | _, .array span elements =>
    guarded (.array span elements)
      (.text "[" :: holeyList (layout elements) ++ [.text "]"])
  | _, .object span members => guarded (.object span members) (braced (layout members))
  | _, .function span id params body generator =>
    guarded (.function span id params body generator)
      (functionWord id generator ++ parameters (layout params) ++ .text " " :: layout body)
  | _, .arrow span params body =>
    guarded (.arrow span params body)
      (parameters (layout params) ++ .text " => " :: layout body)
  | _, .template span quasis expressions =>
    guarded (.template span quasis expressions)
      (.text "\x60" :: chunks quasis ((layout expressions).map (· .sequence)) ++ [.text "\x60"])
  | _, .unary span operator argument =>
    guarded (.unary span operator argument)
      (.text operator.spelling ::
        (if operator.needsSpace argument then [.text " "] else []) ++ layout argument .unary)
  | _, .update span operator true argument =>
    guarded (.update span operator true argument)
      (.text operator.spelling :: layout argument .unary)
  | _, .update span operator false argument =>
    guarded (.update span operator false argument)
      (layout argument .call ++ [.text operator.spelling])
  | _, .binary span .exp left right =>
    guarded (.binary span .exp left right)
      (between "**" (layout left .trailing) (layout right .exponent))
  | _, .binary span operator left right =>
    guarded (.binary span operator left right)
      (between operator.spelling (layout left (.ofBinary operator))
        (layout right (Precedence.ofBinary operator).tighter))
  | _, .logical span operator left right =>
    guarded (.logical span operator left right)
      (between operator.spelling (layout left (.ofLogical operator))
        (layout right (Precedence.ofLogical operator).tighter))
  | _, .assignment span operator target value =>
    guarded (.assignment span operator target value)
      (between operator.spelling (layout target) (layout value .assignment))
  | _, .conditional span test consequent alternate =>
    guarded (.conditional span test consequent alternate)
      (layout test .logicalOr ++ .text " ? " :: layout consequent .assignment ++
        .text " : " :: layout alternate .assignment)
  | _, .call span callee arguments =>
    guarded (.call span callee arguments)
      (layout callee .call ++ parenthesized (commaSeparated (layout arguments)))
  | _, .new span callee arguments =>
    guarded (.new span callee arguments)
      (.text "new " ::
        (if callee.containsCall then parenthesized (layout callee .sequence)
         else layout callee .call) ++
        parenthesized (commaSeparated (layout arguments)))
  | _, .member span target selector computed =>
    guarded (.member span target selector computed)
      (access target computed (layout target) (layout selector))
  | _, .sequence span expressions =>
    guarded (.sequence span expressions)
      (commaSeparated ((layout expressions).map (· .assignment)))
  | _, .yield span argument delegate =>
    guarded (.yield span argument delegate)
      (.text (if delegate then "yield*" else "yield") ::
        following " " ((layout argument).map (· .assignment)))
  | _, .item value => layout value .assignment
  | _, .spread _ argument | _, .spreadMember _ argument | _, .spreadPattern _ argument =>
    Layout.spread (layout argument)
  | _, .rest _ argument | _, .restPattern _ argument | _, .restMember _ argument =>
    .text "..." :: layout argument
  | _, .property _ key (.function span id params body generator) kind method shorthand =>
    if kind != .init || method then
      methodMark kind generator ++ layout key ++ parameters (layout params) ++
        .text " " :: layout body
    else
      plainProperty (layout key)
        (layout (.function span id params body generator) .assignment) shorthand
  | _, .property _ key value _ _ shorthand =>
    plainProperty (layout key) (layout value .assignment) shorthand
  | _, .nameKey id => [.text id.name]
  | _, .literalKey lit => [.text lit.raw]
  | _, .computedKey value => .text "[" :: layout value .assignment ++ [.text "]"]
  | _, .namePattern id => [.text id.name]
  | _, .objectPattern _ members => braced (layout members)
  | _, .arrayPattern _ elements => .text "[" :: holeyList (layout elements) ++ [.text "]"]
  | _, .defaultPattern _ target value =>
    layout target ++ .text " = " :: layout value .assignment
  | _, .memberPattern _ target selector computed =>
    access target computed (layout target) (layout selector)
  | _, .propertyPattern _ key value shorthand =>
    plainProperty (layout key) (layout value) shorthand
  | _, .block _ body => blockOf (layout body)
  | _, .blockBody b => (layout b : Layout .block)
  | _, .conciseBody value =>
    if value.startsLikeStatement then parenthesized (layout value .sequence)
    else layout value .assignment
  | _, .expressionStatement _ value directive =>
    let stray := directive.isNone && Expression.isString value
    (if stray || value.startsLikeStatement then parenthesized (layout value .sequence)
     else layout value .sequence) ++ [.text ";"]
  | _, .blockStatement b => (layout b : Layout .block)
  | _, .emptyStatement _ => [.text ";"]
  | _, .declarationStatement d => layout d false ++ [.text ";"]
  | _, .functionDeclaration _ id params body generator =>
    functionWord id generator ++ parameters (layout params) ++ .text " " :: layout body
  | _, .returnStatement _ argument =>
    .text "return" :: following " " ((layout argument).map (· .sequence)) ++ [.text ";"]
  | _, .ifStatement _ test consequent .absent =>
    .text "if (" :: layout test .sequence ++ .text ")" :: .text " " :: layout consequent
  | _, .ifStatement _ test consequent (.present alternate) =>
    .text "if (" :: layout test .sequence ++ .text ")" ::
      beforeElse consequent (layout consequent) ++
      .text " else" :: .text " " :: layout alternate
  | _, .forStatement _ init test step body =>
    .text "for (" :: (layout init).getD [] ++
      .text ";" :: following " " ((layout test).map (· .sequence)) ++
      .text ";" :: following " " ((layout step).map (· .sequence)) ++
      .text ")" :: .text " " :: layout body
  | _, .forInStatement _ left right body =>
    .text "for (" :: layout left ++ .text " in " :: layout right .sequence ++
      .text ")" :: .text " " :: layout body
  | _, .forOfStatement _ left right body =>
    .text "for (" :: layout left ++ .text " of " :: layout right .assignment ++
      .text ")" :: .text " " :: layout body
  | _, .whileStatement _ test body =>
    .text "while (" :: layout test .sequence ++ .text ")" :: .text " " :: layout body
  | _, .breakStatement _ label => .text "break" :: labelName label ++ [.text ";"]
  | _, .continueStatement _ label => .text "continue" :: labelName label ++ [.text ";"]
  | _, .labeledStatement _ label body =>
    .text label.name :: .text ":" :: .text " " :: layout body
  | _, .throwStatement _ argument =>
    .text "throw " :: layout argument .sequence ++ [.text ";"]
  | _, .tryStatement _ b clause finalizer =>
    .text "try " :: layout b ++ (layout clause).getD [] ++
      following " finally " (layout finalizer)
  | _, .declaration _ kind declarators => fun noIn =>
    .text kind.word :: .text " " :: commaSeparated ((layout declarators).map (· noIn))
  | _, .declarator _ target .absent => fun _ => layout target
  | _, .declarator _ target (.present value) => fun noIn =>
    layout target ++ .text " = " ::
      if noIn then withoutIn value (layout value) .assignment else layout value .assignment
  | _, .initDeclaration d => layout d true
  | _, .initExpression value => withoutIn value (layout value) .sequence
  | _, .targetDeclaration d => layout d true
  | _, .targetPattern pattern => (layout pattern : Layout .pattern)
  | _, .handler _ param body =>
    .text " catch (" :: layout param ++ .text ") " :: layout body
  | _, .nil => []
  | _, .cons head tail => layout head :: layout tail
  | _, .absent => none
  | _, .present value => some (layout value)

end EcmaTree
