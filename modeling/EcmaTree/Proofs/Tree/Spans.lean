import EcmaTree.Tree.Node

/-!
# The spans of a tree

Every node has a span, also where it is a part of another node: a name, a literal, a chunk of
a template. A tree can be looked at apart from its spans, and its spans can be listed, a node
before its parts.
-/

namespace EcmaTree

def Identifier.erase (id : Identifier) : Identifier :=
  { id with span := default }

def Literal.erase (lit : Literal) : Literal :=
  { lit with span := default }

def TemplateElement.erase (e : TemplateElement) : TemplateElement :=
  { e with span := default }

namespace Node

/-- A node without the places of the node and its parts. -/
def erase : {c : Category} → Node c → Node c
  | _, .identifier id => .identifier id.erase
  | _, .literal lit => .literal lit.erase
  | _, .this _ => .this default
  | _, .array _ elements => .array default (erase elements)
  | _, .object _ members => .object default (erase members)
  | _, .function _ id params body generator =>
    .function default (id.map Identifier.erase) (erase params) (erase body) generator
  | _, .arrow _ params body => .arrow default (erase params) (erase body)
  | _, .template _ quasis expressions =>
    .template default (quasis.map TemplateElement.erase) (erase expressions)
  | _, .unary _ operator argument => .unary default operator (erase argument)
  | _, .update _ operator isPrefix argument => .update default operator isPrefix (erase argument)
  | _, .binary _ operator left right => .binary default operator (erase left) (erase right)
  | _, .logical _ operator left right => .logical default operator (erase left) (erase right)
  | _, .assignment _ operator target value =>
    .assignment default operator (erase target) (erase value)
  | _, .conditional _ test consequent alternate =>
    .conditional default (erase test) (erase consequent) (erase alternate)
  | _, .call _ callee arguments => .call default (erase callee) (erase arguments)
  | _, .new _ callee arguments => .new default (erase callee) (erase arguments)
  | _, .member _ obj prop computed => .member default (erase obj) (erase prop) computed
  | _, .sequence _ expressions => .sequence default (erase expressions)
  | _, .yield _ argument delegate => .yield default (erase argument) delegate
  | _, .item value => .item (erase value)
  | _, .spread _ argument => .spread default (erase argument)
  | _, .rest _ argument => .rest default (erase argument)
  | _, .property _ key value kind method shorthand =>
    .property default (erase key) (erase value) kind method shorthand
  | _, .spreadMember _ argument => .spreadMember default (erase argument)
  | _, .nameKey id => .nameKey id.erase
  | _, .literalKey lit => .literalKey lit.erase
  | _, .computedKey value => .computedKey (erase value)
  | _, .namePattern id => .namePattern id.erase
  | _, .objectPattern _ members => .objectPattern default (erase members)
  | _, .arrayPattern _ elements => .arrayPattern default (erase elements)
  | _, .defaultPattern _ target value => .defaultPattern default (erase target) (erase value)
  | _, .restPattern _ argument => .restPattern default (erase argument)
  | _, .memberPattern _ obj prop computed =>
    .memberPattern default (erase obj) (erase prop) computed
  | _, .propertyPattern _ key value shorthand =>
    .propertyPattern default (erase key) (erase value) shorthand
  | _, .restMember _ argument => .restMember default (erase argument)
  | _, .spreadPattern _ argument => .spreadPattern default (erase argument)
  | _, .block _ body => .block default (erase body)
  | _, .blockBody b => .blockBody (erase b)
  | _, .conciseBody value => .conciseBody (erase value)
  | _, .expressionStatement _ value directive =>
    .expressionStatement default (erase value) directive
  | _, .blockStatement b => .blockStatement (erase b)
  | _, .emptyStatement _ => .emptyStatement default
  | _, .declarationStatement decl => .declarationStatement (erase decl)
  | _, .functionDeclaration _ id params body generator =>
    .functionDeclaration default (id.map Identifier.erase) (erase params) (erase body) generator
  | _, .returnStatement _ argument => .returnStatement default (erase argument)
  | _, .ifStatement _ test consequent alternate =>
    .ifStatement default (erase test) (erase consequent) (erase alternate)
  | _, .forStatement _ init test step body =>
    .forStatement default (erase init) (erase test) (erase step) (erase body)
  | _, .forInStatement _ left right body =>
    .forInStatement default (erase left) (erase right) (erase body)
  | _, .forOfStatement _ left right body =>
    .forOfStatement default (erase left) (erase right) (erase body)
  | _, .whileStatement _ test body => .whileStatement default (erase test) (erase body)
  | _, .breakStatement _ label => .breakStatement default (label.map Identifier.erase)
  | _, .continueStatement _ label => .continueStatement default (label.map Identifier.erase)
  | _, .labeledStatement _ label body => .labeledStatement default label.erase (erase body)
  | _, .throwStatement _ argument => .throwStatement default (erase argument)
  | _, .tryStatement _ b h finalizer =>
    .tryStatement default (erase b) (erase h) (erase finalizer)
  | _, .declaration _ kind declarators => .declaration default kind (erase declarators)
  | _, .declarator _ target init => .declarator default (erase target) (erase init)
  | _, .initDeclaration decl => .initDeclaration (erase decl)
  | _, .initExpression value => .initExpression (erase value)
  | _, .targetDeclaration decl => .targetDeclaration (erase decl)
  | _, .targetPattern pattern => .targetPattern (erase pattern)
  | _, .handler _ param body => .handler default (erase param) (erase body)
  | _, .nil => .nil
  | _, .cons head tail => .cons (erase head) (erase tail)
  | _, .absent => .absent
  | _, .present value => .present (erase value)

/-- The spans of a node and its parts. A list or an optional child has none of its own. -/
def spans : {c : Category} → Node c → List Span
  | _, .identifier id | _, .nameKey id | _, .namePattern id => [id.span]
  | _, .literal lit | _, .literalKey lit => [lit.span]
  | _, .this span | _, .emptyStatement span => [span]
  | _, .array span elements => span :: spans elements
  | _, .object span members => span :: spans members
  | _, .function span id params body _ | _, .functionDeclaration span id params body _ =>
    span :: (id.map Identifier.span).toList ++ spans params ++ spans body
  | _, .arrow span params body => span :: spans params ++ spans body
  | _, .template span quasis expressions =>
    span :: quasis.map TemplateElement.span ++ spans expressions
  | _, .sequence span expressions => span :: spans expressions
  | _, .unary span _ argument | _, .update span _ _ argument => span :: spans argument
  | _, .binary span _ left right | _, .logical span _ left right =>
    span :: spans left ++ spans right
  | _, .assignment span _ target value => span :: spans target ++ spans value
  | _, .conditional span test consequent alternate =>
    span :: spans test ++ spans consequent ++ spans alternate
  | _, .call span callee arguments | _, .new span callee arguments =>
    span :: spans callee ++ spans arguments
  | _, .member span obj prop _ | _, .memberPattern span obj prop _ =>
    span :: spans obj ++ spans prop
  | _, .yield span argument _ | _, .returnStatement span argument => span :: spans argument
  | _, .item value | _, .computedKey value | _, .conciseBody value | _, .initExpression value =>
    spans value
  | _, .expressionStatement span value _ => span :: spans value
  | _, .spread span argument | _, .spreadMember span argument | _, .spreadPattern span argument
  | _, .throwStatement span argument => span :: spans argument
  | _, .rest span argument | _, .restPattern span argument | _, .restMember span argument =>
    span :: spans argument
  | _, .property span key value _ _ _ => span :: spans key ++ spans value
  | _, .objectPattern span members => span :: spans members
  | _, .arrayPattern span elements => span :: spans elements
  | _, .defaultPattern span target value => span :: spans target ++ spans value
  | _, .propertyPattern span key value _ => span :: spans key ++ spans value
  | _, .block span body => span :: spans body
  | _, .blockBody b | _, .blockStatement b => spans b
  | _, .declarationStatement decl | _, .initDeclaration decl | _, .targetDeclaration decl =>
    spans decl
  | _, .ifStatement span test consequent alternate =>
    span :: spans test ++ spans consequent ++ spans alternate
  | _, .forStatement span init test step body =>
    span :: spans init ++ spans test ++ spans step ++ spans body
  | _, .forInStatement span left right body | _, .forOfStatement span left right body =>
    span :: spans left ++ spans right ++ spans body
  | _, .whileStatement span test body => span :: spans test ++ spans body
  | _, .breakStatement span label | _, .continueStatement span label =>
    span :: (label.map Identifier.span).toList
  | _, .labeledStatement span label body => span :: label.span :: spans body
  | _, .tryStatement span b h finalizer => span :: spans b ++ spans h ++ spans finalizer
  | _, .declaration span _ declarators => span :: spans declarators
  | _, .declarator span target init => span :: spans target ++ spans init
  | _, .targetPattern pattern => spans pattern
  | _, .handler span param body => span :: spans param ++ spans body
  | _, .cons head tail => spans head ++ spans tail
  | _, .present value => spans value
  | _, .nil | _, .absent => []

end Node

def Program.erase (p : Program) : Program :=
  ⟨default, p.sourceType, p.body.erase⟩

namespace File

/-- A file without places and without comments. -/
def erase (f : File) : File :=
  ⟨default, f.program.erase, []⟩

/-- The spans of a file, of its program and of all nodes. -/
def spans (f : File) : List Span :=
  f.span :: f.program.span :: f.program.body.spans

end File

end EcmaTree
