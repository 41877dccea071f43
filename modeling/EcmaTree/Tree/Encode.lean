import EcmaTree.Json
import EcmaTree.Token.Stream
import EcmaTree.Tree.Node

/-!
# Trees, tokens and comments as JSON

A node is an object that begins with its type and its place, as byte offsets and as
lines and columns, and goes on with its children in a fixed order. Absent children are
null. Only a directive that is not there leaves its field out.
-/

namespace EcmaTree

def Position.toJson (p : Position) : Json :=
  .object [("line", .nat p.line), ("column", .nat p.column)]

namespace Span

/-- The fields that tell where a node lies. -/
def fields (s : Span) : List (String × Json) :=
  [("start", .nat s.start.offset), ("end", .nat s.stop.offset),
   ("loc", .object [("start", s.start.position.toJson), ("end", s.stop.position.toJson)])]

def toJson (s : Span) : Json :=
  .object s.fields

end Span

/-- A node of a type at a place. -/
def nodeJson (type : String) (span : Span) (fields : List (String × Json)) : Json :=
  .object (("type", .string type) :: span.fields ++ fields)

def Identifier.toJson (id : Identifier) : Json :=
  nodeJson "Identifier" id.span [("name", .string id.name)]

def regexpJson (pattern flags : String) : Json :=
  .object [("pattern", .string pattern), ("flags", .string flags)]

def LiteralValue.toJson : LiteralValue → Json
  | .null => .null
  | .boolean b => .bool b
  | .number x => .float x
  | .string text => .string text
  | .regexp pattern flags => regexpJson pattern flags

def Literal.toJson (lit : Literal) : Json :=
  nodeJson "Literal" lit.span [("value", lit.value.toJson), ("raw", .string lit.raw)]

def TemplateElement.toJson (e : TemplateElement) : Json :=
  nodeJson "TemplateElement" e.span [("raw", .string e.raw), ("tail", .bool e.tail)]

def Comment.toJson (c : Comment) : Json :=
  .object ([("type", .string c.kind.name), ("value", .string c.value)] ++ c.span.fields)

def TokenValue.toJson : TokenValue → Json
  | .none => .null
  | .name text | .operator text | .string text | .template text => .string text
  | .number x => .float x
  | .regexp pattern flags => regexpJson pattern flags

def Token.toJson (t : Token) : Json :=
  .object ([("kind", .string t.kind.title), ("value", t.value.toJson)] ++ t.span.fields)

namespace Json

/-- A list with one more item in front. -/
def cons (item : Json) : Json → Json
  | .array items => .array (item :: items)
  | json => json

end Json

/-- The object of a function of any kind. -/
def functionJson (type : String) (span : Span) (id : Option Identifier) (params body : Json)
    (generator concise : Bool) : Json :=
  nodeJson type span
    [("id", Json.ofOption Identifier.toJson id), ("params", params), ("body", body),
     ("generator", .bool generator), ("expression", .bool concise)]

def Body.isConcise : Body → Bool
  | .conciseBody _ => true
  | .blockBody _ => false

def Node.toJson : {c : Category} → Node c → Json
  | _, .identifier id => id.toJson
  | _, .literal lit => lit.toJson
  | _, .this span => nodeJson "ThisExpression" span []
  | _, .array span elements =>
    nodeJson "ArrayExpression" span [("elements", toJson elements)]
  | _, .object span members => nodeJson "ObjectExpression" span [("properties", toJson members)]
  | _, .function span id params body generator =>
    functionJson "FunctionExpression" span id (toJson params) (toJson body) generator false
  | _, .arrow span params body =>
    functionJson "ArrowFunctionExpression" span none (toJson params) (toJson body) false
      (Body.isConcise body)
  | _, .template span quasis expressions =>
    nodeJson "TemplateLiteral" span
      [("quasis", .array (quasis.map TemplateElement.toJson)),
       ("expressions", toJson expressions)]
  | _, .unary span operator argument =>
    nodeJson "UnaryExpression" span
      [("operator", .string operator.spelling), ("prefix", .bool true),
       ("argument", toJson argument)]
  | _, .update span operator isPrefix argument =>
    nodeJson "UpdateExpression" span
      [("operator", .string operator.spelling), ("prefix", .bool isPrefix),
       ("argument", toJson argument)]
  | _, .binary span operator left right =>
    nodeJson "BinaryExpression" span
      [("operator", .string operator.spelling), ("left", toJson left), ("right", toJson right)]
  | _, .logical span operator left right =>
    nodeJson "LogicalExpression" span
      [("operator", .string operator.spelling), ("left", toJson left), ("right", toJson right)]
  | _, .assignment span operator target value =>
    nodeJson "AssignmentExpression" span
      [("operator", .string operator.spelling), ("left", toJson target),
       ("right", toJson value)]
  | _, .conditional span test consequent alternate =>
    nodeJson "ConditionalExpression" span
      [("test", toJson test), ("consequent", toJson consequent),
       ("alternate", toJson alternate)]
  | _, .call span callee arguments =>
    nodeJson "CallExpression" span [("callee", toJson callee), ("arguments", toJson arguments)]
  | _, .new span callee arguments =>
    nodeJson "NewExpression" span [("callee", toJson callee), ("arguments", toJson arguments)]
  | _, .member span obj prop computed | _, .memberPattern span obj prop computed =>
    nodeJson "MemberExpression" span
      [("object", toJson obj), ("property", toJson prop), ("computed", .bool computed)]
  | _, .sequence span expressions =>
    nodeJson "SequenceExpression" span [("expressions", toJson expressions)]
  | _, .yield span argument delegate =>
    nodeJson "YieldExpression" span [("argument", toJson argument), ("delegate", .bool delegate)]
  | _, .item value => toJson value
  | _, .spread span argument | _, .spreadMember span argument | _, .spreadPattern span argument =>
    nodeJson "SpreadElement" span [("argument", toJson argument)]
  | _, .rest span argument | _, .restPattern span argument | _, .restMember span argument =>
    nodeJson "RestElement" span [("argument", toJson argument)]
  | _, .property span key value kind method shorthand =>
    nodeJson "Property" span
      [("key", toJson key), ("value", toJson value), ("kind", .string kind.word),
       ("computed", .bool (Key.isComputed key)), ("method", .bool method),
       ("shorthand", .bool shorthand)]
  | _, .nameKey id => id.toJson
  | _, .literalKey lit => lit.toJson
  | _, .computedKey value => toJson value
  | _, .namePattern id => id.toJson
  | _, .objectPattern span members =>
    nodeJson "ObjectPattern" span [("properties", toJson members)]
  | _, .arrayPattern span elements =>
    nodeJson "ArrayPattern" span [("elements", toJson elements)]
  | _, .defaultPattern span target value =>
    nodeJson "AssignmentPattern" span [("left", toJson target), ("right", toJson value)]
  | _, .propertyPattern span key value shorthand =>
    nodeJson "Property" span
      [("key", toJson key), ("value", toJson value), ("computed", .bool (Key.isComputed key)),
       ("shorthand", .bool shorthand)]
  | _, .block span body => nodeJson "BlockStatement" span [("body", toJson body)]
  | _, .blockBody b => toJson b
  | _, .conciseBody value => toJson value
  | _, .expressionStatement span value directive =>
    nodeJson "ExpressionStatement" span
      (("expression", toJson value) ::
        (directive.map fun text => ("directive", Json.string text)).toList)
  | _, .blockStatement b => toJson b
  | _, .emptyStatement span => nodeJson "EmptyStatement" span []
  | _, .declarationStatement d => toJson d
  | _, .functionDeclaration span id params body generator =>
    functionJson "FunctionDeclaration" span id (toJson params) (toJson body) generator false
  | _, .returnStatement span argument =>
    nodeJson "ReturnStatement" span [("argument", toJson argument)]
  | _, .ifStatement span test consequent alternate =>
    nodeJson "IfStatement" span
      [("test", toJson test), ("consequent", toJson consequent),
       ("alternate", toJson alternate)]
  | _, .forStatement span init test step body =>
    nodeJson "ForStatement" span
      [("init", toJson init), ("test", toJson test), ("update", toJson step),
       ("body", toJson body)]
  | _, .forInStatement span left right body =>
    nodeJson "ForInStatement" span
      [("left", toJson left), ("right", toJson right), ("body", toJson body)]
  | _, .forOfStatement span left right body =>
    nodeJson "ForOfStatement" span
      [("left", toJson left), ("right", toJson right), ("body", toJson body)]
  | _, .whileStatement span test body =>
    nodeJson "WhileStatement" span [("test", toJson test), ("body", toJson body)]
  | _, .breakStatement span label =>
    nodeJson "BreakStatement" span [("label", Json.ofOption Identifier.toJson label)]
  | _, .continueStatement span label =>
    nodeJson "ContinueStatement" span [("label", Json.ofOption Identifier.toJson label)]
  | _, .labeledStatement span label body =>
    nodeJson "LabeledStatement" span [("label", label.toJson), ("body", toJson body)]
  | _, .throwStatement span argument =>
    nodeJson "ThrowStatement" span [("argument", toJson argument)]
  | _, .tryStatement span b clause finalizer =>
    nodeJson "TryStatement" span
      [("block", toJson b), ("handler", toJson clause), ("finalizer", toJson finalizer)]
  | _, .declaration span kind declarators =>
    nodeJson "VariableDeclaration" span
      [("kind", .string kind.word), ("declarations", toJson declarators)]
  | _, .declarator span target init =>
    nodeJson "VariableDeclarator" span [("id", toJson target), ("init", toJson init)]
  | _, .initDeclaration d => toJson d
  | _, .initExpression value => toJson value
  | _, .targetDeclaration d => toJson d
  | _, .targetPattern pattern => toJson pattern
  | _, .handler span param body =>
    nodeJson "CatchClause" span [("param", toJson param), ("body", toJson body)]
  | _, .nil => .array []
  | _, .cons head tail => .cons (toJson head) (toJson tail)
  | _, .absent => .null
  | _, .present value => toJson value

def Program.toJson (p : Program) : Json :=
  nodeJson "Program" p.span [("sourceType", .string p.sourceType.name), ("body", p.body.toJson)]

def File.toJson (f : File) : Json :=
  nodeJson "File" f.span
    [("program", f.program.toJson), ("comments", .array (f.comments.map Comment.toJson))]

end EcmaTree
