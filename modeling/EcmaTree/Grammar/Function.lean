import EcmaTree.Grammar.Binding

/-!
# Functions

A function body opens a scope of its own. Its parameters are checked after the body,
because a directive in the body may turn strict mode on. Their names have to differ
in strict code, in arrow functions, and where a parameter is not a bare name.
-/

namespace EcmaTree.Grammar

open EcmaTree.Parser

/-- A block in braces; with directives it is a function body. -/
def block (d : Descent) (directives : Bool) : Parser Block := do
  let start ← here
  expect .braceL
  let body ← d (.statements directives .braceR)
  return .block (← finish start) (.ofList body)

/-- Parameters after their opening parenthesis. -/
def parameters (d : Descent) : Parser (List Pattern) := do
  return (← d (.targets .parenR false false true)).reduceOption

/-- A body in the scope of its function, followed by the check of what the function binds. -/
def functionBody {α : Type} (id : Option Identifier) (params : List Pattern)
    (generator arrow : Bool) (body : Parser α) : Parser α :=
  withinFunction generator do
    let result ← body
    let strict ← strict
    match strict, id with
    | true, some id => checkTarget true (.namePattern id)
    | _, _ => pure ()
    checkTargets true (arrow || strict || !params.all Pattern.isName) params
    return result

/-- The parts of a function that is not an arrow function. -/
structure FunctionParts where
  span : Span
  id : Option Identifier
  params : List Pattern
  body : Block
  generator : Bool

namespace FunctionParts

def toExpression (f : FunctionParts) : Expression :=
  .function f.span f.id (.ofList f.params) f.body f.generator

def toDeclaration (f : FunctionParts) : Statement :=
  .functionDeclaration f.span f.id (.ofList f.params) f.body f.generator

end FunctionParts

/-- A function after its keyword. A declaration has to have a name. -/
def function (d : Descent) (start : Place) (isDeclaration : Bool) : Parser FunctionParts := do
  let generator ← eat .star
  let named ← if isDeclaration then pure true else sees .name
  let id ← if named then some <$> identifier false else pure none
  expect .parenL
  let params ← parameters d
  let body ← functionBody id params generator false (block d true)
  return ⟨← finish start, id, params, body, generator⟩

/-- A method of an object literal, from its parameters on. -/
def method (d : Descent) (generator : Bool) : Parser FunctionParts := do
  let start ← here
  expect .parenL
  let params ← parameters d
  let body ← functionBody none params generator false (block d true)
  return ⟨← finish start, none, params, body, generator⟩

/-- The body of an arrow function: a block or an expression. -/
def arrowBody (d : Descent) : Parser Body := do
  if ← sees .braceL then return .blockBody (← block d true)
  else return .conciseBody (← d.value false)

/-- An arrow function from its arrow on. -/
def arrow (d : Descent) (start : Place) (params : List Pattern) : Parser Expression := do
  expect .arrow
  let body ← functionBody none params false true (arrowBody d)
  return .arrow (← finish start) (.ofList params) body

end EcmaTree.Grammar
