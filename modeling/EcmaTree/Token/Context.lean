import EcmaTree.Token.Kind

/-!
# Contexts of the token reader

A stack of contexts follows braces, parentheses and templates. Together with the flag
`expressionAllowed` it decides whether a slash begins a regular expression, whether a
brace opens a block, and whether blanks count. The bottom of the stack is the block of
the whole program. The step from token to token depends on nothing but kinds and on
whether a line break stands before the token.
-/

namespace EcmaTree

inductive Context where
  /-- A brace that opens a block. -/
  | braceStatement
  /-- A brace that opens an object literal. -/
  | braceExpression
  /-- The brace of an expression in a template. -/
  | braceTemplate
  /-- A parenthesis after `if`, `for`, `with` or `while`. -/
  | parenStatement
  | parenExpression
  /-- Between the backquotes of a template. -/
  | quoteTemplate
  /-- In a function expression until its body closes. -/
  | functionExpression
deriving DecidableEq, Repr, Inhabited

namespace Context

def all : List Context :=
  [.braceStatement, .braceExpression, .braceTemplate, .parenStatement, .parenExpression,
   .quoteTemplate, .functionExpression]

def title : Context → String
  | .braceStatement => "BraceStatement"
  | .braceExpression => "BraceExpression"
  | .braceTemplate => "BraceTemplate"
  | .parenStatement => "ParenStatement"
  | .parenExpression => "ParenExpression"
  | .quoteTemplate => "QuoteTemplate"
  | .functionExpression => "FunctionExpression"

def ofTitle? (t : String) : Option Context :=
  all.find? fun c => c.title == t

def isExpression : Context → Bool
  | .braceStatement | .parenStatement => false
  | _ => true

/-- Blanks are text between backquotes. -/
def preservesSpace (c : Context) : Bool :=
  c == .quoteTemplate

end Context

/-- The stack with its top first, and whether an expression may begin. -/
structure ContextStack where
  stack : List Context
  expressionAllowed : Bool
deriving DecidableEq, Repr, Inhabited

namespace ContextStack

def initial : ContextStack :=
  ⟨[.braceStatement], true⟩

/-- The top of the stack; an empty stack counts as a block. -/
def top (c : ContextStack) : Context :=
  c.stack.headD .braceStatement

def push (c : ContextStack) (context : Context) : ContextStack :=
  ⟨context :: c.stack, true⟩

/-- Whether a brace after a token of kind `previous` opens a block. -/
def opensBlock (c : ContextStack) (previous : TokenKind) (afterLineBreak : Bool) : Bool :=
  match previous with
  | .colon =>
    match c.top with
    | .braceStatement => true
    | .braceExpression => false
    | _ => !c.expressionAllowed
  | .keyword .return => afterLineBreak
  | .keyword .else | .semi | .eof | .parenR => true
  | .braceL => c.top == .braceStatement
  | _ => !c.expressionAllowed

/-- A closing parenthesis or brace never takes the last entry by its first pop. -/
def close (c : ContextStack) : ContextStack :=
  if c.stack.length = 1 then { c with expressionAllowed := true }
  else
    let out := c.top
    let below : ContextStack := ⟨c.stack.tail, c.expressionAllowed⟩
    if out == .braceStatement && below.top == .functionExpression then
      ⟨below.stack.tail, false⟩
    else if out == .braceTemplate then { below with expressionAllowed := true }
    else { below with expressionAllowed := !out.isExpression }

/-- A closing backquote pops its template, an opening one pushes it. -/
def backQuote (c : ContextStack) : ContextStack :=
  if c.top == .quoteTemplate then ⟨c.stack.tail, false⟩ else ⟨.quoteTemplate :: c.stack, false⟩

/-- The stack after a token of the given kind. -/
def step (c : ContextStack) (previous kind : TokenKind) (afterLineBreak : Bool) : ContextStack :=
  if kind.isKeyword && previous == .dot then { c with expressionAllowed := false }
  else match kind with
  | .parenR | .braceR => c.close
  | .name => { c with expressionAllowed := false }
  | .braceL =>
    c.push (if c.opensBlock previous afterLineBreak then .braceStatement else .braceExpression)
  | .dollarBraceL => c.push .braceTemplate
  | .parenL =>
    match previous with
    | .keyword .if | .keyword .for | .keyword .with | .keyword .while => c.push .parenStatement
    | _ => c.push .parenExpression
  | .incDec => c
  | .keyword .function =>
    if c.top == .braceStatement then { c with expressionAllowed := false }
    else ⟨.functionExpression :: c.stack, false⟩
  | .backQuote => c.backQuote
  | kind => { c with expressionAllowed := kind.beforeExpression }

end ContextStack

end EcmaTree
