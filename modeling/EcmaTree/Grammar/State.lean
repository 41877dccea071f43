import EcmaTree.Target.Check
import EcmaTree.Target.Conversion
import EcmaTree.Token.Stream

/-!
# The state of a parse

Besides the token stream a parse knows its scope: whether code is strict, whether it
stands in a function or a generator, and which labels enclose it. A rule either yields
a value or stops, and leaves a state behind in both cases. It stops on a fault in the
program, or because its fuel ran out, which no attempt may hide.
-/

namespace EcmaTree

structure Label where
  /-- Loops without a label of their own count as unnamed labels. -/
  name : Option String
  isLoop : Bool
deriving DecidableEq, Repr, Inhabited

structure Scope where
  strict : Bool
  inFunction : Bool
  inGenerator : Bool
  /-- The innermost label first. -/
  labels : List Label
deriving DecidableEq, Repr, Inhabited

structure ParseState where
  stream : TokenStream
  scope : Scope
  /-- Where an expression starts that may turn out to be parameters of an arrow function. -/
  arrowStart : Option Nat
  /-- Decorators that wait for their declaration. -/
  decorators : Array Span
  /-- Finished nodes that may still take comments after them. -/
  finished : Array Span
deriving Inhabited

namespace ParseState

def ofText (options : ParseOptions) (text : List Char) : ParseState where
  stream := .ofText text
  scope := ⟨options.initialStrict, false, false, []⟩
  arrowStart := none
  decorators := #[]
  finished := #[]

end ParseState

/-- Why a rule stops. -/
inductive Stop where
  | fault (error : ParseError)
  | exhausted
deriving Inhabited

/-- A rule of the grammar. -/
abbrev Parser := EStateM Stop ParseState

namespace Parser

def fail {α : Type} (fault : Fault) (place : Place) : Parser α :=
  throw (.fault ⟨fault, place⟩)

def lift {α : Type} : Except ParseError α → Parser α
  | .ok a => pure a
  | .error e => throw (.fault e)

/-- A step of the token stream as a step of the parse. -/
def scan (step : Scan Unit) : Parser Unit := fun s =>
  match step s.stream with
  | .ok _ stream => .ok () { s with stream := stream }
  | .error e stream => .error (.fault e) { s with stream := stream }

/-- Leaves the current token behind and reads the next one. -/
def advance : Parser Unit :=
  scan TokenStream.advance

def token : Parser Token := do
  return (← get).stream.token

def kind : Parser TokenKind := do
  return (← token).kind

/-- Where the current token starts. -/
def here : Parser Place := do
  return (← token).span.start

def strict : Parser Bool := do
  return (← get).scope.strict

/-- The span of a node from `start` to the end of the previous token. -/
def finish (start : Place) : Parser Span := do
  match (← get).stream.last with
  | some last => return Span.closing start last.stop
  | none => return ⟨start, start⟩

/-- The end of the previous token, or `start` before any token. -/
def lastEnd (start : Place) : Parser Place := do
  match (← get).stream.last with
  | some last => return last.stop
  | none => return ⟨0, start.position⟩

/-- Whether the current token is of the given kind. -/
def sees (k : TokenKind) : Parser Bool := do
  return (← kind) == k

/-- Leaves the current token behind if it is of the given kind. -/
def eat (k : TokenKind) : Parser Bool := do
  if ← sees k then
    advance
    return true
  else
    return false

def unexpected {α : Type} : Parser α := do
  fail .unexpectedToken (← here)

def expect (k : TokenKind) : Parser Unit := do
  unless ← eat k do unexpected

/-- Whether the current token is the given name, which is a keyword only in its place. -/
def isContextual (word : String) : Parser Bool := do
  let t ← token
  return t.kind == .name && t.value.text? == some word

def afterLineBreak : Parser Bool := do
  return (← get).stream.afterLineBreak

/-- A semicolon may be left out at the end, before a closing brace and after a line break. -/
def canInsertSemicolon : Parser Bool := do
  let k ← kind
  return k == .eof || k == .braceR || (← afterLineBreak)

def semicolon : Parser Unit := do
  unless ← eat .semi do
    unless ← canInsertSemicolon do unexpected

/-- Tries a rule. If it fails the state is as it was; running out of fuel is no failure. -/
def attempt {α : Type} (p : Parser α) : Parser (Option α) := fun s =>
  match p s with
  | .ok a s => .ok (some a) s
  | .error (.fault _) _ => .ok none s
  | .error .exhausted s => .error .exhausted s

/-- The kind of the token after the current one; the end of input stands in for a fault. -/
def peekKind : Parser TokenKind := fun s =>
  match advance s with
  | .ok _ next => .ok next.stream.token.kind s
  | .error _ _ => .ok .eof s

/-- Runs a rule within one more label. -/
def withLabel {α : Type} (label : Label) (p : Parser α) : Parser α := fun s =>
  let pop (s : ParseState) : ParseState :=
    { s with scope := { s.scope with labels := s.scope.labels.tail } }
  match p { s with scope := { s.scope with labels := label :: s.scope.labels } } with
  | .ok a s => .ok a (pop s)
  | .error e s => .error e (pop s)

/-- Runs a rule within a function body; labels end at it, and strictness inside ends with it. -/
def withinFunction {α : Type} (generator : Bool) (p : Parser α) : Parser α := fun s =>
  match p { s with scope := ⟨s.scope.strict, true, generator, []⟩ } with
  | .ok a after => .ok a { after with scope := s.scope }
  | .error e after => .error e { after with scope := s.scope }

/-- Checks a target in the current scope without gathering names. -/
def checkTarget (isBinding : Bool) (p : Pattern) : Parser Unit := do
  lift (p.check (← strict) isBinding none).1

/-- Checks targets in order. If `distinct` their names have to differ. -/
def checkTargets (isBinding distinct : Bool) (targets : List Pattern) : Parser Unit := do
  lift (Pattern.checkAll (← strict) isBinding (if distinct then some [] else none) targets)

end Parser

end EcmaTree
