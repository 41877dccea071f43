import EcmaTree.Grammar.Statement

/-!
# The grammar

`answer` ties the rules together: a goal is answered by its rule, whose own goals are
answered with one less fuel. The fuel is computed from the text that is left. Every
rule either reads a token or passes to a goal further down, and no more than a few
goals are passed between two tokens, so the fuel lasts to the end of the text.
-/

namespace EcmaTree

namespace Grammar

open EcmaTree.Parser

/-- The rule of a goal. -/
def rule (options : ParseOptions) (d : Descent) : Descent
  | .statement => statement d options
  | .statements inPrologue stop => statements d inPrologue stop
  | .declarators inFor kind => declarators d inFor kind
  | .assignment noIn owned pending => assignment d noIn owned pending
  | .commaOperands noIn owned pending => commaOperands d noIn owned pending
  | .unary pending => unary d pending
  | .operators left start floor noIn => operators d left start floor noIn
  | .primary pending => primary d pending
  | .suffixes base start noCalls => suffixes d base start noCalls
  | .elements stop trailingComma holes isFirst pending =>
    elements d stop trailingComma holes isFirst pending
  | .parenthesized isFirst pending => parenthesized d isFirst pending
  | .members isFirst pending => members d isFirst pending
  | .chunks => chunks d
  | .targets stop holes trailingComma isFirst => targets d stop holes trailingComma isFirst
  | .patternMembers isFirst => patternMembers d isFirst

/-- Answers a goal with a limited depth of rules. -/
def answer (options : ParseOptions) : Nat → Descent
  | 0, _ => throw .exhausted
  | fuel + 1, goal => rule options (answer options fuel) goal

/-- More than the depth that rules can reach on the text that is left. -/
def depthBound (s : ParseState) : Nat :=
  8 * (2 * s.stream.cursor.rest.length + 4)

/-- Runs a rule of the grammar with enough fuel. -/
def run {α : Type} (options : ParseOptions) (p : Descent → Parser α) : Parser α := fun s =>
  p (answer options (depthBound s)) s

/-- A whole program, from before its first token. -/
def file (options : ParseOptions) (d : Descent) : Parser File := do
  let start ← here
  scan TokenStream.read
  let body ← d (.statements true .eof)
  let stop := (← token).span.stop
  let span := Span.closing start stop
  let comments := (← get).stream.comments
  modify fun s => { s with stream := { s.stream with comments := #[] } }
  return ⟨span, ⟨span, options.sourceType, .ofList body⟩, comments.toList⟩

/-- One expression from before its first token; what follows it is not looked at. -/
def wholeExpression (d : Descent) : Parser Expression := do
  scan TokenStream.read
  expression d false

end Grammar

/-- The outcome of reading a program, and the state it leaves behind. -/
structure Parsed where
  result : Except Stop File
  state : ParseState

/-- Parses a program. -/
def parse (options : ParseOptions) (text : List Char) : Parsed :=
  match Grammar.run options (Grammar.file options) (.ofText options text) with
  | .ok file state => ⟨.ok file, state⟩
  | .error stop state => ⟨.error stop, state⟩

/-- Parses the expression that a text begins with. -/
def parseExpression (options : ParseOptions) (text : List Char) : Except Stop Expression :=
  match Grammar.run options Grammar.wholeExpression (.ofText options text) with
  | .ok e _ => .ok e
  | .error stop _ => .error stop

end EcmaTree
