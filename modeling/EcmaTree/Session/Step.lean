import EcmaTree.Grammar

/-!
# Steps of a session

A session takes a parse apart: each step reads a token, runs one rule of the grammar,
changes the state directly, or handles copies of it. A step may hold further steps, which are
taken back after it or, in an attempt, if they fail.
-/

namespace EcmaTree

/-- A rule of the grammar that a session may run by itself. -/
inductive SessionRule where
  | file
  | statement
  | expression (noIn : Bool)
  | assignment (noIn : Bool)
  | identifier (liberal : Bool)
  | bindingAtom
  | targets (stop : TokenKind) (holes trailingComma : Bool)
  | bindingElement
  | rest
  | objectPattern
  | propertyName
  | literal
  | block (directives : Bool)
  | statements (directives : Bool) (stop : TokenKind)
  | declarators (inFor : Bool) (kind : VariableKind)
  /-- The current token stands for the word `function`. -/
  | function (isDeclaration : Bool)
  | method (generator : Bool)
  /-- An arrow function from its parenthesis on. -/
  | arrow
deriving DecidableEq, Repr, Inhabited

/-- A sequence of the state that a session may clear. -/
inductive Store where
  | labels
  | decorators
  | tokens
  | leading
  | trailing
  | finished
  | comments
deriving DecidableEq, Repr, Inhabited

/-- Flags to set; those that are not given stay. -/
structure Flags where
  strict : Option Bool
  inFunction : Option Bool
  inGenerator : Option Bool
  expressionAllowed : Option Bool
  allowReturn : Option Bool
deriving DecidableEq, Repr, Inhabited

inductive Step where
  | advance
  | read
  | sees (kind : TokenKind)
  | eat (kind : TokenKind)
  | expect (kind : TokenKind)
  | isContextual (word : String)
  | canInsertSemicolon
  | semicolon
  | peek
  | unexpected
  | raise (error : ParseError)
  | rule (r : SessionRule)
  /-- The span of a node around `count` tokens. -/
  | node (count : Nat)
  | nodeAt (span : Span)
  | set (flags : Flags)
  | pushLabel (label : Label)
  | popLabel
  | pushContext (context : Context)
  | popContext
  | pushDecorator (span : Span)
  | pushFinished (span : Span)
  | clear (store : Store)
  | takeComments
  | slice (start stop : Nat)
  | dump
  /-- Copies the state into a slot. A shared copy keeps the stored sequences. -/
  | save (slot : String) (shared : Bool)
  | load (slot : String)
  | swap (slot : String)
  | shares (slot : String)
  | show (slot : String)
  | clone
  /-- Steps that are taken back if one of them fails, or if they are told to fail in the end. -/
  | attempt (steps : List Step) (fails : Bool)
  /-- Steps that are taken back. -/
  | look (steps : List Step)
deriving Inhabited

/-- What a step answers. -/
inductive Reply where
  | nothing
  | truth (b : Bool)
  | kind (k : TokenKind)
  | context (c : Context)
  | text (chars : List Char)
  | span (s : Span)
  | file (f : File)
  | node {c : Category} (n : Node c)
  | key (k : Key)
  | comments (cs : Array Comment)
  | stores (s : ParseState)
  | state (s : ParseState)
  /-- Where the token that was reached starts, if the attempt succeeded, and its steps. -/
  | attempt (reached : Option Nat) (events : List (Reply × ParseState)) (error : Option ParseError)
  | look (events : List (Reply × ParseState)) (error : Option ParseError)
deriving Inhabited

end EcmaTree
