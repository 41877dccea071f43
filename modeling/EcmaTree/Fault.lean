import EcmaTree.Source.Place

/-!
# Faults

Every way in which reading a program can fail is a constructor of `Fault`, with its
kind, its number and its wording. A parse error is a fault at a place. Wordings are
templates whose numbered holes are filled from the left, one after another.
-/

namespace EcmaTree

/-- Fills the holes `{0}`, `{1}`, … of a template in turn, also those that a filling brings in. -/
def fillTemplate (template : String) (fillings : List String) : String :=
  (fillings.foldl (fun (state : Nat × String) filling =>
    (state.1 + 1, state.2.replace ("\x7b" ++ toString state.1 ++ "\x7d") filling))
    (0, template)).2

/-- How a message speaks of a target. -/
def targetVerb (isBinding : Bool) : String :=
  if isBinding then "Binding" else "Assigning to"

inductive FaultKind where
  | syntactic
  | pattern
  | target
  | strictness
deriving DecidableEq, Repr, Inhabited

inductive Jump where
  | break
  | continue
deriving DecidableEq, Repr, Inhabited

def Jump.word : Jump → String
  | .break => "break"
  | .continue => "continue"

inductive Fault where
  | unexpectedToken
  | unexpectedCharacter (c : Char)
  | unterminatedString
  | unterminatedComment
  | unterminatedRegexp
  | unterminatedTemplate
  | invalidNumber
  | nameAfterNumber
  | badEscape
  | badRegexpFlag
  | returnOutsideFunction
  | labelDeclared (name : String)
  | jumpWithoutTarget (jump : Jump)
  | missingInitializer
  | deleteOfName
  | missingHandler
  | lineBreakAfterThrow
  /-- A getter or setter in an object literal that should be a pattern. -/
  | accessorInPattern
  /-- A compound assignment where only a default value may stand. -/
  | compoundDefault
  /-- An expression of the named kind that is no pattern. -/
  | notPattern (kind : String)
  /-- A target of the wrong shape. -/
  | notTarget (isBinding : Bool)
  | memberBinding
  | restWithDefault
  | reservedName (isBinding : Bool) (name : String)
  | repeatedName
  /-- A fault that the caller words. -/
  | reported (message : String) (code : Nat)
deriving DecidableEq, Repr, Inhabited

namespace Fault

def kind : Fault → FaultKind
  | accessorInPattern | compoundDefault | notPattern _ => .pattern
  | notTarget _ | memberBinding | restWithDefault => .target
  | reservedName _ _ | repeatedName => .strictness
  | _ => .syntactic

def code : Fault → Nat
  | unexpectedToken => 1001
  | unexpectedCharacter _ => 1002
  | unterminatedString => 1003
  | unterminatedComment => 1004
  | unterminatedRegexp => 1005
  | unterminatedTemplate => 1006
  | invalidNumber | nameAfterNumber => 1007
  | badEscape => 1008
  | badRegexpFlag => 1009
  | returnOutsideFunction => 1010
  | labelDeclared _ => 1011
  | jumpWithoutTarget _ => 1012
  | missingInitializer => 1013
  | deleteOfName => 1014
  | missingHandler => 1015
  | lineBreakAfterThrow => 1016
  | accessorInPattern => 2001
  | compoundDefault => 2002
  | notPattern _ => 2003
  | notTarget _ | memberBinding => 3001
  | restWithDefault => 3002
  | reservedName _ _ => 4001
  | repeatedName => 4002
  | reported _ code => code

def message : Fault → String
  | unexpectedToken => "Unexpected token"
  | unexpectedCharacter c => fillTemplate "Unexpected character '\x7b0\x7d'" [String.singleton c]
  | unterminatedString => "Unterminated string constant"
  | unterminatedComment => "Unterminated comment"
  | unterminatedRegexp => "Unterminated regular expression"
  | unterminatedTemplate => "Unterminated template"
  | invalidNumber => "Invalid number"
  | nameAfterNumber => "Identifier directly after number"
  | badEscape => "Bad character escape sequence"
  | badRegexpFlag => "Invalid regular expression flag"
  | returnOutsideFunction => "'return' outside of function"
  | labelDeclared name => fillTemplate "Label '\x7b0\x7d' is already declared" [name]
  | jumpWithoutTarget jump => fillTemplate "Unsyntactic \x7b0\x7d" [jump.word]
  | missingInitializer => "Complex binding patterns require an initialization value"
  | deleteOfName => "Deleting local variable in strict mode"
  | missingHandler => "Missing catch or finally clause"
  | lineBreakAfterThrow => "Illegal newline after throw"
  | accessorInPattern => "Object pattern can't contain getter or setter"
  | compoundDefault => "Only '=' operator can be used for specifying default value."
  | notPattern _ => fillTemplate "\x7b0\x7d rvalue" [targetVerb false]
  | notTarget isBinding => fillTemplate "\x7b0\x7d rvalue" [targetVerb isBinding]
  | memberBinding => fillTemplate "\x7b0\x7d member expression" [targetVerb true]
  | restWithDefault => "Rest elements cannot have a default value"
  | reservedName isBinding name =>
    fillTemplate "\x7b0\x7d \x7b1\x7d in strict mode" [targetVerb isBinding, name]
  | repeatedName => "Argument name clash in strict mode"
  | reported message _ => message

/-- The kind of node that could not become a pattern. -/
def node? : Fault → Option String
  | accessorInPattern => some "Property"
  | compoundDefault => some "AssignmentExpression"
  | notPattern kind => some kind
  | _ => none

end Fault

structure ParseError where
  fault : Fault
  place : Place
deriving DecidableEq, Repr, Inhabited

/-- The message followed by its line and column. -/
def ParseError.display (e : ParseError) : String :=
  e.fault.message ++ " (" ++ e.place.position.text ++ ")"

end EcmaTree
