import EcmaTree.Grammar.Goal

/-!
# Names, literals and targets

Where the grammar says beforehand that a target follows, in parameter lists,
declarators and catch clauses, the target is read as a pattern from the start. A rest
gathers into a bare name and comes last.
-/

namespace EcmaTree.Grammar

open EcmaTree.Parser

/-- A name. If `liberal`, a keyword serves as well. -/
def identifier (liberal : Bool) : Parser Identifier := do
  let start ← here
  let t ← token
  match t.value with
  | .name name =>
    if t.kind == .name || (liberal && t.kind.isKeyword) then
      advance
      return ⟨← finish start, name⟩
    else unexpected
  | _ => unexpected

/-- The value of a token that is a literal. -/
def literalValue? (t : Token) : Option LiteralValue :=
  match t.kind, t.value with
  | .num, .number x => some (.number x)
  | .string, .string text => some (.string text)
  | .regexp, .regexp pattern flags => some (.regexp pattern flags)
  | .keyword .null, _ => some .null
  | .keyword .true, _ => some (.boolean true)
  | .keyword .false, _ => some (.boolean false)
  | _, _ => none

def literal : Parser Literal := do
  let start ← here
  let t ← token
  match literalValue? t with
  | some value =>
    advance
    return ⟨← finish start, value, String.ofList t.text⟩
  | none => unexpected

/-- The key of a property: in brackets, a number, a string or a name. -/
def propertyName (d : Descent) : Parser Key := do
  if ← eat .bracketL then
    let key ← d.value false
    expect .bracketR
    return .computedKey key
  else
    match ← kind with
    | .num | .string => return .literalKey (← literal)
    | _ => return .nameKey (← identifier true)

/-- A gathered rest: its span and the name. -/
def restOfBinding : Parser (Span × Pattern) := do
  let start ← here
  advance
  let id ← identifier false
  return (← finish start, .namePattern id)

def objectPattern (d : Descent) : Parser Pattern := do
  let start ← here
  expect .braceL
  let members ← d (.patternMembers true)
  return .objectPattern (← finish start) (.ofList members)

/-- A name, or a pattern in brackets or braces. -/
def bindingAtom (d : Descent) : Parser Pattern := do
  match ← kind with
  | .name => return .namePattern (← identifier false)
  | .bracketL =>
    let start ← here
    advance
    let elements ← d (.targets .bracketR true true true)
    return .arrayPattern (← finish start) (.ofHoleyList elements)
  | .braceL => objectPattern d
  | _ => unexpected

/-- A default value may follow the target that began at `start`. -/
def withDefault (d : Descent) (start : Place) (target : Pattern) : Parser Pattern := do
  if ← eat .eq then
    let value ← d.value false
    return .defaultPattern (← finish start) target value
  else return target

def bindingElement (d : Descent) : Parser Pattern := do
  let start ← here
  withDefault d start (← bindingAtom d)

/-- The items of a list of targets up to and with `stop`. -/
def targets (d : Descent) (stop : TokenKind) (holes trailingComma isFirst : Bool) :
    Parser (List (Option Pattern)) := do
  if ← eat stop then return []
  unless isFirst do expect .comma
  let isHole ← if holes then sees .comma else pure false
  if isHole then return none :: (← d (.targets stop holes trailingComma false))
  let closed ← if trailingComma then eat stop else pure false
  if closed then return []
  if ← sees .ellipsis then
    let (span, argument) ← restOfBinding
    expect stop
    return [some (.restPattern span argument)]
  let target ← bindingElement d
  return some target :: (← d (.targets stop holes trailingComma false))

/-- One property of an object pattern. -/
def patternProperty (d : Descent) : Parser PatternMember := do
  let start ← here
  let key ← propertyName d
  if ← eat .colon then
    let value ← bindingElement d
    return .propertyPattern (← finish start) key value false
  else
    match key with
    | .nameKey id =>
      let value ← withDefault d start (.namePattern id)
      return .propertyPattern (← finish start) key value true
    | _ => unexpected

/-- The members of an object pattern up to and with its closing brace. -/
def patternMembers (d : Descent) (isFirst : Bool) : Parser (List PatternMember) := do
  if ← eat .braceR then return []
  unless isFirst do expect .comma
  let closed ← if isFirst then pure false else eat .braceR
  if closed then return []
  if ← sees .ellipsis then
    let (span, argument) ← restOfBinding
    expect .braceR
    return [.restMember span argument]
  let member ← patternProperty d
  return member :: (← d (.patternMembers false))

end EcmaTree.Grammar
