import EcmaTree.Grammar.Function

/-!
# Expressions

Operators are read by precedence climbing. What may turn out to be a target or the
parameters of an arrow function is read as an expression first and converted when the
deciding token comes. A shorthand default that is pending cuts operators short, since
only an assignment can take it up.
-/

namespace EcmaTree.Grammar

open EcmaTree.Parser

/-- An arrow function that begins where the rule around it began; no operator follows it. -/
def isArrowAt (start : Place) : Expression → Bool
  | .arrow span _ _ => span.start.offset == start.offset
  | _ => false

/-- Whether operators may not follow an operand that began at `start`. -/
def endsOperand (start : Place) (e : Expression) (pending : Pending) : Bool :=
  pending.isSome || isArrowAt start e

/-- A comma expression. -/
def expressionWith (d : Descent) (noIn owned : Bool) (pending : Pending) :
    Parser (Expression × Pending) := do
  let start ← here
  let (first, pending) ← d (.assignment noIn owned pending)
  if ← sees .comma then
    let (rest, pending) ← d (.commaOperands noIn owned pending)
    return (.sequence (← finish start) (.ofList (first :: rest)), pending)
  else return (first, pending)

/-- A comma expression in which no default stays pending. -/
def expression (d : Descent) (noIn : Bool) : Parser Expression := do
  return (← expressionWith d noIn true none).1

def commaOperands (d : Descent) (noIn owned : Bool) (pending : Pending) :
    Parser (List Expression × Pending) := do
  if ← eat .comma then
    let (first, pending) ← d (.assignment noIn owned pending)
    let (rest, pending) ← d (.commaOperands noIn owned pending)
    return (first :: rest, pending)
  else return ([], pending)

/-- The target of a compound assignment: a name or a member expression. -/
def simpleTarget (e : Expression) : Parser Pattern :=
  match e with
  | .identifier _ | .member _ _ _ _ => lift (e.toPattern false)
  | _ => fail (.notTarget false) e.span.start

/-- Checks what `++` or `--` applies to. -/
def checkUpdated (e : Expression) : Parser Unit :=
  match e with
  | .identifier id => checkTarget false (.namePattern id)
  | .member _ _ _ _ => pure ()
  | _ => fail (.notTarget false) e.span.start

/-- The spelling of the current token as an operator of a group. -/
def operatorOf {α : Type} (ofSpelling? : String → Option α) (t : Token) : Option α :=
  t.value.text?.bind ofSpelling?

def yieldExpression (d : Descent) (noIn : Bool) : Parser Expression := do
  let start ← here
  advance
  let k ← kind
  if k == .semi || (← canInsertSemicolon) || (k != .star && !k.startsExpression) then
    return .yield (← finish start) .absent false
  else
    let delegate ← eat .star
    let argument ← d.value noIn
    return .yield (← finish start) (.present argument) delegate

def unaryExpression (d : Descent) : Parser Expression := do
  let start ← here
  let t ← token
  advance
  let argument ← d.operand
  if t.kind == .incDec then
    checkUpdated argument
    match operatorOf UpdateOperator.ofSpelling? t with
    | some operator => return .update (← finish start) operator true argument
    | none => unexpected
  else
    match operatorOf UnaryOperator.ofSpelling? t with
    | some operator =>
      match operator, argument, ← strict with
      | .delete, .identifier _, true => fail .deleteOfName start
      | _, _, _ => return .unary (← finish start) operator argument
    | none => fail .unexpectedToken start

/-- Whether an operator stands right after its operand, on the same line. -/
def seesTrailing : Parser Bool := do
  return (← kind).isTrailing && !(← canInsertSemicolon)

/-- An operand with the operator after it, if there is one. A second one has no operand that it
could change. -/
def trailingUpdate (start : Place) (e : Expression) : Parser Expression := do
  if ← seesTrailing then
    checkUpdated e
    match operatorOf UpdateOperator.ofSpelling? (← token) with
    | some operator =>
      advance
      let updated : Expression := .update (← finish start) operator false e
      if ← seesTrailing then checkUpdated updated
      return updated
    | none => unexpected
  else return e

/-- A primary expression with its member accesses and calls. -/
def leftHandSide (d : Descent) (pending : Pending) : Parser (Expression × Pending) := do
  let start ← here
  let (e, pending) ← d (.primary pending)
  if endsOperand start e pending then return (e, pending)
  else return (← d (.suffixes e start false), pending)

def unary (d : Descent) (pending : Pending) : Parser (Expression × Pending) := do
  let start ← here
  if (← kind).isUnary then return (← unaryExpression d, pending)
  else
    let (e, pending) ← leftHandSide d pending
    if pending.isSome then return (e, pending)
    else return (← trailingUpdate start e, pending)

/-- Binary operators that bind tighter than `floor`, applied to `left` and what follows. -/
def operators (d : Descent) (left : Expression) (start : Place) (floor : Nat) (noIn : Bool) :
    Parser Expression := do
  let t ← token
  match t.kind.binaryStrength? with
  | none => return left
  | some strength =>
    if strength ≤ floor || (noIn && t.kind == .keyword .in) then return left
    else
      advance
      let operandStart ← here
      let operand ← d.operand
      let below := if t.kind.isRightAssociative then strength - 1 else strength
      let right ← d (.operators operand operandStart below noIn)
      let span ← finish start
      match operatorOf LogicalOperator.ofSpelling? t, operatorOf BinaryOperator.ofSpelling? t with
      | some operator, _ => d (.operators (.logical span operator left right) start floor noIn)
      | none, some operator => d (.operators (.binary span operator left right) start floor noIn)
      | none, none => fail .unexpectedToken start

def binary (d : Descent) (noIn : Bool) (pending : Pending) : Parser (Expression × Pending) := do
  let start ← here
  let (e, pending) ← d (.unary pending)
  if endsOperand start e pending then return (e, pending)
  else return (← d (.operators e start 0 noIn), pending)

def conditional (d : Descent) (noIn : Bool) (pending : Pending) :
    Parser (Expression × Pending) := do
  let start ← here
  let (test, pending) ← binary d noIn pending
  if endsOperand start test pending then return (test, pending)
  else if ← eat .question then
    let consequent ← d.value false
    expect .colon
    let alternate ← d.value noIn
    return (.conditional (← finish start) test consequent alternate, pending)
  else return (test, pending)

/-- An expression without a comma. An assignment takes up the defaults pending in its target. -/
def assignment (d : Descent) (noIn owned : Bool) (outer : Pending) :
    Parser (Expression × Pending) := do
  if (← get).scope.inGenerator && (← isContextual "yield") then
    return (← yieldExpression d noIn, outer)
  else
    let start ← here
    let k ← kind
    if k == .parenL || k == .name then
      modify fun s => { s with arrowStart := some start.offset }
    let (left, pending) ← conditional d noIn (if owned then none else outer)
    if (← kind).isAssignment then
      match operatorOf AssignmentOperator.ofSpelling? (← token) with
      | none => unexpected
      | some operator =>
        let pending := pending.filter fun place => place.offset < left.span.start.offset
        let target ←
          if operator == .assign then lift (left.toPattern false) else simpleTarget left
        checkTarget false target
        advance
        let value ← d.value noIn
        let result := .assignment (← finish start) operator target value
        return (result, if owned then none else pending)
    else
      if owned then pending.refuse
      return (left, if owned then none else pending)

/-- Suffixes of an expression. The callee of `new` takes no call. -/
def suffixes (d : Descent) (base : Expression) (start : Place) (noCalls : Bool) :
    Parser Expression := do
  if ← eat .dot then
    let name ← identifier true
    d (.suffixes (.member (← finish start) base (.identifier name) false) start noCalls)
  else if ← eat .bracketL then
    let property ← expression d false
    expect .bracketR
    d (.suffixes (.member (← finish start) base property true) start noCalls)
  else
    let isCall ← if noCalls then pure false else eat .parenL
    if isCall then
      let arguments ← callArguments
      d (.suffixes (.call (← finish start) base arguments) start noCalls)
    else return base
where
  callArguments : Parser (Node (.list .element)) := do
    let (elements, pending) ← d (.elements .parenR true false true none)
    pending.refuse
    return .ofList elements.reduceOption

/-- A spread: its span and its argument. -/
def spread (d : Descent) (pending : Pending) : Parser ((Span × Expression) × Pending) := do
  let start ← here
  advance
  let (argument, pending) ← d (.assignment false false pending)
  return ((← finish start, argument), pending)

/-- The items of a list of elements up to and with `stop`. -/
def elements (d : Descent) (stop : TokenKind) (trailingComma holes isFirst : Bool)
    (pending : Pending) : Parser (List (Option Element) × Pending) := do
  if ← eat stop then return ([], pending)
  unless isFirst do expect .comma
  let closed ← if !isFirst && trailingComma then eat stop else pure false
  if closed then return ([], pending)
  let (element, pending) ← element pending
  let (rest, pending) ← d (.elements stop trailingComma holes false pending)
  return (element :: rest, pending)
where
  element (pending : Pending) : Parser (Option Element × Pending) := do
    let isHole ← if holes then sees .comma else pure false
    if isHole then return (none, pending)
    else if ← sees .ellipsis then
      let ((span, argument), pending) ← spread d pending
      return (some (.spread span argument), pending)
    else
      let (value, pending) ← d (.assignment false false pending)
      return (some (.item value), pending)

/-- `(` parameters `)` before an arrow on the same line. -/
def arrowParameters (d : Descent) : Parser (List Pattern) := do
  expect .parenL
  let params ← parameters d
  if (← canInsertSemicolon) || (← kind) != .arrow then unexpected
  return params

/-- The items of a parenthesized list before its closing parenthesis. A rest ends the list. -/
def parenthesized (d : Descent) (isFirst : Bool) (pending : Pending) :
    Parser (List Element × Pending) := do
  if ← sees .parenR then return ([], pending)
  unless isFirst do
    expect .comma
    if ← sees .parenR then unexpected
  if ← sees .ellipsis then
    let (span, argument) ← restOfBinding
    return ([.rest span argument], pending)
  else
    let (value, pending) ← d (.assignment false false pending)
    let (rest, pending) ← d (.parenthesized false pending)
    return (.item value :: rest, pending)

/-- The expressions of a parenthesized list without a rest. -/
def expressionsOf (items : List Element) : List Expression :=
  items.filterMap fun
    | .item value => some value
    | _ => none

/-- The rest that ends a list, if it has one. -/
def restAtEnd? (items : List Element) : Option Span :=
  match items.getLast? with
  | some (.rest span _) => some span
  | _ => none

/-- A parenthesized list read as expressions. An arrow after it is an error of the list: what
arrow parameters may be has been tried before. -/
def parenthesizedExpression (d : Descent) (start : Place) (canBeArrow : Bool) :
    Parser Expression := do
  expect .parenL
  let innerStart ← here
  let (items, pending) ← d (.parenthesized true none)
  let innerEnd ← lastEnd innerStart
  expect .parenR
  let isArrow ← if canBeArrow then seesArrow else pure false
  if isArrow then
    let params := (← lift (patternsOfElements (items.map some) true)).reduceOption
    checkTargets true true params
    arrow d start params
  else
    match items, restAtEnd? items with
    | [], _ => do
      match (← get).stream.last with
      | some last => fail .unexpectedToken last.start
      | none => fail .unexpectedToken ⟨0, start.position⟩
    | _, some span => fail .unexpectedToken span.start
    | _, none => do
      pending.refuse
      match expressionsOf items with
      | [value] => return value
      | values => return .sequence (Span.closing innerStart innerEnd) (.ofList values)
where
  seesArrow : Parser Bool := do
    return !(← canInsertSemicolon) && (← kind) == .arrow

/-- What begins with a parenthesis: an arrow function where one may begin, else a list. -/
def parenthesis (d : Descent) (canBeArrow : Bool) : Parser Expression := do
  let start ← here
  let params ← if canBeArrow then attempt (arrowParameters d) else pure none
  match params with
  | some params => arrow d start params
  | none => parenthesizedExpression d start canBeArrow

/-- A name, or an arrow function whose only parameter is that name. -/
def nameOrArrow (d : Descent) (canBeArrow : Bool) : Parser Expression := do
  let start ← here
  let id ← identifier false
  if canBeArrow && !(← canInsertSemicolon) && (← kind) == .arrow then
    arrow d start [.namePattern id]
  else return .identifier id

/-- `new`, a callee without calls, and arguments if there are any. -/
def newExpression (d : Descent) : Parser Expression := do
  let start ← here
  advance
  let calleeStart ← here
  let (atom, pending) ← d (.primary none)
  pending.refuse
  let callee ← d (.suffixes atom calleeStart true)
  let arguments ← if ← eat .parenL then suffixes.callArguments d else pure .nil
  return .new (← finish start) callee arguments

/-- The chunks of a template from its first chunk up to its closing backquote. -/
def chunks (d : Descent) : Parser (List TemplateElement × List Expression) := do
  let start ← here
  let t ← token
  match t.kind, t.value with
  | .template, .template raw =>
    advance
    let tail ← sees .backQuote
    let chunk : TemplateElement := ⟨← finish start, raw, tail⟩
    if tail then return ([chunk], [])
    else
      expect .dollarBraceL
      let value ← expression d false
      expect .braceR
      let (quasis, values) ← d .chunks
      return (chunk :: quasis, value :: values)
  | _, _ => unexpected

def template (d : Descent) : Parser Expression := do
  let start ← here
  expect .backQuote
  let (quasis, values) ← d .chunks
  advance
  return .template (← finish start) quasis (.ofList values)

/-- Names that announce a getter or a setter. -/
def accessorKind? (key : Key) : Option PropertyKind :=
  match key with
  | .nameKey id =>
    if id.name == "get" then some .get else if id.name == "set" then some .set else none
  | _ => none

/-- A token that shows that a key is complete. -/
def endsKey : TokenKind → Bool
  | .comma | .colon | .parenL | .braceR | .eq => true
  | _ => false

/-- A property without a colon: the name stands for itself, and may have a default value that
only a pattern can take. -/
def shorthandProperty (d : Descent) (start : Place) (id : Identifier) (pending : Pending) :
    Parser (Member × Pending) := do
  match ← kind with
  | .comma | .braceR =>
    return (.property (← finish start) (.nameKey id) (.identifier id) .init false true, pending)
  | .eq =>
    let pending := pending.record (← here)
    advance
    let (value, pending) ← d (.assignment false false pending)
    let withDefault := .assignment (← finish start) .assign (.namePattern id) value
    return (.property (← finish start) (.nameKey id) withDefault .init false true, pending)
  | _ => unexpected

/-- One property of an object literal. -/
def property (d : Descent) (pending : Pending) : Parser (Member × Pending) := do
  let start ← here
  let generator ← eat .star
  let key ← propertyName d
  let accessor := if generator || endsKey (← kind) then none else accessorKind? key
  let key ← if accessor.isSome then propertyName d else pure key
  if generator || accessor.isSome || (← kind) == .parenL then
    let function ← method d generator
    return (.property (← finish start) key function.toExpression (accessor.getD .init)
      accessor.isNone false, pending)
  else if ← eat .colon then
    let (value, pending) ← d (.assignment false false pending)
    return (.property (← finish start) key value .init false false, pending)
  else
    match key with
    | .nameKey id => shorthandProperty d start id pending
    | _ => unexpected

/-- The members of an object literal up to and with its closing brace. -/
def members (d : Descent) (isFirst : Bool) (pending : Pending) :
    Parser (List Member × Pending) := do
  if ← eat .braceR then return ([], pending)
  unless isFirst do expect .comma
  let closed ← if isFirst then pure false else eat .braceR
  if closed then return ([], pending)
  let (member, pending) ← member pending
  let (rest, pending) ← d (.members false pending)
  return (member :: rest, pending)
where
  member (pending : Pending) : Parser (Member × Pending) := do
    if ← sees .ellipsis then
      let ((span, argument), pending) ← spread d pending
      return (.spreadMember span argument, pending)
    else property d pending

def primary (d : Descent) (pending : Pending) : Parser (Expression × Pending) := do
  let start ← here
  let canBeArrow := (← get).arrowStart == some start.offset
  match ← kind with
  | .name => return (← nameOrArrow d canBeArrow, pending)
  | .keyword .this =>
    advance
    return (.this (← finish start), pending)
  | .num | .string | .regexp | .keyword .null | .keyword .true | .keyword .false =>
    return (.literal (← literal), pending)
  | .parenL => return (← parenthesis d canBeArrow, pending)
  | .bracketL =>
    advance
    let (elements, pending) ← d (.elements .bracketR true true true pending)
    return (.array (← finish start) (.ofHoleyList elements), pending)
  | .braceL =>
    advance
    let (members, pending) ← d (.members true pending)
    return (.object (← finish start) (.ofList members), pending)
  | .keyword .function =>
    advance
    return ((← function d start false).toExpression, pending)
  | .backQuote => return (← template d, pending)
  | .keyword .new => return (← newExpression d, pending)
  | _ => unexpected

end EcmaTree.Grammar
