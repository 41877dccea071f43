import EcmaTree.Grammar.Expression

/-!
# Statements

Statements follow one another up to a closing brace or the end of input. Leading
string literals are directives where a program or a function body begins. Jumps look
for their target among the labels in scope: a loop for an unlabeled jump and for
`continue`, any statement of that label for `break`.
-/

namespace EcmaTree.Grammar

open EcmaTree.Parser

/-- The text between the quotes of a string literal as written. -/
def unquoted (raw : String) : String :=
  String.ofList (raw.toList.drop 1).dropLast

/-- The directive a statement is, if it is a string literal without parentheses. -/
def directive? : Statement → Option String
  | .expressionStatement span (.literal lit) _ =>
    match lit.value with
    | .string _ =>
      if lit.span.start.offset == span.start.offset then some (unquoted lit.raw) else none
    | _ => none
  | _ => none

/-- A statement marked as the directive it is. -/
def markDirective (text : String) : Statement → Statement
  | .expressionStatement span value _ => .expressionStatement span value (some text)
  | statement => statement

/-- Turns strict mode on after the directive for it. -/
def obeyDirective (text : String) : Parser Unit :=
  modify fun s =>
    if text == "use strict" then { s with scope := { s.scope with strict := true } } else s

/-- Statements up to a token of kind `stop`, which is left behind unless it is the end. -/
def statements (d : Descent) (inPrologue : Bool) (stop : TokenKind) : Parser (List Statement) := do
  if ← sees stop then
    unless stop == .eof do advance
    return []
  else if ← sees .eof then unexpected
  else
    let statement ← d .statement
    match inPrologue, directive? statement with
    | true, some text =>
      obeyDirective text
      let rest ← d (.statements true stop)
      return markDirective text statement :: rest
    | _, _ =>
      let rest ← d (.statements false stop)
      return statement :: rest

/-- A target without a value: only a bare name may have none, and a constant may not, outside
the head of a `for`-`in` or `for`-`of`. -/
def checkUninitialized (inFor : Bool) (kind : VariableKind) (target : Pattern) : Parser Unit := do
  let inHead := inFor && ((← sees (.keyword .in)) || (← isContextual "of"))
  if !inHead then
    if kind == .const then unexpected
    unless target.isName do fail .missingInitializer (← lastEnd (← here))

def declarator (d : Descent) (inFor : Bool) (kind : VariableKind) : Parser Declarator := do
  let start ← here
  let target ← bindingAtom d
  checkTarget true target
  if ← eat .eq then
    let init ← d.value inFor
    return .declarator (← finish start) target (.present init)
  else
    checkUninitialized inFor kind target
    return .declarator (← finish start) target .absent

def declarators (d : Descent) (inFor : Bool) (kind : VariableKind) :
    Parser (List Declarator) := do
  let first ← declarator d inFor kind
  if ← eat .comma then
    let rest ← d (.declarators inFor kind)
    return first :: rest
  else return [first]

def declarationStatement (d : Descent) (kind : VariableKind) : Parser Statement := do
  let start ← here
  advance
  let declarators ← d (.declarators false kind)
  semicolon
  return .declarationStatement (.declaration (← finish start) kind (.ofList declarators))

/-- `let` before something that only a declarator can begin with. -/
def seesLet : Parser Bool := do
  if ← isContextual "let" then
    match ← peekKind with
    | .name | .bracketL | .braceL => return true
    | _ => return false
  else return false

/-- The kind of declaration that begins here, if one does. -/
def declarationKind? : Parser (Option VariableKind) := do
  match ← kind with
  | .keyword .var => return some .var
  | .keyword .const => return some .const
  | .name => if ← seesLet then return some .let else return none
  | _ => return none

def returnStatement (d : Descent) (options : ParseOptions) : Parser Statement := do
  let start ← here
  if !(← get).scope.inFunction && !options.allowReturnOutsideFunction then
    fail .returnOutsideFunction start
  else
    advance
    if ← endsEmpty then return .returnStatement (← finish start) .absent
    else
      let argument ← expression d false
      semicolon
      return .returnStatement (← finish start) (.present argument)
where
  endsEmpty : Parser Bool := do
    if ← eat .semi then return true else canInsertSemicolon

/-- An expression in parentheses, as in the head of a statement. -/
def headExpression (d : Descent) : Parser Expression := do
  expect .parenL
  let value ← expression d false
  expect .parenR
  return value

def ifStatement (d : Descent) : Parser Statement := do
  let start ← here
  advance
  let test ← headExpression d
  let consequent ← d .statement
  let alternate ← if ← eat (.keyword .else) then Node.present <$> d .statement else pure .absent
  return .ifStatement (← finish start) test consequent alternate

/-- The body of a loop, where jumps without a label may stand. -/
def loopBody (d : Descent) : Parser Statement :=
  withLabel ⟨none, true⟩ (d .statement)

def whileStatement (d : Descent) : Parser Statement := do
  let start ← here
  advance
  let test ← headExpression d
  let body ← loopBody d
  return .whileStatement (← finish start) test body

/-- An expression unless a token of kind `stop` comes at once. -/
def optionalExpression (d : Descent) (stop : TokenKind) : Parser (Node (.option .expression)) := do
  if ← sees stop then return .absent
  else return .present (← expression d false)

/-- A `for` with three parts, after the first one. -/
def forParts (d : Descent) (start : Place) (init : Node (.option .forInit)) :
    Parser Statement := do
  expect .semi
  let test ← optionalExpression d .semi
  expect .semi
  let update ← optionalExpression d .parenR
  expect .parenR
  let body ← loopBody d
  return .forStatement (← finish start) init test update body

/-- A `for` over the keys or the values of something, after its left part. -/
def forEach (d : Descent) (start : Place) (left : Node .forTarget) : Parser Statement := do
  let overKeys ← sees (.keyword .in)
  advance
  let right ← if overKeys then expression d false else d.value false
  expect .parenR
  let body ← loopBody d
  let span ← finish start
  return if overKeys then .forInStatement span left right body
    else .forOfStatement span left right body

/-- Whether the left part of a `for` head ends here. -/
def seesForEach : Parser Bool := do
  return (← sees (.keyword .in)) || (← isContextual "of")

def forDeclaration (d : Descent) (start : Place) (kind : VariableKind) : Parser Statement := do
  let declarationStart ← here
  advance
  let declarators ← d (.declarators true kind)
  let declaration := .declaration (← finish declarationStart) kind (.ofList declarators)
  if declarators.length == 1 && (← seesForEach) then
    forEach d start (.targetDeclaration declaration)
  else forParts d start (.present (.initDeclaration declaration))

def forExpression (d : Descent) (start : Place) : Parser Statement := do
  let (init, pending) ← expressionWith d true false none
  if ← seesForEach then
    let target ← lift (init.toPattern false)
    checkTarget false target
    forEach d start (.targetPattern target)
  else
    pending.refuse
    forParts d start (.present (.initExpression init))

def forStatement (d : Descent) : Parser Statement := do
  let start ← here
  advance
  expect .parenL
  if ← sees .semi then forParts d start .absent
  else
    match ← declarationKind? with
    | some kind => forDeclaration d start kind
    | none => forExpression d start

/-- Whether a label in scope is what a jump asks for. -/
def isJumpTarget (jump : Jump) (name : Option String) (label : Label) : Bool :=
  match name with
  | none => label.isLoop
  | some name => label.name == some name && (label.isLoop || jump == .break)

def jumpStatement (jump : Jump) : Parser Statement := do
  let start ← here
  advance
  let label ← jumpLabel
  let labels := (← get).scope.labels
  if labels.any (isJumpTarget jump (label.map Identifier.name)) then
    let span ← finish start
    match jump with
    | .break => return .breakStatement span label
    | .continue => return .continueStatement span label
  else fail (.jumpWithoutTarget jump) start
where
  jumpLabel : Parser (Option Identifier) := do
    if ← eat .semi then return none
    else if ← canInsertSemicolon then return none
    else if ← sees .name then
      let id ← identifier false
      semicolon
      return some id
    else unexpected

def throwStatement (d : Descent) : Parser Statement := do
  let start ← here
  advance
  if ← afterLineBreak then fail .lineBreakAfterThrow (← lastEnd start)
  else
    let argument ← expression d false
    semicolon
    return .throwStatement (← finish start) argument

def catchClause (d : Descent) : Parser (Node .handler) := do
  let start ← here
  advance
  expect .parenL
  let param ← bindingAtom d
  checkTargets true true [param]
  expect .parenR
  let body ← block d false
  return .handler (← finish start) param body

def tryStatement (d : Descent) : Parser Statement := do
  let start ← here
  advance
  let body ← block d false
  let handler ← if ← sees (.keyword .catch) then some <$> catchClause d else pure none
  let finalizer ← if ← eat (.keyword .finally) then some <$> block d false else pure none
  if handler.isNone && finalizer.isNone then fail .missingHandler start
  else return .tryStatement (← finish start) body (.ofOption handler) (.ofOption finalizer)

/-- A statement after the colon of its label. -/
def labeledStatement (d : Descent) (start : Place) (label : Identifier) : Parser Statement := do
  if (← get).scope.labels.any fun l => l.name == some label.name then
    fail (.labelDeclared label.name) label.span.start
  else
    advance
    let body ← withLabel ⟨some label.name, (← kind).isLoop⟩ (d .statement)
    return .labeledStatement (← finish start) label body

/-- An expression statement, or a labeled one if the expression is a name before a colon. -/
def expressionStatement (d : Descent) : Parser Statement := do
  let start ← here
  let startsWithName ← sees .name
  let value ← expression d false
  match value, startsWithName && (← sees .colon) with
  | .identifier label, true => labeledStatement d start label
  | _, _ =>
    semicolon
    return .expressionStatement (← finish start) value none

def functionStatement (d : Descent) : Parser Statement := do
  let start ← here
  advance
  return (← function d start true).toDeclaration

def emptyStatement : Parser Statement := do
  let start ← here
  advance
  return .emptyStatement (← finish start)

def statement (d : Descent) (options : ParseOptions) : Parser Statement := do
  match ← declarationKind? with
  | some kind => declarationStatement d kind
  | none =>
    match ← kind with
    | .braceL => return .blockStatement (← block d false)
    | .semi => emptyStatement
    | .keyword .function => functionStatement d
    | .keyword .return => returnStatement d options
    | .keyword .if => ifStatement d
    | .keyword .while => whileStatement d
    | .keyword .for => forStatement d
    | .keyword .break => jumpStatement .break
    | .keyword .continue => jumpStatement .continue
    | .keyword .throw => throwStatement d
    | .keyword .try => tryStatement d
    | _ => expressionStatement d

end EcmaTree.Grammar
