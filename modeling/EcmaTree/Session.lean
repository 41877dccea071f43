import EcmaTree.Session.Step

/-!
# Sessions

A session holds one parse and copies of its state in named slots. States carry a mark
for the storage of their sequences. A shared copy keeps the mark, and a state that is written
to takes a new one, so two states have the same mark exactly while neither has changed
any of the sequences they share.
-/

namespace EcmaTree

/-- A state and the mark of its stored sequences. -/
structure Snapshot where
  state : ParseState
  mark : Nat
deriving Inhabited

structure Session where
  options : ParseOptions
  source : List Char
  current : Snapshot
  slots : List (String × Snapshot)
  /-- No mark so far is as large. -/
  nextMark : Nat
deriving Inhabited

namespace Session

/-- A session before the first token of a text. -/
def ofText (options : ParseOptions) (source : List Char) : Session where
  options := options
  source := source
  current := ⟨.ofText options source, 0⟩
  slots := []
  nextMark := 1

/-- Gives the current state a storage of its own. -/
def renew (s : Session) : Session :=
  { s with current := { s.current with mark := s.nextMark }, nextMark := s.nextMark + 1 }

/-- A step of a session, which leaves a session behind also when it fails. -/
abbrev Action := EStateM Stop Session

/-- Whether the way from one state to another wrote to a stored sequence. A closing token writes
to the contexts even if there are none. -/
def wrote (before after : ParseState) : Bool :=
  let moved := before.stream.cursor.offset != after.stream.cursor.offset
  let closes := after.stream.token.kind == .parenR || after.stream.token.kind == .braceR
  before.stream.tokens.size != after.stream.tokens.size ||
    before.stream.comments.size != after.stream.comments.size ||
    before.stream.context.stack.length != after.stream.context.stack.length ||
    (moved && closes && after.stream.context.stack.isEmpty)

/-- The session after its state has become `state`. -/
def become (s : Session) (state : ParseState) : Session :=
  let next := { s with current := { s.current with state := state } }
  if wrote s.current.state state then next.renew else next

/-- Runs a part of the parser on the current state. -/
def parsing {α : Type} (p : Parser α) : Action α := fun s =>
  match p s.current.state with
  | .ok a state => .ok a (s.become state)
  | .error stop state => .error stop (s.become state)

/-- Changes the state without writing to a stored sequence. -/
def adjust (f : ParseState → ParseState) : Action Unit :=
  modify fun s => { s with current := { s.current with state := f s.current.state } }

/-- Writes to a stored sequence. -/
def write (f : ParseState → ParseState) : Action Unit := do
  adjust f
  modify renew

def writeContexts (f : List Context → List Context) : Action Unit :=
  write fun s =>
    { s with stream := { s.stream with
        context := { s.stream.context with stack := f s.stream.context.stack } } }

def writeLabels (f : List Label → List Label) : Action Unit :=
  write fun s => { s with scope := { s.scope with labels := f s.scope.labels } }

def clear : Store → ParseState → ParseState
  | .labels, s => { s with scope := { s.scope with labels := [] } }
  | .decorators, s => { s with decorators := #[] }
  | .tokens, s => { s with stream := { s.stream with tokens := #[] } }
  | .leading, s => { s with stream := { s.stream with leading := #[] } }
  | .trailing, s => { s with stream := { s.stream with trailing := #[] } }
  | .finished, s => { s with finished := #[] }
  | .comments, s => { s with stream := { s.stream with comments := #[] } }

def setFlags (flags : Flags) (s : ParseState) : ParseState :=
  { s with
    scope := { s.scope with
      strict := flags.strict.getD s.scope.strict
      inFunction := flags.inFunction.getD s.scope.inFunction
      inGenerator := flags.inGenerator.getD s.scope.inGenerator }
    stream := { s.stream with
      context := { s.stream.context with
        expressionAllowed :=
          flags.expressionAllowed.getD s.stream.context.expressionAllowed } } }

open EcmaTree.Parser EcmaTree.Grammar in
/-- Runs a rule of the grammar. -/
def runRule (options : ParseOptions) (d : Descent) : SessionRule → Parser Reply
  | .file => .file <$> Grammar.file options d
  | .statement => do return .node (← d .statement)
  | .expression noIn => .node <$> expression d noIn
  | .assignment noIn => .node <$> d.value noIn
  | .identifier liberal => do return .node (.identifier (← identifier liberal))
  | .bindingAtom => .node <$> bindingAtom d
  | .targets stop holes trailingComma => do
    let targets ← d (.targets stop holes trailingComma true)
    return .node (.ofHoleyList targets)
  | .bindingElement => .node <$> bindingElement d
  | .rest => do
    let (span, argument) ← restOfBinding
    return .node (.restPattern span argument)
  | .objectPattern => .node <$> objectPattern d
  | .propertyName => .key <$> propertyName d
  | .literal => do return .node (.literal (← literal))
  | .block directives => .node <$> block d directives
  | .statements directives stop => do return .node (.ofList (← d (.statements directives stop)))
  | .declarators inFor kind => do return .node (.ofList (← d (.declarators inFor kind)))
  | .function isDeclaration => do
    let start ← here
    advance
    let f ← function d start isDeclaration
    return if isDeclaration then .node f.toDeclaration else .node f.toExpression
  | .method generator => do return .node (← method d generator).toExpression
  | .arrow => do
    let start ← here
    expect .parenL
    let params ← parameters d
    return .node (← arrow d start params)

/-- The span from the current token to the end of the `count`-th one. -/
def nodeAround (count : Nat) : Parser Span := do
  let start ← Parser.here
  skip count
  Parser.finish start
where
  skip : Nat → Parser Unit
    | 0 => pure ()
    | n + 1 => do
      Parser.advance
      skip n

def slot? (s : Session) (name : String) : Option Snapshot :=
  s.slots.lookup name

/-- Puts a snapshot into a slot, or empties it. -/
def setSlot (s : Session) (name : String) (snapshot : Option Snapshot) : Session :=
  let others := s.slots.filter fun slot => slot.1 != name
  { s with slots := match snapshot with
      | some snapshot => (name, snapshot) :: others
      | none => others }

/-- Copies the current state into a slot. -/
def save (name : String) (shared : Bool) : Action Unit :=
  modify fun s =>
    if shared then s.setSlot name (some s.current)
    else
      let copy : Snapshot := ⟨s.current.state, s.nextMark⟩
      { s.setSlot name (some copy) with nextMark := s.nextMark + 1 }

/-- Moves a slot into the session, or exchanges both, if the slot holds a state. -/
def load (name : String) (exchange : Bool) : Action Unit :=
  modify fun s =>
    match s.slot? name with
    | none => s
    | some snapshot =>
      { s.setSlot name (if exchange then some s.current else none) with current := snapshot }

/-- The error of steps that ended early; a lack of fuel is passed on. -/
def errorOf : Option Stop → Except Stop (Option ParseError)
  | none => .ok none
  | some (.fault e) => .ok (some e)
  | some .exhausted => .error .exhausted

/-- What a list of steps answered, each with the state after it, why it ended early, and the
session it left. -/
structure Played where
  events : List (Reply × ParseState)
  stop : Option Stop
  session : Session

/-- The end of an attempt that began in `before`. -/
def endAttempt (before : Session) (fails : Bool) (p : Played) : EStateM.Result Stop Session Reply :=
  match errorOf p.stop with
  | .error stop => .error stop p.session
  | .ok error =>
    if fails || error.isSome then
      let restored := { p.session with current := before.current }
      .ok (.attempt none p.events error) restored.renew
    else
      let reached := p.session.current.state.stream.token.span.start.offset
      .ok (.attempt (some reached) p.events none) p.session

/-- The end of a look ahead that began in `before`. -/
def endLook (before : Session) (p : Played) : EStateM.Result Stop Session Reply :=
  match errorOf p.stop with
  | .error stop => .error stop p.session
  | .ok error => .ok (.look p.events error) { p.session with current := before.current }

mutual

def run : Step → Action Reply
  | .advance => do parsing Parser.advance; return .nothing
  | .read => do parsing (Parser.scan TokenStream.read); return .nothing
  | .sees kind => do return .truth (← parsing (Parser.sees kind))
  | .eat kind => do return .truth (← parsing (Parser.eat kind))
  | .expect kind => do parsing (Parser.expect kind); return .nothing
  | .isContextual word => do return .truth (← parsing (Parser.isContextual word))
  | .canInsertSemicolon => do return .truth (← parsing Parser.canInsertSemicolon)
  | .semicolon => do parsing Parser.semicolon; return .nothing
  | .peek => do return .kind (← parsing Parser.peekKind)
  | .unexpected => parsing Parser.unexpected
  | .raise error => throw (.fault error)
  | .rule .file => do
    let options := (← get).options
    let reply ← parsing (Grammar.run options fun d => runRule options d .file)
    modify renew
    return reply
  | .rule r => do
    let options := (← get).options
    parsing (Grammar.run options fun d => runRule options d r)
  | .node count => do return .span (← parsing (nodeAround count))
  | .nodeAt span => return .span (.closing span.start span.stop)
  | .set flags => do
    adjust (setFlags flags)
    modify fun s => { s with options := { s.options with
      allowReturnOutsideFunction :=
        flags.allowReturn.getD s.options.allowReturnOutsideFunction } }
    return .nothing
  | .pushLabel label => do writeLabels (label :: ·); return .nothing
  | .popLabel => do writeLabels List.tail; return .nothing
  | .pushContext context => do writeContexts (context :: ·); return .nothing
  | .popContext => do
    writeContexts List.tail
    return .context (← get).current.state.stream.context.top
  | .pushDecorator span => do
    write fun s => { s with decorators := s.decorators.push span }
    return .nothing
  | .pushFinished span => do
    write fun s => { s with finished := s.finished.push span }
    return .nothing
  | .clear store => do write (clear store); return .nothing
  | .takeComments => do
    let comments := (← get).current.state.stream.comments
    write (clear .comments)
    return .comments comments
  | .slice start stop => do return .text ((slice? (← get).source start stop).getD [])
  | .dump => do return .stores (← get).current.state
  | .save slot shared => do save slot shared; return .nothing
  | .load slot => do load slot false; return .nothing
  | .swap slot => do load slot true; return .nothing
  | .shares slot => do
    let s ← get
    return match s.slot? slot with
      | some snapshot => .truth (snapshot.mark == s.current.mark)
      | none => .nothing
  | .show slot => do
    return match (← get).slot? slot with
      | some snapshot => .state snapshot.state
      | none => .nothing
  | .clone => do modify renew; return .nothing
  | .attempt steps fails => fun s => endAttempt s fails (play steps s)
  | .look steps => fun s => endLook s (play steps s)

/-- Runs steps in order until one fails. -/
def play : List Step → Session → Played
  | [], s => ⟨[], none, s⟩
  | step :: steps, s =>
    match run step s with
    | .ok reply s =>
      let played := play steps s
      { played with events := (reply, s.current.state) :: played.events }
    | .error stop s => ⟨[], some stop, s⟩

end

end Session

end EcmaTree
