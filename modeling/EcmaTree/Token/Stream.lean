import EcmaTree.Source.Comment
import EcmaTree.Source.Cursor
import EcmaTree.Token.Context
import EcmaTree.Token.Read

/-!
# Token streams

A token stream holds the unread text, the current token and the one before it, the
contexts, and everything recorded so far: tokens that were left behind and comments
that were skipped. Reading a token is one step on this value, so a copy of it is a
snapshot. A step that fails keeps what it had recorded and how far it had read.
-/

namespace EcmaTree

structure Token where
  kind : TokenKind
  value : TokenValue
  /-- The token as written. -/
  text : List Char
  span : Span
deriving Inhabited

structure TokenStream where
  cursor : Cursor
  token : Token
  /-- The text behind the current token. -/
  behind : List Char
  /-- Where the token that was current before lies. -/
  last : Option Span
  /-- The text behind that token. -/
  behindLast : List Char
  context : ContextStack
  tokens : Array Token
  comments : Array Comment
  /-- Comments that wait for the node after them. -/
  leading : Array Comment
  /-- Comments that wait for the node before them. -/
  trailing : Array Comment
deriving Inhabited

/-- A step on a token stream, which keeps the stream also when it fails. -/
abbrev Scan := EStateM ParseError TokenStream

namespace TokenStream

/-- The stream before its first token, which stands in as an end of input. -/
def ofText (text : List Char) : TokenStream :=
  let cursor := Cursor.ofText text
  { cursor := cursor
    token := ⟨.eof, .none, [], ⟨cursor.place, cursor.place⟩⟩
    behind := text
    last := none
    behindLast := text
    context := .initial
    tokens := #[]
    comments := #[]
    leading := #[]
    trailing := #[] }

/-- Where the previous token ends; the beginning of the text before any token. -/
def lastStop (s : TokenStream) : Nat :=
  match s.last with
  | none => 0
  | some span => span.stop.offset

/-- The text between the previous token and the current one. -/
def gap (s : TokenStream) : List Char :=
  (takeBytes (s.token.span.start.offset - s.lastStop) s.behindLast).getD []

/-- Whether a line ends between the previous token and the current one. -/
def afterLineBreak (s : TokenStream) : Bool :=
  hasLineBreak s.gap

/-- The text of a block comment up to its closing delimiter, if that comes. -/
def blockText? : List Char → Option (List Char)
  | [] => none
  | c :: rest =>
    if c == '*' && rest.head? == some '/' then some [] else (blockText? rest).map (c :: ·)

/-- The lines that begin in the text of a block comment, of which `done` characters are read and
`lines` counted. -/
def blockLines (done : Nat) (lines : LineCount) : List Char → LineCount
  | [] => lines
  | '\r' :: '\n' :: rest => blockLines (done + 2) (lines.newLine (done + 2)) rest
  | c :: rest =>
    let lines := if isLineTerminator c then lines.newLine (done + 1) else lines
    blockLines (done + 1) lines rest

/-- Reads `length` characters as a comment and records it. -/
def addComment (s : TokenStream) (kind : CommentKind) (text : List Char) (length : Nat)
    (lines : LineCount) : TokenStream :=
  let cursor := s.cursor.pass length lines
  let comment : Comment := ⟨kind, String.ofList text, ⟨s.cursor.place, cursor.place⟩⟩
  { s with
    cursor := cursor
    trailing := s.trailing.push comment
    leading := s.leading.push comment
    comments := s.comments.push comment }

/-- Skips blanks and comments; every one of them costs fuel. -/
def skipTrivia : Nat → Scan Unit
  | 0, s => .ok () s
  | fuel + 1, s =>
    match s.cursor.rest with
    | [] => .ok () s
    | c :: rest =>
      if c == '\r' then
        let length := if rest.head? == some '\n' then 2 else 1
        skipTrivia fuel { s with cursor := (s.cursor.skip length).newLine }
      else if isLineTerminator c then
        skipTrivia fuel { s with cursor := (s.cursor.skip 1).newLine }
      else if c == '/' && rest.head? == some '/' then
        let text := rest.tail.takeWhile fun c => !isLineTerminator c
        skipTrivia fuel (s.addComment .line text (text.length + 2) .zero)
      else if c == '/' && rest.head? == some '*' then
        match blockText? rest.tail with
        | some text =>
          skipTrivia fuel (s.addComment .block text (text.length + 4) (blockLines 2 .zero text))
        | none => .error ⟨.unterminatedComment, s.cursor.place⟩ s
      else if isBlank c then skipTrivia fuel { s with cursor := s.cursor.skip 1 }
      else .ok () s

/-- The lexeme at the cursor. The end of the text is read anywhere, also in a template. -/
def lexeme (s : TokenStream) : Except LexicalFault Lexeme :=
  if s.cursor.atEnd then .ok ⟨.eof, .none, 0, .zero⟩
  else if s.context.top == .quoteTemplate then Template.read s.token.kind s.cursor.rest
  else Lexeme.read s.context.expressionAllowed s.cursor.rest

/-- Lets the current token begin at the cursor. -/
def markStart (s : TokenStream) : TokenStream :=
  { s with token := { s.token with span := ⟨s.cursor.place, s.token.span.stop⟩ } }

/-- Makes a lexeme the current token. -/
def accept (s : TokenStream) (l : Lexeme) : TokenStream :=
  let cursor := s.cursor.pass l.length l.lines
  { s with
    cursor := cursor
    token := ⟨l.kind, l.value, s.cursor.rest.take l.length, ⟨s.cursor.place, cursor.place⟩⟩
    behind := cursor.rest
    context := s.context.step s.token.kind l.kind s.afterLineBreak }

/-- Stops where a lexeme that cannot be read has come to. -/
def giveUp (s : TokenStream) (bad : LexicalFault) : TokenStream :=
  { s with cursor := s.cursor.pass bad.reached bad.lines }

/-- The place to blame: the start of the token, or one on the line that has been come to. -/
def blame (s : TokenStream) (bad : LexicalFault) : Place :=
  if bad.blamed = 0 then s.cursor.place
  else (s.giveUp bad).cursor.placeOf (s.cursor.skip bad.blamed).offset

/-- Reads the token at the cursor. -/
def readHere : Scan Unit := fun s =>
  let s := s.markStart
  match s.lexeme with
  | .ok l => .ok () (s.accept l)
  | .error bad => .error ⟨bad.fault, s.blame bad⟩ (s.giveUp bad)

/-- Reads the next token in place of the current one. -/
def read : Scan Unit := fun s =>
  if s.context.top.preservesSpace then readHere s
  else match skipTrivia s.cursor.rest.length s with
    | .ok _ s => readHere s
    | .error e s => .error e s

/-- The current token is recorded and becomes the one before. -/
def recorded (s : TokenStream) : TokenStream :=
  { s with
    tokens := s.tokens.push s.token
    last := some s.token.span
    behindLast := s.behind }

/-- Records the current token and reads the next one. -/
def advance : Scan Unit := fun s =>
  read s.recorded

/-- A way through a text: the stream after every token, and how it ended. -/
structure Trail where
  states : List TokenStream
  error : Option ParseError
  final : TokenStream

/-- Goes on from `s` to the end of input or the first error. -/
def follow : Nat → TokenStream → Trail
  | 0, s => ⟨[s], none, s⟩
  | fuel + 1, s =>
    if s.token.kind == .eof then ⟨[s], none, s⟩
    else match advance s with
      | .ok _ next =>
        let trail := follow fuel next
        { trail with states := s :: trail.states }
      | .error e final => ⟨[s], some e, final⟩

/-- All tokens of a text. A text of `n` characters has at most `2 * n + 1` of them. -/
def scan (text : List Char) : Trail :=
  match read (ofText text) with
  | .ok _ s => follow (2 * text.length + 1) s
  | .error e s => ⟨[], some e, s⟩

end TokenStream

end EcmaTree
