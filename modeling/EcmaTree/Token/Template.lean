import EcmaTree.Token.Lexeme

/-!
# Template literals

Between the backquotes of a template stand chunks of text, each as long as possible
and perhaps empty. A chunk ends before a backquote or before the opening of an
expression; what comes next is read as that token only after a chunk.
-/

namespace EcmaTree.Template

/-- How many characters are read with the character `c`, the last of `done`, and the lines that
have begun then. A line feed goes with the carriage return before it. -/
def track (done : Nat) (lines : LineCount) (c : Char) (rest : List Char) : Nat × LineCount :=
  if isLineTerminator c then
    let done := if c == '\r' && rest.head? == some '\n' then done + 1 else done
    (done, lines.newLine done)
  else (done, lines)

/-- How many characters are read when the character `c` is passed over, and the lines that have
begun then. A backslash takes the character behind it along; `done` characters stand before. -/
def passOver (done : Nat) (lines : LineCount) (c : Char) (rest : List Char) : Nat × LineCount :=
  if c == '\\' then
    match rest with
    | [] => (done + 1, lines)
    | escaped :: rest => track (done + 2) lines escaped rest
  else track (done + 1) lines c rest

/-- How many characters stand before the end of the chunk, and the lines that begin in it, or the
lines counted where the text has no such end. Of the chunk `done` characters are read; `owed`
characters go with the last of them. -/
def readChunk (done owed : Nat) (lines : LineCount) : List Char → Except LineCount (Nat × LineCount)
  | [] => .error lines
  | c :: rest =>
    match owed with
    | owed + 1 => readChunk (done + 1) owed lines rest
    | 0 =>
      if c == '\x60' || (c == '$' && rest.head? == some '\x7b') then .ok (done, lines)
      else
        let passed := passOver done lines c rest
        readChunk (done + 1) (passed.1 - (done + 1)) passed.2 rest

/-- The token at the front of the text of a template, after a token of kind `previous`. -/
def read (previous : TokenKind) (text : List Char) : Except LexicalFault Lexeme :=
  match readChunk 0 0 .zero text with
  | .error lines => .error ⟨.unterminatedTemplate, 0, text.length, lines⟩
  | .ok (n, lines) =>
    if n = 0 ∧ previous = .template then
      if text.head? == some '$' then .ok ⟨.dollarBraceL, .none, 2, .zero⟩
      else .ok ⟨.backQuote, .none, 1, .zero⟩
    else .ok ⟨.template, .template (String.ofList (text.take n)), n, lines⟩

end EcmaTree.Template
