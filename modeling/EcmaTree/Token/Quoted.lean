import EcmaTree.Token.Lexeme

/-!
# String literals

A string literal runs to the next quote of its own kind and holds no bare line
terminator. A backslash begins an escape: a letter for a control character, a code
point in hexadecimal, a line continuation that stands for nothing, or any other
character, which stands for itself.
-/

namespace EcmaTree.Quoted

/-- An escape after its backslash: the characters it stands for, how long it is, and whether a
line begins behind it. -/
structure Escape where
  cooked : List Char
  length : Nat
  newLine : Bool
deriving DecidableEq, Repr

/-- Why an escape is refused, and how many characters after the backslash were read. -/
structure BadEscape where
  fault : Fault
  reached : Nat
deriving DecidableEq, Repr

/-- The number written by hexadecimal digits, of which there is at least one. -/
def hexNumber? (digits : List Char) : Option Nat :=
  if digits.isEmpty then none
  else digits.foldlM (fun n c => (digitValue? 16 c).map (16 * n + ·)) 0

/-- As `hexNumber?`, after an optional plus sign. -/
def signedHexNumber? : List Char → Option Nat
  | '+' :: digits => hexNumber? digits
  | digits => hexNumber? digits

/-- The character with a code, which must be a Unicode scalar value. -/
def scalar? (n : Nat) : Option Char :=
  if n < 0xD800 ∨ (0xDFFF < n ∧ n ≤ 0x10FFFF) then some (Char.ofNat n) else none

/-- The character whose code is written in exactly `width` characters. -/
def fixedCode? (width : Nat) (text : List Char) : Option Char :=
  let digits := text.take width
  if digits.length = width then (signedHexNumber? digits).bind scalar? else none

/-- An escape that begins with a letter and `width` characters of code. -/
def fixedEscape (width : Nat) (text : List Char) : Except BadEscape Escape :=
  match fixedCode? width text with
  | some c => .ok ⟨[c], width + 1, false⟩
  | none => .error ⟨.badEscape, 1⟩

/-- An escape of a code in braces; `text` begins after the opening brace. -/
def bracedEscape (text : List Char) : Except BadEscape Escape :=
  let digits := text.takeWhile (isDigit 16)
  if digits.isEmpty || (text.drop digits.length).head? != some '\x7d' then
    .error ⟨.badEscape, digits.length + 2⟩
  else match (hexNumber? digits).bind scalar? with
    | some c => .ok ⟨[c], digits.length + 3, false⟩
    | none => .error ⟨.badEscape, 2⟩

/-- Reads an escape after its backslash. -/
def readEscape : List Char → Except BadEscape Escape
  | [] => .error ⟨.unterminatedString, 0⟩
  | 'n' :: _ => .ok ⟨['\n'], 1, false⟩
  | 'r' :: _ => .ok ⟨['\r'], 1, false⟩
  | 't' :: _ => .ok ⟨['\t'], 1, false⟩
  | 'b' :: _ => .ok ⟨['\x08'], 1, false⟩
  | 'v' :: _ => .ok ⟨['\x0b'], 1, false⟩
  | 'f' :: _ => .ok ⟨['\x0c'], 1, false⟩
  | '0' :: rest =>
    .ok ⟨[if rest.head?.any isDecimalDigit then '0' else '\x00'], 1, false⟩
  | 'x' :: rest => fixedEscape 2 rest
  | 'u' :: '\x7b' :: rest => bracedEscape rest
  | 'u' :: rest => fixedEscape 4 rest
  | '\r' :: '\n' :: _ => .ok ⟨[], 2, true⟩
  | c :: _ => if isLineTerminator c then .ok ⟨[], 1, true⟩ else .ok ⟨[c], 1, false⟩

/-- What stands between the quotes of a literal: the characters meant, how many are read with both
quotes, and the lines that begin among them. -/
structure Body where
  cooked : List Char
  length : Nat
  lines : LineCount
deriving DecidableEq, Repr

/-- The body with more characters in front of those it stands for. -/
def Body.prepend (cs : List Char) (b : Body) : Body :=
  { b with cooked := cs ++ b.cooked }

/-- Reads what follows an opening quote. Of the text before, `done` characters are read and `lines`
counted; `owed` characters still belong to an escape. -/
def readBody (quote : Char) (done owed : Nat) (lines : LineCount) :
    List Char → Except LexicalFault Body
  | [] => .error ⟨.unterminatedString, 0, done, lines⟩
  | c :: rest =>
    match owed with
    | owed + 1 => readBody quote (done + 1) owed lines rest
    | 0 =>
      if c == quote then .ok ⟨[], done + 1, lines⟩
      else if c == '\\' then
        match readEscape rest with
        | .ok escape =>
          let lines := if escape.newLine then lines.newLine (done + 1 + escape.length) else lines
          (readBody quote (done + 1) escape.length lines rest).map (.prepend escape.cooked)
        | .error bad =>
          let blamed := if bad.fault == .badEscape then done else 0
          .error ⟨bad.fault, blamed, done + 1 + bad.reached, lines⟩
      else if isLineTerminator c then .error ⟨.unterminatedString, 0, done, lines⟩
      else (readBody quote (done + 1) 0 lines rest).map (.prepend [c])

/-- A string literal, whose opening quote is `quote`; `text` begins after it. -/
def read (quote : Char) (text : List Char) : Except LexicalFault Lexeme :=
  (readBody quote 1 0 .zero text).map fun b =>
    ⟨.string, .string (String.ofList b.cooked), b.length, b.lines⟩

end EcmaTree.Quoted
