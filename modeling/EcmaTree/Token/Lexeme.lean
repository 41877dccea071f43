import EcmaTree.Fault
import EcmaTree.Token.Kind
import EcmaTree.Source.Cursor
import EcmaTree.Decimal.Numeral

/-!
# Lexemes

A lexeme is a token as read off the front of the text: its kind, its value, how many
characters it takes and which lines begin in it. Readers of lexemes see the text alone
and no place in it. A reader that fails says how far into the token the fault lies, how
far it read and which lines it had counted.
-/

namespace EcmaTree

inductive TokenValue where
  | none
  /-- The text of a name or keyword. -/
  | name (text : String)
  | operator (text : String)
  /-- The characters a string literal stands for. -/
  | string (text : String)
  | number (x : Float)
  | regexp (pattern flags : String)
  /-- The text of a template chunk as written. -/
  | template (text : String)
deriving Inhabited

namespace TokenValue

/-- The text of a value that is text. -/
def text? : TokenValue → Option String
  | .name text | .operator text | .string text | .template text => some text
  | _ => Option.none

end TokenValue

structure Lexeme where
  kind : TokenKind
  value : TokenValue
  length : Nat
  lines : LineCount
deriving Inhabited

structure LexicalFault where
  fault : Fault
  /-- Characters between the start of the token and the place to blame. -/
  blamed : Nat
  /-- Characters read before giving up. -/
  reached : Nat
  /-- Lines counted before giving up. -/
  lines : LineCount
deriving DecidableEq, Repr, Inhabited

namespace Lexeme

/-- A name or a keyword: the longest run of identifier characters. -/
def word (text : List Char) : Lexeme :=
  let letters := text.takeWhile isIdentifierPart
  let name := String.ofList letters
  let kind := match Keyword.ofWord? name with
    | some k => .keyword k
    | none => .name
  ⟨kind, .name name, letters.length, .zero⟩

end Lexeme

end EcmaTree
