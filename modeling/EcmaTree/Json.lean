import EcmaTree.Decimal.Text

/-!
# JSON values and their pretty form

Objects keep their fields in the order in which they are given. The pretty form puts
every item on a line of its own, indented by two spaces per level; empty lists and
objects stay on one line. Strings escape quotes, backslashes and control characters.
-/

namespace EcmaTree

inductive Json where
  | null
  | bool (b : Bool)
  | nat (n : Nat)
  | float (x : Float)
  | string (s : String)
  | array (items : List Json)
  | object (fields : List (String × Json))
deriving Inhabited

namespace Json

/-- The two-digit escape of a control character. -/
def controlEscape (c : Char) : List Char :=
  let digit (n : Nat) : Char := Nat.digitChar n
  ['\\', 'u', '0', '0', digit (c.toNat / 16), digit (c.toNat % 16)]

def escapeChar (c : Char) : List Char :=
  if c == '\x22' then ['\\', '\x22']
  else if c == '\\' then ['\\', '\\']
  else if c == '\x08' then ['\\', 'b']
  else if c == '\x0c' then ['\\', 'f']
  else if c == '\n' then ['\\', 'n']
  else if c == '\r' then ['\\', 'r']
  else if c == '\t' then ['\\', 't']
  else if c.toNat < 0x20 then controlEscape c
  else [c]

def quoted (s : String) : String :=
  String.ofList ('\x22' :: s.toList.flatMap escapeChar ++ ['\x22'])

/-- A line break followed by the indentation of a level. -/
def lineBreak (level : Nat) : String :=
  String.ofList ('\n' :: List.replicate (2 * level) ' ')

mutual

/-- The pretty form of a value that stands at an indentation level. -/
def pretty (level : Nat) : Json → String
  | null => "null"
  | bool b => if b then "true" else "false"
  | nat n => toString n
  | float x => (Decimal.text? x).getD "null"
  | string s => quoted s
  | array [] => "[]"
  | array items => "[" ++ prettyItems (level + 1) items ++ lineBreak level ++ "]"
  | object [] => "\x7b\x7d"
  | object fields => "\x7b" ++ prettyFields (level + 1) fields ++ lineBreak level ++ "\x7d"

def prettyItems (level : Nat) : List Json → String
  | [] => ""
  | [item] => lineBreak level ++ pretty level item
  | item :: items => lineBreak level ++ pretty level item ++ "," ++ prettyItems level items

def prettyFields (level : Nat) : List (String × Json) → String
  | [] => ""
  | [field] => prettyField level field
  | field :: fields => prettyField level field ++ "," ++ prettyFields level fields

def prettyField (level : Nat) : String × Json → String
  | (key, value) => lineBreak level ++ quoted key ++ ": " ++ pretty level value

end

/-- The value under a key, or `none` when there is no optional value. -/
def ofOption {α : Type} (encode : α → Json) : Option α → Json
  | none => null
  | some a => encode a

end Json

end EcmaTree
