import EcmaTree.Source.Unicode.Alphabetic
import EcmaTree.Source.Unicode.Numeric

/-!
# Character classes

Which characters begin a name, continue a name, end a line or are blank. Beyond
ASCII the classes are Unicode properties: Alphabetic begins a name, Alphabetic and
the number categories continue it, and White_Space together with the byte order
mark is blank.
-/

namespace EcmaTree

def inRanges (ranges : List (Nat × Nat)) (n : Nat) : Bool :=
  ranges.any fun range => range.1 ≤ n && n ≤ range.2

def isAscii (c : Char) : Bool :=
  c.toNat < 0x80

def isAsciiLetter (c : Char) : Bool :=
  ('a' ≤ c && c ≤ 'z') || ('A' ≤ c && c ≤ 'Z')

def isDecimalDigit (c : Char) : Bool :=
  '0' ≤ c && c ≤ '9'

def isIdentifierStart (c : Char) : Bool :=
  isAsciiLetter c || c == '$' || c == '_' || (!isAscii c && inRanges alphabeticRanges c.toNat)

/-- Names go on with starting characters, digits, numbers and the two zero-width joiners. -/
def isIdentifierPart (c : Char) : Bool :=
  isIdentifierStart c || isDecimalDigit c || c == '\u200c' || c == '\u200d' ||
    (!isAscii c && inRanges numericRanges c.toNat)

theorem isIdentifierPart_of_start {c : Char} (h : isIdentifierStart c = true) :
    isIdentifierPart c = true := by
  simp [isIdentifierPart, h]

def isLineTerminator (c : Char) : Bool :=
  c == '\n' || c == '\r' || c == '\u2028' || c == '\u2029'

def hasLineBreak (text : List Char) : Bool :=
  text.any isLineTerminator

/-- White_Space beyond ASCII, as inclusive ranges in order. -/
def wideSpaceRanges : List (Nat × Nat) :=
  [(0x85, 0x85), (0xA0, 0xA0), (0x1680, 0x1680), (0x2000, 0x200A), (0x2028, 0x2029),
   (0x202F, 0x202F), (0x205F, 0x205F), (0x3000, 0x3000)]

/-- Characters with the property White_Space. -/
def isWhiteSpace (c : Char) : Bool :=
  c == ' ' || (9 ≤ c.toNat && c.toNat ≤ 13) || inRanges wideSpaceRanges c.toNat

/-- Characters skipped between tokens. -/
def isBlank (c : Char) : Bool :=
  isWhiteSpace c || c == '\ufeff'

/-- The value of a digit in a base of at most sixteen. -/
def digitValue? (base : Nat) (c : Char) : Option Nat :=
  let n :=
    if isDecimalDigit c then c.toNat - '0'.toNat
    else if 'a' ≤ c && c ≤ 'f' then c.toNat - 'a'.toNat + 10
    else if 'A' ≤ c && c ≤ 'F' then c.toNat - 'A'.toNat + 10
    else base
  if n < base then some n else none

def isDigit (base : Nat) (c : Char) : Bool :=
  (digitValue? base c).isSome

end EcmaTree
