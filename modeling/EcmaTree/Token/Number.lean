import EcmaTree.Token.Lexeme

/-!
# Number literals

A decimal literal has digits, a fraction or both, and may have an exponent. A literal
in base sixteen, eight or two begins with a zero and a letter and has digits only. No
name may begin right after a number.
-/

namespace EcmaTree.Number

/-- Fails when a name begins after the `length` characters of a number. -/
def notBeforeName (text : List Char) (length : Nat) (x : Float) : Except LexicalFault Lexeme :=
  if (text.drop length).head?.any isIdentifierStart then
    .error ⟨.nameAfterNumber, length, length, .zero⟩
  else .ok ⟨.num, .number x, length, .zero⟩

/-- A literal in another base, whose digits follow two characters. -/
def readInBase (base : Nat) (text : List Char) : Except LexicalFault Lexeme :=
  let digits := (text.drop 2).takeWhile (isDigit base)
  if digits.isEmpty then .error ⟨.invalidNumber, 0, 2, .zero⟩
  else notBeforeName text (digits.length + 2) (Decimal.sumInBase base digits)

/-- An exponent from its letter on: its value and how long it is, or how far it was read. -/
def readExponent : List Char → Except Nat (Int × Nat)
  | e :: rest =>
    if e == 'e' || e == 'E' then
      let sign := (rest.take 1).filter fun c => c == '+' || c == '-'
      let digits := (rest.drop sign.length).takeWhile isDecimalDigit
      let size : Int := Decimal.naturalOf digits
      if digits.isEmpty then .error (sign.length + 1)
      else .ok (if sign == ['-'] then -size else size, sign.length + digits.length + 1)
    else .ok (0, 0)
  | [] => .ok (0, 0)

/-- A decimal literal; it begins with a digit, or with a point and a digit. -/
def readDecimal (text : List Char) : Except LexicalFault Lexeme :=
  let whole := text.takeWhile isDecimalDigit
  let rest := text.drop whole.length
  let point := (rest.take 1).filter (· == '.')
  let fraction := if point.isEmpty then [] else (rest.drop 1).takeWhile isDecimalDigit
  let length := whole.length + point.length + fraction.length
  match readExponent (text.drop length) with
  | .error reached => .error ⟨.invalidNumber, 0, length + reached, .zero⟩
  | .ok (exponent, n) =>
    notBeforeName text (length + n)
      (Decimal.nearest (Decimal.naturalOf (whole ++ fraction)) (exponent - fraction.length))

/-- A number literal, which begins with a digit, or with a point and a digit. -/
def read : List Char → Except LexicalFault Lexeme
  | '0' :: c :: rest =>
    if c == 'x' || c == 'X' then readInBase 16 ('0' :: c :: rest)
    else if c == 'o' || c == 'O' then readInBase 8 ('0' :: c :: rest)
    else if c == 'b' || c == 'B' then readInBase 2 ('0' :: c :: rest)
    else readDecimal ('0' :: c :: rest)
  | text => readDecimal text

end EcmaTree.Number
