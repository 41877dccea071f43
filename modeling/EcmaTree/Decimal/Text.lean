import EcmaTree.Decimal.Shortest

/-!
# The text of a number in JSON

Numbers from 10^-5 up to 10^16 are written positionally and always with a point, all
others with one digit before the point and a signed exponent. Zero is `0.0`. A number
without a finite value has no text.
-/

namespace EcmaTree.Decimal

/-- Positional notation of the digits whose first one has the given exponent. -/
def positional (digits : List Char) (exponent : Int) : List Char :=
  if exponent < 0 then
    ['0', '.'] ++ List.replicate (-exponent - 1).toNat '0' ++ digits
  else
    let whole := exponent.toNat + 1
    let padded := digits ++ List.replicate (whole - digits.length) '0'
    let fraction := digits.drop whole
    padded.take whole ++ ['.'] ++ (if fraction.isEmpty then ['0'] else fraction)

/-- One digit, the others after a point, and the exponent with its sign. -/
def scientific (digits : List Char) (exponent : Int) : List Char :=
  let fraction := digits.drop 1
  digits.take 1 ++ (if fraction.isEmpty then [] else '.' :: fraction) ++
    ['e', if exponent < 0 then '-' else '+'] ++ Nat.toDigits 10 exponent.natAbs

def textOfFinite (b : Binary) : List Char :=
  if b.mantissa = 0 then ['0', '.', '0']
  else
    let (digits, exponent) := (shortest b).significant
    if -5 ≤ exponent ∧ exponent < 16 then positional digits exponent
    else scientific digits exponent

/-- The text of a double, or nothing for an infinity and for no number. -/
def text? (x : Float) : Option String :=
  if x.isFinite then
    let sign := if x.toBits >>> 63 == 1 then ['-'] else []
    some (String.ofList (sign ++ textOfFinite (Binary.ofBits x.toBits)))
  else none

end EcmaTree.Decimal
