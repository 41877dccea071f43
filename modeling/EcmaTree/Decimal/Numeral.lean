import EcmaTree.Source.Character

/-!
# Values of numerals

A decimal numeral rounds correctly to the nearest double. A numeral in another base
is summed in floating point from its first digit on, so a long one may round at
every step.
-/

namespace EcmaTree.Decimal

/-- The natural number written by decimal digits. -/
def naturalOf (digits : List Char) : Nat :=
  digits.foldl (fun n c => 10 * n + (c.toNat - '0'.toNat)) 0

/-- The double nearest to `mantissa · 10 ^ exponent`. Far outside the range of doubles the
answer is zero or infinity, whatever the digits. -/
def nearest (mantissa : Nat) (exponent : Int) : Float :=
  let magnitude : Int := (Nat.toDigits 10 mantissa).length + exponent
  if mantissa = 0 ∨ magnitude < -330 then 0.0
  else if 310 < magnitude then 1.0 / 0.0
  else if exponent < 0 then Float.ofScientific mantissa true (-exponent).toNat
  else Float.ofScientific mantissa false exponent.toNat

/-- The value of digits in a base, accumulated in floating point. -/
def sumInBase (base : Nat) (digits : List Char) : Float :=
  digits.foldl (fun sum c => sum * Float.ofNat base + Float.ofNat ((digitValue? base c).getD 0)) 0.0

end EcmaTree.Decimal
