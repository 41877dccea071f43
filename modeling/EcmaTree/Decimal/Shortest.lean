/-!
# Shortest decimal digits of a binary number

A positive double stands for the interval of reals that round to it. `shortest`
searches the decimal grids from coarse to fine, one to seventeen digits, and on each
tests the two grid points around the value: the first grid with a point in the
interval wins, of two points the nearer one. All arithmetic is on natural numbers.
-/

namespace EcmaTree.Decimal

/-- The number `mantissa · 2 ^ exponent`. -/
structure Binary where
  mantissa : Nat
  exponent : Int
deriving DecidableEq, Repr

/-- The number `digits · 10 ^ exponent`. -/
structure Scaled where
  digits : Nat
  exponent : Int
deriving DecidableEq, Repr

namespace Binary

/-- The value of a finite double from its bits, sign left out. -/
def ofBits (bits : UInt64) : Binary :=
  let field := ((bits >>> 52) &&& 0x7FF).toNat
  let fraction := (bits &&& 0xFFFFFFFFFFFFF).toNat
  if field = 0 then ⟨fraction, -1074⟩ else ⟨fraction + Nat.pow 2 52, (field : Int) - 1075⟩

/-- Numerator and denominator of a quarter of the number, which make its neighbours whole. -/
def quarter (b : Binary) : Nat × Nat :=
  (Nat.pow 2 (b.exponent - 2).toNat, Nat.pow 2 (2 - b.exponent).toNat)

/-- The lower end, the value and the upper end of the rounding interval, in quarters. -/
def interval (b : Binary) : Nat × Nat × Nat :=
  let value := 4 * b.mantissa
  let low := if b.mantissa = Nat.pow 2 52 ∧ b.exponent ≠ -1074 then value - 1 else value - 2
  (low, value, value + 2)

end Binary

/-- `a / b` compared with `c / d`, for positive denominators. -/
def compareRatio (a b c d : Nat) : Ordering :=
  compare (a * d) (c * b)

/-- Whether `digits · 10 ^ exponent` rounds to `b`; the ends count when the mantissa is even. -/
def roundsTo (s : Scaled) (b : Binary) : Bool :=
  let (low, _, high) := b.interval
  let (num, den) := b.quarter
  let up := Nat.pow 10 s.exponent.toNat
  let down := Nat.pow 10 (-s.exponent).toNat
  let lower := compareRatio (low * num) den (s.digits * up) down
  let upper := compareRatio (s.digits * up) down (high * num) den
  if b.mantissa % 2 = 0 then lower != .gt && upper != .gt
  else lower == .lt && upper == .lt

/-- The exponent of the leading decimal digit of `num / den`. -/
def leading (num den : Nat) : Int :=
  if den ≤ num then (decimalLength (num / den) : Int) - 1
  else -(zeros 400 num den : Int)
where
  decimalLength (n : Nat) : Nat := (Nat.toDigits 10 n).length
  /-- How often `num` is multiplied by ten before it reaches `den`. -/
  zeros : Nat → Nat → Nat → Nat
    | 0, _, _ => 0
    | fuel + 1, num, den => if den ≤ num then 0 else zeros fuel (num * 10) den + 1

/-- The point of the grid of step `10 ^ exponent` in the interval and nearest to the value. -/
def onGrid (b : Binary) (exponent : Int) : Option Scaled :=
  let (_, value, _) := b.interval
  let (num, den) := b.quarter
  let up := Nat.pow 10 exponent.toNat
  let down := Nat.pow 10 (-exponent).toNat
  let floor := value * num * down / (den * up)
  let below : Scaled := ⟨floor, exponent⟩
  let above : Scaled := ⟨floor + 1, exponent⟩
  match roundsTo below b, roundsTo above b with
  | true, false => some below
  | false, true => some above
  | false, false => none
  | true, true =>
    -- Twice the value against the sum of both neighbours; a tie goes to the even one.
    match compareRatio (2 * value * num) den ((2 * floor + 1) * up) down with
    | .lt => some below
    | .gt => some above
    | .eq => some (if floor % 2 = 0 then below else above)

/-- The shortest decimal that reads back as `b`. -/
def shortest (b : Binary) : Scaled :=
  let (_, value, _) := b.interval
  let (num, den) := b.quarter
  let top := leading (value * num) den
  ((List.range 17).findSome? fun (n : Nat) => onGrid b (top - n)).getD ⟨b.mantissa, 0⟩

/-- Decimal digits without the zeros at their end, and the exponent of the first digit. -/
def Scaled.significant (s : Scaled) : List Char × Int :=
  let digits := Nat.toDigits 10 s.digits
  ((digits.reverse.dropWhile (· == '0')).reverse, s.exponent + (digits.length : Int) - 1)

end EcmaTree.Decimal
