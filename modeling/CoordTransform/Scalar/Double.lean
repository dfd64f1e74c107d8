import CoordTransform.Decimal.Layout
import CoordTransform.Decimal.Reading
import CoordTransform.Scalar

/-!
# Doubles as Scalars

IEEE 754 doubles. Comparisons with `NaN` are false, `same` compares bits, and numbers are
written as their shortest decimals.
-/

namespace CoordTransform.Double

/-! ## Whole numbers -/

/-- From here on every double is a whole number. -/
def wholeFrom : Float := 4503599627370496

/-- The whole part of a magnitude below `2 ^ 63`. -/
def wholePart (x : Float) : Float := x.toUInt64.toFloat

/-- Gives a magnitude the sign of `x`, also when it is zero. -/
def withSignOf (x magnitude : Float) : Float :=
  if (x.toBits.toNat >>> 63) % 2 == 1 then -magnitude else magnitude

/-- Rounds toward zero. -/
def truncate (x : Float) : Float :=
  if x.abs < wholeFrom then withSignOf x (wholePart x.abs) else x

/-- Rounds to the nearest integer, a half away from zero. -/
def roundHalfAway (x : Float) : Float :=
  if x.abs < wholeFrom then
    let whole := wholePart x.abs
    withSignOf x (if 0.5 ≤ x.abs - whole then whole + 1 else whole)
  else x

/-- The natural number that a double is, if it is one. -/
def toNat? (x : Float) : Option Nat :=
  match Decimal.Parts.ofFloat x with
  | .finite negative b =>
    if b.significand == 0 then some 0
    else if negative then none
    else
      let n := b.significand <<< b.exponent.toNat
      let d := 1 <<< (-b.exponent).toNat
      if n % d == 0 then some (n / d) else none
  | _ => none

/-! ## Instances -/

instance : Scalar Float where
  zero := 0
  one := 1
  isFinite := Float.isFinite
  undefined := 0 / 0
  isUndefined := Float.isNaN
  infinity := 1 / 0
  same x y := x.toBits == y.toBits
  numEq x y := x == y
  numLt x y := x < y
  numLe x y := x ≤ y
  abs := Float.abs
  round := roundHalfAway
  ofNat := Float.ofNat
  toNat? := toNat?

instance : Numeral Float where
  text := Decimal.plain
  listText := Decimal.listText
  read? := Decimal.readFloat?

end CoordTransform.Double
