/-!
# Decimal Fractions

The numbers `digits * 10 ^ exponent`, between the texts of numbers and the doubles.
-/

namespace CoordTransform.Decimal

/-- The decimal fraction `digits * 10 ^ exponent`. -/
structure Fraction where
  digits : Nat
  exponent : Int
  deriving DecidableEq, Repr

namespace Fraction

/-- Moves trailing zeros of the digits into the exponent, at most `n` of them. -/
def stripZeros : Nat → Fraction → Fraction
  | 0, d => d
  | n + 1, d =>
    if d.digits != 0 && d.digits % 10 == 0 then stripZeros n ⟨d.digits / 10, d.exponent + 1⟩
    else d

end Fraction

end CoordTransform.Decimal
