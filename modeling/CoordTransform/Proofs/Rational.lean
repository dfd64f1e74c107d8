import Mathlib
import CoordTransform.Datum.BursaWolf
import CoordTransform.Decimal.Layout
import CoordTransform.Decimal.Reading
import CoordTransform.Proofs.ExactArithmetic

/-!
# Rational Scalars

The rational numbers are exact scalars. There is no infinity and no undefined value among them;
zero stands for both. Whole numbers are written as decimals, all others as quotients, which the
number grammar does not read.
-/

namespace CoordTransform.Rational

/-! ## Texts -/

/-- The nearest integer, a half away from zero. -/
def roundHalfAway (x : ℚ) : ℚ := if 0 ≤ x then ⌊x + 1 / 2⌋ else ⌈x - 1 / 2⌉

/-- The natural number that a rational is, if it is one. -/
def toNat? (x : ℚ) : Option Nat := if x.den = 1 ∧ 0 ≤ x.num then some x.num.toNat else none

/-- The decimal of a whole number, or a quotient. -/
def text (x : ℚ) : String :=
  let magnitude := Decimal.digitChars x.num.natAbs ++
    if x.den = 1 then [] else '/' :: Decimal.digitChars x.den
  String.ofList (Decimal.signed (x.num < 0) magnitude)

/-- The value of a text of a number, exactly. -/
def read? (cs : List Char) : Option ℚ :=
  match Decimal.read? cs with
  | some (.finite negative d) =>
    let magnitude : ℚ := d.digits * (10 : ℚ) ^ d.exponent
    some (if negative then -magnitude else magnitude)
  | _ => none

/-! ## Instances -/

instance : Scalar ℚ where
  zero := 0
  one := 1
  isFinite _ := true
  undefined := 0
  isUndefined _ := false
  infinity := 0
  same x y := decide (x = y)
  numEq x y := decide (x = y)
  numLt x y := decide (x < y)
  numLe x y := decide (x ≤ y)
  abs x := |x|
  round := roundHalfAway
  ofNat n := n
  toNat? := toNat?

instance : Numeral ℚ where
  text := text
  listText xs := "[" ++ String.intercalate ", " (xs.map text) ++ "]"
  read? := read?

instance : Scalar.Exact ℚ where
  add_assoc := Rat.add_assoc
  add_comm := Rat.add_comm
  add_zero := Rat.add_zero
  add_neg := Rat.add_neg_cancel
  sub_eq := Rat.sub_eq_add_neg
  mul_assoc := Rat.mul_assoc
  mul_comm := Rat.mul_comm
  mul_one := Rat.mul_one
  mul_add := Rat.mul_add
  one_ne_zero := (by decide : (1 : ℚ) ≠ 0)
  mul_reciprocal {x} hx := by
    change x * ((1 : ℚ) / x) = 1
    exact mul_one_div_cancel hx
  div_eq x y := by
    change x / y = x * ((1 : ℚ) / y)
    rw [mul_one_div]
  div_zero x := by
    change x / (0 : ℚ) = 0
    rw [div_eq_mul_inv, inv_zero, mul_zero]
  isFinite_eq _ := rfl
  numEq_iff x y := decide_eq_true_iff
  same_iff x y := decide_eq_true_iff
  abs_le_zero_iff x := by
    change decide (|x| ≤ |(0 : ℚ)|) = true ↔ x = 0
    rw [decide_eq_true_iff, abs_zero, abs_nonpos_iff]
  abs_not_lt_zero x := by
    change decide (|x| < |(0 : ℚ)|) = false
    rw [decide_eq_false_iff_not, abs_zero, not_lt]
    exact abs_nonneg x

instance : Scalar.Definite ℚ where
  abs_zero_lt {x} hx := by
    change decide (|(0 : ℚ)| < |x|) = true
    rw [decide_eq_true_iff, abs_zero, abs_pos]
    exact hx

instance : Scalar.Counting ℚ where
  ofNat_zero := Nat.cast_zero
  ofNat_succ := Nat.cast_succ
  ofNat_ne_zero := Nat.cast_ne_zero.2

/-! ## Order -/

theorem least_eq_min (x y : ℚ) : Scalar.least x y = min x y := by
  change (if decide (y < x) = true then y else x) = _
  simp only [decide_eq_true_iff]
  split
  · next h => exact (min_eq_right h.le).symm
  · next h => exact (min_eq_left (not_lt.1 h)).symm

theorem greatest_eq_max (x y : ℚ) : Scalar.greatest x y = max x y := by
  change (if decide (x < y) = true then y else x) = _
  simp only [decide_eq_true_iff]
  split
  · next h => exact (max_eq_right h.le).symm
  · next h => exact (max_eq_left (not_lt.1 h)).symm

/-! ## Angles -/

/-- A rational number close to the arc-second. -/
instance : Angular ℚ where
  arcSecond := 1 / 206265

end CoordTransform.Rational
