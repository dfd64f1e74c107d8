import Mathlib
import CoordTransform.Affine.Inverse
import CoordTransform.Proofs.Rational

/-!
# Rational Scalars with Infinities

Boxes are gathered from the empty box, whose corners are infinite, and no field has infinities.
`Extended` adds both of them to the rational numbers, and the undefined value. Its operations are
those of doubles, but exact and with a single zero: finite operands give the finite result, unless
the divisor is zero. So everything that the library computes of finite values without a division
by zero, it computes as it does of rational numbers.
-/

namespace CoordTransform

/-- A rational number, an infinity, or the undefined value. -/
inductive Extended where
  | finite (x : ℚ)
  | infinite (negative : Bool)
  | undefined
  deriving DecidableEq

namespace Extended

/-! ## Arithmetic -/

/-- Infinities of different signs have no sum. -/
def add : Extended → Extended → Extended
  | finite x, finite y => finite (x + y)
  | finite _, infinite n => infinite n
  | infinite n, finite _ => infinite n
  | infinite m, infinite n => if m = n then infinite m else undefined
  | _, _ => undefined

def neg : Extended → Extended
  | finite x => finite (-x)
  | infinite n => infinite !n
  | undefined => undefined

/-- Zero and an infinity have no product. -/
def mul : Extended → Extended → Extended
  | finite x, finite y => finite (x * y)
  | finite x, infinite n => if x = 0 then undefined else infinite (decide (x < 0) != n)
  | infinite n, finite y => if y = 0 then undefined else infinite (n != decide (y < 0))
  | infinite m, infinite n => infinite (m != n)
  | _, _ => undefined

/-- Only zero has no quotient by zero. -/
def div : Extended → Extended → Extended
  | finite x, finite y =>
    if y = 0 then if x = 0 then undefined else infinite (decide (x < 0)) else finite (x / y)
  | finite _, infinite _ => finite 0
  | infinite n, finite y => infinite (n != decide (y < 0))
  | _, _ => undefined

def abs : Extended → Extended
  | finite x => finite |x|
  | infinite _ => infinite false
  | undefined => undefined

/-! ## Comparisons -/

/-- The undefined value is neither below nor above anything. -/
def lt : Extended → Extended → Bool
  | finite x, finite y => x < y
  | finite _, infinite n => !n
  | infinite n, finite _ => n
  | infinite m, infinite n => m && !n
  | _, _ => false

def le : Extended → Extended → Bool
  | finite x, finite y => x ≤ y
  | finite _, infinite n => !n
  | infinite n, finite _ => n
  | infinite m, infinite n => m || !n
  | _, _ => false

instance : Scalar Extended where
  zero := finite 0
  one := finite 1
  add := add
  sub x y := add x (neg y)
  mul := mul
  neg := neg
  div := div
  isFinite
    | finite _ => true
    | _ => false
  undefined := undefined
  isUndefined
    | undefined => true
    | _ => false
  infinity := infinite false
  same x y := decide (x = y)
  numEq x y := decide (x = y ∧ x ≠ undefined)
  numLt := lt
  numLe := le
  abs := abs
  round
    | finite x => finite (Rational.roundHalfAway x)
    | x => x
  ofNat n := finite n
  toNat?
    | finite x => Rational.toNat? x
    | _ => none

/-! ## Finite operands -/

variable {x y : ℚ}

theorem finite_neg : -finite x = finite (-x) := rfl

theorem finite_add : finite x + finite y = finite (x + y) := rfl

theorem finite_sub : finite x - finite y = finite (x - y) := by
  rw [sub_eq_add_neg]
  rfl

theorem finite_mul : finite x * finite y = finite (x * y) := rfl

theorem finite_div (hy : y ≠ 0) : finite x / finite y = finite (x / y) := if_neg hy

theorem isZero_finite : Scalar.isZero (finite x) = true ↔ x = 0 := by
  change decide (finite x = finite 0 ∧ finite x ≠ undefined) = true ↔ _
  simp

/-! ## Order -/

/-- What lies below a number lies below every greater number. -/
theorem numLe_trans {a : Extended} (h : Scalar.numLe a (finite x) = true) (hxy : x ≤ y) :
    Scalar.numLe a (finite y) = true := by
  cases a with
  | finite z => exact decide_eq_true ((of_decide_eq_true h).trans hxy)
  | infinite n => exact h
  | undefined => cases h

/-- What lies above a number lies above every smaller number. -/
theorem trans_numLe {a : Extended} (hxy : x ≤ y) (h : Scalar.numLe (finite y) a = true) :
    Scalar.numLe (finite x) a = true := by
  cases a with
  | finite z => exact decide_eq_true (hxy.trans (of_decide_eq_true h))
  | infinite n => exact h
  | undefined => cases h

theorem least_finite : Scalar.least (finite x) (finite y) = finite (Scalar.least x y) :=
  (apply_ite finite _ _ _).symm

theorem greatest_finite : Scalar.greatest (finite x) (finite y) = finite (Scalar.greatest x y) :=
  (apply_ite finite _ _ _).symm

theorem least_infinity : Scalar.least Scalar.infinity (finite x) = finite x := rfl

theorem greatest_neg_infinity : Scalar.greatest (-Scalar.infinity) (finite x) = finite x := rfl

end Extended

end CoordTransform
