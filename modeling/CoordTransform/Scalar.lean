/-!
# Scalars

Coordinates, coefficients and parameters are scalars. The library is written once over the
operations below. Programs run it on doubles; theorems may also read it over exact arithmetic,
where rounding plays no part.

* `Scalar` has the arithmetic, the comparisons and the tests that the transforms need.
* `Numeral` adds the texts of scalars, for elements and messages.
-/

namespace CoordTransform

/-! ## Arithmetic -/

/-- Arithmetic with a test for finite values and two notions of equality: `numEq` compares
values, `same` compares representations and tells `0` from `-0`. -/
class Scalar (α : Type) extends Zero α, One α, Add α, Sub α, Mul α, Neg α, Div α where
  /-- Neither infinite nor undefined. -/
  isFinite : α → Bool
  /-- The undefined value, which stands for a missing ordinate. -/
  undefined : α
  /-- Whether a value is undefined. -/
  isUndefined : α → Bool
  /-- Greater than every finite value. -/
  infinity : α
  /-- Equality of representations. -/
  same : α → α → Bool
  /-- Equality of values. -/
  numEq : α → α → Bool
  /-- `x < y` as values. -/
  numLt : α → α → Bool
  /-- `x ≤ y` as values. -/
  numLe : α → α → Bool
  /-- The absolute value. -/
  abs : α → α
  /-- The nearest integer, a half away from zero. -/
  round : α → α
  /-- The value of a natural number. -/
  ofNat : Nat → α
  /-- The natural number that a value is, if it is one. -/
  toNat? : α → Option Nat

namespace Scalar

variable {α : Type} [Scalar α]

/-- Whether a value is zero, of either sign. -/
def isZero (x : α) : Bool := numEq x 0

/-- The smaller of two values; an undefined operand is ignored. -/
def least (x y : α) : α :=
  if isUndefined x then y else if isUndefined y then x else if numLt y x then y else x

/-- The greater of two values; an undefined operand is ignored. -/
def greatest (x y : α) : α :=
  if isUndefined x then y else if isUndefined y then x else if numLt x y then y else x

/-- Whether two values differ by at most a tolerance. -/
def within (tolerance x y : α) : Bool := numLe (abs (x - y)) tolerance

end Scalar

/-! ## Texts -/

/-- Scalars that can be written and read. -/
class Numeral (α : Type) extends Scalar α where
  /-- The plain decimal text. -/
  text : α → String
  /-- The text of a list of scalars in a message. -/
  listText : List α → String
  /-- Reads a whole text as a scalar. -/
  read? : List Char → Option α

end CoordTransform
