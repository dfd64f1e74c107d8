import Mathlib
import CoordTransform.Scalar

/-!
# Exact Arithmetic

The laws of scalars without rounding. `Scalar.Exact` says that the operations of a scalar type are
those of a field, that every value is finite, and that the tests decide equality. Doubles do not
satisfy it; it is the reading under which the identities of the transforms are exact.

Only two facts about the order are needed: no absolute value lies below that of zero, and only
zero has an absolute value that does not exceed it. Every ordered field has them. The choice of a
pivot needs a third one, which `Scalar.Definite` adds: the strict comparison, too, tells every
other value from zero.
-/

namespace CoordTransform

/-! ## The laws -/

/-- The operations are those of a field, nothing overflows, and the tests decide equality.
Division by zero gives zero, as in every total field. -/
class Scalar.Exact (α : Type) [Scalar α] : Prop where
  add_assoc (x y z : α) : x + y + z = x + (y + z)
  add_comm (x y : α) : x + y = y + x
  add_zero (x : α) : x + 0 = x
  add_neg (x : α) : x + -x = 0
  sub_eq (x y : α) : x - y = x + -y
  mul_assoc (x y z : α) : x * y * z = x * (y * z)
  mul_comm (x y : α) : x * y = y * x
  mul_one (x : α) : x * 1 = x
  mul_add (x y z : α) : x * (y + z) = x * y + x * z
  one_ne_zero : (1 : α) ≠ 0
  mul_reciprocal {x : α} (hx : x ≠ 0) : x * (1 / x) = 1
  div_eq (x y : α) : x / y = x * (1 / y)
  div_zero (x : α) : x / 0 = 0
  isFinite_eq (x : α) : Scalar.isFinite x = true
  numEq_iff (x y : α) : Scalar.numEq x y = true ↔ x = y
  same_iff (x y : α) : Scalar.same x y = true ↔ x = y
  abs_le_zero_iff (x : α) : Scalar.numLe (Scalar.abs x) (Scalar.abs 0) = true ↔ x = 0
  abs_not_lt_zero (x : α) : Scalar.numLt (Scalar.abs x) (Scalar.abs 0) = false

/-- Equality of representations is equality, and the entries of identity matrices are equal to
themselves. Doubles satisfy this as well. -/
class Scalar.Discrete (α : Type) [Scalar α] : Prop where
  same_iff (x y : α) : Scalar.same x y = true ↔ x = y
  numEq_zero : Scalar.numEq (0 : α) 0 = true
  numEq_one : Scalar.numEq (1 : α) 1 = true

/-- Every value but zero has an absolute value above that of zero. -/
class Scalar.Definite (α : Type) [Scalar α] : Prop where
  abs_zero_lt {x : α} (hx : x ≠ 0) : Scalar.numLt (Scalar.abs 0) (Scalar.abs x) = true

/-- The value of a count is that many ones, and it is zero for no count but zero. In exact
arithmetic this is characteristic zero. -/
class Scalar.Counting (α : Type) [Scalar α] : Prop where
  ofNat_zero : (Scalar.ofNat 0 : α) = 0
  ofNat_succ (n : Nat) : (Scalar.ofNat (n + 1) : α) = Scalar.ofNat n + 1
  ofNat_ne_zero {n : Nat} (hn : n ≠ 0) : (Scalar.ofNat n : α) ≠ 0

namespace Scalar

variable {α : Type} [Scalar α]

@[simp] theorem same_iff_eq [Discrete α] (x y : α) : same x y = true ↔ x = y :=
  Discrete.same_iff x y

variable [Exact α]

instance (priority := 50) Exact.toDiscrete : Discrete α where
  same_iff := Exact.same_iff
  numEq_zero := (Exact.numEq_iff 0 0).2 rfl
  numEq_one := (Exact.numEq_iff 1 1).2 rfl

/-! ## The field -/

/-- Zero absorbs: `x * 0 + x * 0 = x * 0`. -/
theorem Exact.mul_zero (x : α) : x * 0 = 0 := by
  have hdouble : x * 0 + x * 0 = x * 0 + 0 := by
    rw [← Exact.mul_add, Exact.add_zero, Exact.add_zero]
  have hcancel := congrArg (· + -(x * 0)) hdouble
  simpa only [Exact.add_assoc, Exact.add_neg, Exact.add_zero] using hcancel

/-- Exact scalars as a field, with the operations of the scalars. -/
instance (priority := 50) Exact.toField : Field α where
  add_assoc := Exact.add_assoc
  add_comm := Exact.add_comm
  zero_add x := by rw [Exact.add_comm, Exact.add_zero]
  add_zero := Exact.add_zero
  neg_add_cancel x := by rw [Exact.add_comm, Exact.add_neg]
  sub_eq_add_neg := Exact.sub_eq
  mul_assoc := Exact.mul_assoc
  mul_comm := Exact.mul_comm
  one_mul x := by rw [Exact.mul_comm, Exact.mul_one]
  mul_one := Exact.mul_one
  left_distrib := Exact.mul_add
  right_distrib x y z := by
    rw [Exact.mul_comm, Exact.mul_add, Exact.mul_comm z x, Exact.mul_comm z y]
  zero_mul x := by rw [Exact.mul_comm, Exact.mul_zero]
  mul_zero := Exact.mul_zero
  inv x := 1 / x
  div_eq_mul_inv := Exact.div_eq
  mul_inv_cancel _ := Exact.mul_reciprocal
  inv_zero := Exact.div_zero 1
  exists_pair_ne := ⟨1, 0, Exact.one_ne_zero⟩
  nsmul := nsmulRec
  zsmul := zsmulRec
  nnqsmul := _
  qsmul := _

/-- Counts are those of the field. -/
theorem ofNat_eq_cast [Counting α] (n : Nat) : (ofNat n : α) = n := by
  induction n with
  | zero => rw [Counting.ofNat_zero, Nat.cast_zero]
  | succ n ih => rw [Counting.ofNat_succ, ih, Nat.cast_succ]

/-! ## Tests -/

@[simp] theorem isFinite_eq_true (x : α) : isFinite x = true := Exact.isFinite_eq x

@[simp] theorem isZero_iff (x : α) : isZero x = true ↔ x = 0 := Exact.numEq_iff x 0

@[simp] theorem isZero_eq_false_iff (x : α) : isZero x = false ↔ x ≠ 0 := by
  rw [← Bool.not_eq_true, isZero_iff]

@[simp] theorem numEq_iff_eq (x y : α) : numEq x y = true ↔ x = y := Exact.numEq_iff x y

/-- The test for a projective divisor or a determinant fails only at zero. -/
theorem isUsable_iff (x : α) : (isZero x || !isFinite x) = true ↔ x = 0 := by
  simp

/-- Within no tolerance, only equal values. -/
theorem within_zero_iff (x y : α) : within (abs 0) x y = true ↔ x = y := by
  unfold within
  rw [Exact.abs_le_zero_iff, sub_eq_zero]

end Scalar

end CoordTransform
