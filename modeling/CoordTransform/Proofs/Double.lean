import CoordTransform.Scalar.Double
import CoordTransform.Proofs.ExactArithmetic

/-!
# Doubles Have Distinct Representations

The operations of doubles round, so that few laws of arithmetic hold of them. But a double is
determined by its bits, and `same` compares nothing else: it tells `-0` from `0`, and takes an
undefined value as the same as itself.
-/

namespace CoordTransform.Double

theorem eq_of_toBits {x y : Float} (h : x.toBits = y.toBits) : x = y := by
  obtain ⟨⟨bits, valid⟩⟩ := x
  obtain ⟨⟨bits', valid'⟩⟩ := y
  cases h
  rfl

instance : Scalar.Discrete Float where
  same_iff x y := by
    change (x.toBits == y.toBits) = true ↔ x = y
    rw [beq_iff_eq]
    exact ⟨eq_of_toBits, congrArg Float.toBits⟩
  numEq_zero := by decide
  numEq_one := by decide

end CoordTransform.Double
