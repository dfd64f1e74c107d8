import CoordTransform.Affine.Basic

/-!
# Rounding of Affine Maps

Repeated composition leaves coefficients that are almost whole. Rounding replaces all six of them
by whole numbers or none: every coefficient must be within the tolerance of a whole number, and
neither row of the rounded linear part may vanish.
-/

namespace CoordTransform.Affine

variable {α : Type} [Scalar α]

/-- All six coefficients rounded, if each is within the tolerance of a whole number. -/
def roundedCoefficients? (c : AffineCoefficients α) (tolerance : α) :
    Option (AffineCoefficients α) :=
  let rounded : AffineCoefficients α :=
    ⟨Scalar.round c.m00, Scalar.round c.m01, Scalar.round c.m02,
     Scalar.round c.m10, Scalar.round c.m11, Scalar.round c.m12⟩
  if (c.toList.zip rounded.toList).all fun p => Scalar.within tolerance p.1 p.2 then
    some rounded
  else none

/-- Whether some row of the linear part is zero. -/
def hasZeroRow (c : AffineCoefficients α) : Bool :=
  (Scalar.isZero c.m00 && Scalar.isZero c.m01) || (Scalar.isZero c.m10 && Scalar.isZero c.m11)

/-- The map with whole coefficients next to `a`, or `a` itself. -/
def round (a : Affine α) (tolerance : α) : Affine α :=
  match roundedCoefficients? a.toAffineCoefficients (Scalar.abs tolerance) with
  | some c => if hasZeroRow c then a else ofCoefficients c
  | none => a

end CoordTransform.Affine
