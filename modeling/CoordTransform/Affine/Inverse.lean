import CoordTransform.Affine.Basic

/-!
# Inverses of Affine Maps

An affine map is singular when its determinant is zero or not finite, unless the coefficients of
its inverse are known. The inverse of a map knows the map it came from.
-/

namespace CoordTransform

variable {α : Type} [Scalar α]

/-! ## Coefficients of the inverse -/

/-- The coefficients of the inverse by Cramer's rule. -/
def AffineCoefficients.inverse? (c : AffineCoefficients α) : Option (AffineCoefficients α) :=
  let d := c.determinant
  if Scalar.isZero d || !Scalar.isFinite d then none
  else some
    ⟨c.m11 / d, -c.m01 / d, (c.m01 * c.m12 - c.m02 * c.m11) / d,
     -c.m10 / d, c.m00 / d, (c.m02 * c.m10 - c.m00 * c.m12) / d⟩

namespace Affine

/-- The coefficients of the inverse: those that are known, or else the computed ones. -/
def inverseCoefficients (a : Affine α) : Except (TransformError α) (AffineCoefficients α) :=
  match a.knownInverse <|> a.toAffineCoefficients.inverse? with
  | some c => .ok c
  | none => .error .singularMatrix

/-! ## Inverse maps -/

/-- The inverse map, which knows the coefficients of `a` as those of its own inverse. -/
def inverse (a : Affine α) : Except (TransformError α) (Affine α) := do
  let c ← a.inverseCoefficients
  return { c with knownInverse := some a.toAffineCoefficients }

/-- Whether a map has an inverse. -/
def isInvertible (a : Affine α) : Bool := a.inverseCoefficients.toBool

/-- The point whose image is `p`. -/
def applyInverse (a : Affine α) (p : Point α) : Except (TransformError α) (Point α) := do
  let c ← a.inverseCoefficients
  return c.apply p

/-- The box around the points whose images are the corners. -/
def applyInverseBox (a : Affine α) (b : BoundingBox α) :
    Except (TransformError α) (BoundingBox α) := do
  let i ← a.inverse
  return i.applyBox b

end Affine

end CoordTransform
