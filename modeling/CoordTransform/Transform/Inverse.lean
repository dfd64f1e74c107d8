import CoordTransform.Affine.Inverse
import CoordTransform.DenseMatrix.Inverse
import CoordTransform.Transform.Basic

/-!
# Inverses of Transforms

The inverse of a concatenation is the concatenation of the inverses in reverse order. Identities
are their own inverses, and an inverted operation gives the operation back. When some part has no
inverse, the whole has none, for the reason of the part.
-/

namespace CoordTransform.Transform

variable {α : Type} [Scalar α]

/-- The inverse of a transform that is not an identity. -/
def inverse (t : Transform α) : Except (TransformError α) (Transform α) :=
  if t.isIdentity then .ok t
  else
    (match t with
    | affine a => do return affine (← a.inverse)
    | linear m => do linear? (← m.inverse)
    | concatenated first second => do
      let s ← second.inverse
      let f ← first.inverse
      concatenate s f
    | passThrough leading inner trailing => do
      return passThrough leading (← inner.inverse) trailing
    | operation op =>
      if op.isInvertible then .ok (inverseOperation op) else .error (.noInverse op.method)
    | inverseOperation op => .ok (operation op)).mapError TransformError.asNonInvertible

/-- Whether a transform has an inverse. -/
def isInvertible (t : Transform α) : Bool := t.inverse.toBool

end CoordTransform.Transform
