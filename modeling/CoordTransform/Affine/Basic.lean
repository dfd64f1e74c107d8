import CoordTransform.BoundingBox
import CoordTransform.DenseMatrix.Basic

/-!
# Affine Maps of the Plane

The maps `(x, y) ↦ (m₀₀ x + m₀₁ y + m₀₂, m₁₀ x + m₁₁ y + m₁₂)`.

An affine map that was made as the inverse of another one remembers the coefficients it is the
inverse of. Inverting it gives exactly these back, without a second computation. The memory is no
part of the map: two affine maps are the same when their six coefficients are.
-/

namespace CoordTransform

/-- The six coefficients of an affine map, by rows. -/
structure AffineCoefficients (α : Type) where
  m00 : α
  m01 : α
  m02 : α
  m10 : α
  m11 : α
  m12 : α
  deriving Repr, DecidableEq

/-- An affine map, with the coefficients of its inverse when these are known. -/
structure Affine (α : Type) extends AffineCoefficients α where
  knownInverse : Option (AffineCoefficients α) := none
  deriving Repr, DecidableEq

namespace AffineCoefficients

variable {α : Type} [Scalar α]

/-! ## Coefficients -/

/-- The coefficients as a list, by rows. -/
def toList (c : AffineCoefficients α) : List α := [c.m00, c.m01, c.m02, c.m10, c.m11, c.m12]

/-- The image of a point. -/
def apply (c : AffineCoefficients α) (p : Point α) : Point α :=
  ⟨c.m00 * p.x + c.m01 * p.y + c.m02, c.m10 * p.x + c.m11 * p.y + c.m12⟩

/-- The determinant of the linear part. -/
def determinant (c : AffineCoefficients α) : α := c.m00 * c.m11 - c.m01 * c.m10

/-- The coefficients of the identity. -/
def identity : AffineCoefficients α := ⟨1, 0, 0, 0, 1, 0⟩

end AffineCoefficients

namespace Affine

variable {α : Type} [Scalar α]

/-! ## Construction -/

/-- The map with the given coefficients. -/
def ofCoefficients (c : AffineCoefficients α) : Affine α := { c with }

/-- The identity. -/
def identity : Affine α := ofCoefficients .identity

/-- The displacement by a vector. -/
def displacement (dx dy : α) : Affine α := ofCoefficients ⟨1, 0, dx, 0, 1, dy⟩

/-- The scaling of both axes about the origin. -/
def scale (sx sy : α) : Affine α := ofCoefficients ⟨sx, 0, 0, 0, sy, 0⟩

/-- The rotation about the origin by the angle with the given sine and cosine. -/
def rotation (sine cosine : α) : Affine α := ofCoefficients ⟨cosine, -sine, 0, sine, cosine, 0⟩

/-! ## Matrices -/

/-- Whether a matrix is a 3x3 matrix with last row `[0 0 1]`. -/
def isPlaneMatrix (m : DenseMatrix α) : Bool := m.rows == 3 && m.cols == 3 && m.isAffine

/-- The map of a 3x3 matrix with last row `[0 0 1]`. -/
def ofMatrix (m : DenseMatrix α) : Except (TransformError α) (Affine α) :=
  if isPlaneMatrix m then
    .ok (ofCoefficients ⟨m.entry 0 0, m.entry 0 1, m.entry 0 2, m.entry 1 0, m.entry 1 1,
      m.entry 1 2⟩)
  else .error (m.shapeError .affinePlane)

/-- The homogeneous matrix of a map. -/
def toMatrix (a : Affine α) : DenseMatrix α :=
  .ofFn 3 3 fun r c =>
    match r, c with
    | 0, 0 => a.m00
    | 0, 1 => a.m01
    | 0, _ => a.m02
    | 1, 0 => a.m10
    | 1, 1 => a.m11
    | 1, _ => a.m12
    | _, 2 => 1
    | _, _ => 0

/-! ## Application and composition -/

/-- The composite that applies `b` first and `a` second. -/
def compose (a b : Affine α) : Affine α :=
  ofCoefficients
    ⟨a.m00 * b.m00 + a.m01 * b.m10,
     a.m00 * b.m01 + a.m01 * b.m11,
     a.m00 * b.m02 + a.m01 * b.m12 + a.m02,
     a.m10 * b.m00 + a.m11 * b.m10,
     a.m10 * b.m01 + a.m11 * b.m11,
     a.m10 * b.m02 + a.m11 * b.m12 + a.m12⟩

/-- The image of a point. -/
def apply (a : Affine α) (p : Point α) : Point α := a.toAffineCoefficients.apply p

/-- The box around the images of the corners; an empty box stays as it is. -/
def applyBox (a : Affine α) (b : BoundingBox α) : BoundingBox α :=
  if b.isEmpty then b else .ofPoints (b.corners.map a.apply)

/-! ## Tests -/

/-- Whether a map is the identity up to a tolerance. -/
def isIdentity (a : Affine α) (tolerance : α) : Bool :=
  (a.toList.zip (AffineCoefficients.identity (α := α)).toList).all fun p =>
    Scalar.within (Scalar.abs tolerance) p.1 p.2

/-- Whether two maps have the same coefficients. -/
def same (a b : Affine α) : Bool :=
  (a.toList.zip b.toList).all fun p => Scalar.same p.1 p.2

end Affine

end CoordTransform
