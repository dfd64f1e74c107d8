import CoordTransform.DenseMatrix.Arithmetic
import CoordTransform.DenseMatrix.Inverse

/-!
# Results in Place

The operations that put their result in the place of a matrix that is already there. A place
never changes its shape: the operation answers the new content of the place, or an error and the
place keeps its content.
-/

namespace CoordTransform.DenseMatrix

variable {α : Type} [Scalar α]

/-- Fails with the shape of the place unless it is `rows` by `cols`. -/
def requireShape (place : DenseMatrix α) (rows cols : Nat) : Except (TransformError α) Unit :=
  if place.rows == rows && place.cols == cols then .ok ()
  else .error (place.shapeError (.exactly rows cols))

/-- Fails unless the matrix is square. -/
def requireSquare (m : DenseMatrix α) : Except (TransformError α) Unit :=
  if m.isSquare then .ok () else .error (m.shapeError .square)

/-! ## Into another place -/

/-- The transpose of `m`, put into a place. -/
def transposeInto (m place : DenseMatrix α) : Except (TransformError α) (DenseMatrix α) := do
  place.requireShape m.cols m.rows
  return m.transpose

/-- The inverse of `m`, put into a place. -/
def invertInto (m place : DenseMatrix α) : Except (TransformError α) (DenseMatrix α) := do
  place.requireShape m.rows m.cols
  m.inverse

/-- The product of `m` and `n`, put into a place. -/
def multiplyInto (m n place : DenseMatrix α) : Except (TransformError α) (DenseMatrix α) := do
  let p ← m.multiply n
  place.requireShape p.rows p.cols
  return p

/-- The sum of `m` and `n`, put into a place. -/
def addInto (m n place : DenseMatrix α) : Except (TransformError α) (DenseMatrix α) := do
  m.requireShapeOf n
  m.requireShapeOf place
  m.add n

/-! ## Into the first operand -/

/-- A square matrix replaced by its transpose. -/
def transposeSelf (m : DenseMatrix α) : Except (TransformError α) (DenseMatrix α) := do
  m.requireSquare
  return m.transpose

/-- A matrix replaced by its inverse. -/
def invertSelf (m : DenseMatrix α) : Except (TransformError α) (DenseMatrix α) := m.inverse

/-- A matrix replaced by its product with a square matrix. -/
def multiplySelf (m n : DenseMatrix α) : Except (TransformError α) (DenseMatrix α) :=
  if !n.isSquare || n.rows != m.cols then .error (n.shapeError (.exactly m.cols m.cols))
  else .ok (m.product n)

/-- A matrix replaced by its sum with another. -/
def addSelf (m n : DenseMatrix α) : Except (TransformError α) (DenseMatrix α) := m.add n

/-- A matrix replaced by the identity of its shape. -/
def identitySelf (m : DenseMatrix α) : DenseMatrix α := identityRect m.rows m.cols

end CoordTransform.DenseMatrix
