import CoordTransform.DenseMatrix.Basic

/-!
# Sums, Products and Transposes

Every operation checks the shapes of its operands. The order of the additions in a product is
fixed: the first product starts the sum, and every later product is added to its left.
-/

namespace CoordTransform.DenseMatrix

variable {α : Type} [Scalar α]

/-! ## Transposes -/

/-- Rows and columns exchanged. -/
def transpose (m : DenseMatrix α) : DenseMatrix α := ofFn m.cols m.rows fun r c => m.entry c r

/-! ## Sums -/

/-- Fails with the shape of `n` unless `n` has the shape of `m`. -/
def requireShapeOf (m n : DenseMatrix α) : Except (TransformError α) Unit :=
  if m.sameShape n then .ok () else .error (n.shapeError (.exactly m.rows m.cols))

/-- The sum of two matrices of the same shape. -/
def add (m n : DenseMatrix α) : Except (TransformError α) (DenseMatrix α) := do
  m.requireShapeOf n
  return ofFn m.rows m.cols fun r c => m.entry r c + n.entry r c

/-! ## Products -/

/-- The sum of the products `f k * g k` for `k < n`. -/
def sumProducts (n : Nat) (f g : Nat → α) : α :=
  match n with
  | 0 => 0
  | n + 1 => (List.range' 1 n).foldl (fun sum k => f k * g k + sum) (f 0 * g 0)

/-- The entries of the product, whatever the shapes. The sums are taken in order at every size; a
library that sums in blocks, as is usual where all three sizes are above 5, may round otherwise. -/
def product (m n : DenseMatrix α) : DenseMatrix α :=
  ofFn m.rows n.cols fun r c => sumProducts m.cols (fun k => m.entry r k) fun k => n.entry k c

/-- The product of two matrices; the second needs as many rows as the first has columns. -/
def multiply (m n : DenseMatrix α) : Except (TransformError α) (DenseMatrix α) :=
  if m.cols != n.rows then .error (n.shapeError (.rowCount m.cols)) else .ok (m.product n)

end CoordTransform.DenseMatrix
