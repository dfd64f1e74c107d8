import CoordTransform.Transform.Basic

/-!
# Homogeneous Matrices of Transforms

The matrix of a transform that is made of matrices. The divisor of a projective inner transform
does not apply to the components that pass it by, so that such a pass-through has no matrix.
-/

namespace CoordTransform.Transform

variable {α : Type} [Scalar α]

/-- The affine matrix `inner` between `leading` components before it and `trailing` ones after
it. -/
def embed (leading : Nat) (inner : DenseMatrix α) (trailing : Nat) : DenseMatrix α :=
  let source := inner.cols - 1
  let target := inner.rows - 1
  let rows := leading + target + trailing + 1
  let cols := leading + source + trailing + 1
  .ofFn rows cols fun r c =>
    if r < leading then
      if c == r then 1 else 0
    else if r < leading + target then
      if c == cols - 1 then inner.entry (r - leading) source
      else if leading ≤ c && c < leading + source then inner.entry (r - leading) (c - leading)
      else 0
    else if r + 1 < rows then
      if c + target == r + source then 1 else 0
    else if c == cols - 1 then 1 else 0

/-- The homogeneous matrix of a transform, if it has one. -/
def toMatrix? : Transform α → Option (DenseMatrix α)
  | affine a => some a.toMatrix
  | linear m => some m
  | concatenated first second => do
    let n ← second.toMatrix?
    let m ← first.toMatrix?
    (n.multiply m).toOption
  | passThrough leading inner trailing => do
    let m ← inner.toMatrix?
    if m.isAffine then some (embed leading m trailing) else none
  | operation _ => none
  | inverseOperation _ => none

end CoordTransform.Transform
