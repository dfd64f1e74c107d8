import CoordTransform.Transform.Basic

/-!
# Images of Points

Applying a transform to a point. A point of the wrong length has no image; neither has one on
which a projective divisor is zero or not finite, nor one that an operation refuses.
-/

namespace CoordTransform.Transform

variable {α : Type} [Scalar α]

/-! ## Homogeneous matrices -/

/-- A row of a homogeneous matrix applied to a point. The last column starts the sum. -/
def rowValue (m : DenseMatrix α) (r : Nat) (p : List α) : α :=
  (p.zipIdx).foldl (fun sum x => sum + m.entry r x.2 * x.1) (m.entry r (m.cols - 1))

/-- The image under a homogeneous matrix: all rows divided by the last one. -/
def applyMatrix (m : DenseMatrix α) (p : List α) : Except (TransformError α) (List α) :=
  let w := rowValue m (m.rows - 1) p
  if Scalar.isZero w || !Scalar.isFinite w then .error (.outOfDomain (.divisor w p))
  else .ok ((List.range (m.rows - 1)).map fun r => rowValue m r p / w)

/-! ## All forms -/

/-- The image of a point whose length is known to be right. -/
def image : Transform α → List α → Except (TransformError α) (List α)
  | affine a, [x, y] =>
    let q := a.apply ⟨x, y⟩
    .ok [q.x, q.y]
  | affine _, p => .error (.dimensionMismatch .input 2 p.length)
  | linear m, p => applyMatrix m p
  | concatenated first second, p => do
    let q ← first.image p
    second.image q
  | passThrough leading inner _, p => do
    let affected := p.drop leading
    let q ← inner.image (affected.take inner.sourceDim)
    return p.take leading ++ q ++ affected.drop inner.sourceDim
  | operation op, p => op.forward p
  | inverseOperation op, p => op.backward p

/-- The image of a point; its length must be the source dimension. -/
def apply (t : Transform α) (p : List α) : Except (TransformError α) (List α) :=
  if p.length == t.sourceDim then t.image p
  else .error (.dimensionMismatch .input t.sourceDim p.length)

/-- The image of a point of the plane under a transform into the plane. -/
def applyPoint (t : Transform α) (p : Point α) : Except (TransformError α) (Point α) :=
  match t with
  | affine a => .ok (a.apply p)
  | _ => do
    if t.targetDim != 2 then throw (.dimensionMismatch .output 2 t.targetDim)
    match ← t.apply [p.x, p.y] with
    | [x, y] => return ⟨x, y⟩
    | q => throw (.dimensionMismatch .output 2 q.length)

end CoordTransform.Transform
