import CoordTransform.Affine.Basic
import CoordTransform.DenseMatrix.Arithmetic
import CoordTransform.Parameters

/-!
# Transforms

A transform maps points with `sourceDim` components to points with `targetDim` components. There
are six forms:

* `affine`: an affine map of the plane;
* `linear`: a homogeneous matrix, with a projective division when its last row asks for it;
* `concatenated`: the first transform, then the second;
* `passThrough`: the inner transform on the components from `leading` on, all others copied;
* `operation`: the map of an operation method;
* `inverseOperation`: the backward map of an operation.

The constructors of the type check nothing; `ofMatrix` and `concatenate` build only transforms
whose parts fit together.
-/

namespace CoordTransform

/-! ## Operations -/

/-- A map that an operation method made from parameters. Operations are recognised by the name of
their method and their parameters. -/
structure Operation (α : Type) where
  method : String
  parameters : Parameters α
  sourceDim : Nat
  targetDim : Nat
  forward : List α → Except (TransformError α) (List α)
  backward? : Option (List α → Except (TransformError α) (List α))

namespace Operation

variable {α : Type}

/-- Whether an operation has a backward map. -/
def isInvertible (o : Operation α) : Bool := o.backward?.isSome

/-- The backward map; an operation without one has no backward images. -/
def backward (o : Operation α) (p : List α) : Except (TransformError α) (List α) :=
  match o.backward? with
  | some f => f p
  | none => .error (.noInverse o.method)

/-- Whether two operations come from the same method with the same parameters. -/
def same [Scalar α] (o p : Operation α) : Bool :=
  o.method == p.method && o.parameters.same p.parameters

end Operation

/-! ## The six forms -/

/-- A transform of points. -/
inductive Transform (α : Type) where
  | affine (map : Affine α)
  | linear (matrix : DenseMatrix α)
  | concatenated (first second : Transform α)
  | passThrough (leading : Nat) (inner : Transform α) (trailing : Nat)
  | operation (op : Operation α)
  | inverseOperation (op : Operation α)

namespace Transform

variable {α : Type}

/-- The number of components of the points a transform applies to. -/
def sourceDim : Transform α → Nat
  | affine _ => 2
  | linear m => m.cols - 1
  | concatenated first _ => first.sourceDim
  | passThrough leading inner trailing => leading + inner.sourceDim + trailing
  | operation op => op.sourceDim
  | inverseOperation op => op.targetDim

/-- The number of components of the images. -/
def targetDim : Transform α → Nat
  | affine _ => 2
  | linear m => m.rows - 1
  | concatenated _ second => second.targetDim
  | passThrough leading inner trailing => leading + inner.targetDim + trailing
  | operation op => op.targetDim
  | inverseOperation op => op.sourceDim

/-- The affine map that a transform is, if it is one. -/
def asAffine? : Transform α → Option (Affine α)
  | affine a => some a
  | _ => none

variable [Scalar α]

/-! ## Construction -/

/-- A homogeneous matrix of any shape as a transform that stays a matrix. -/
def linear? (m : DenseMatrix α) : Except (TransformError α) (Transform α) :=
  if m.rows < 2 || m.cols < 2 then .error (m.shapeError .atLeastTwo) else .ok (linear m)

/-- The transform of a homogeneous matrix: an affine map when the matrix is one of the plane. -/
def ofMatrix (m : DenseMatrix α) : Except (TransformError α) (Transform α) :=
  if Affine.isPlaneMatrix m then return affine (← Affine.ofMatrix m) else linear? m

/-- The identity of a space. -/
def identity (dimensions : Nat) : Except (TransformError α) (Transform α) :=
  if dimensions == 2 then .ok (affine .identity) else ofMatrix (.identity (dimensions + 1))

/-- Fails unless the images of the first transform are points of the second. -/
def requireConnected (first second : Transform α) : Except (TransformError α) Unit :=
  if first.targetDim == second.sourceDim then .ok ()
  else .error (.dimensionMismatch .concatenation first.targetDim second.sourceDim)

/-- The first transform, then the second, without any simplification. -/
def concatenate (first second : Transform α) : Except (TransformError α) (Transform α) := do
  requireConnected first second
  return concatenated first second

/-! ## Equality -/

/-- Whether two transforms have the same structure and the same representations. -/
def same : Transform α → Transform α → Bool
  | affine a, affine b => a.same b
  | linear m, linear n => m.same n
  | concatenated a₁ a₂, concatenated b₁ b₂ => a₁.same b₁ && a₂.same b₂
  | passThrough j a n, passThrough k b m => j == k && n == m && a.same b
  | operation o, operation p => o.same p
  | inverseOperation o, inverseOperation p => o.same p
  | _, _ => false

/-- Whether a transform is the identity by its structure, exactly. -/
def isIdentity : Transform α → Bool
  | affine a => a.isIdentity 0
  | linear m => m.isSquare && m.isIdentity 0
  | concatenated first second => first.isIdentity && second.isIdentity
  | passThrough _ inner _ => inner.isIdentity
  | operation _ => false
  | inverseOperation _ => false

end Transform

end CoordTransform
