import CoordTransform.Affine.Rounding
import CoordTransform.Registry
import CoordTransform.Transform.Homogeneous

/-!
# The Transform Builder

The builder makes transforms in simplified form. Identities are dropped from concatenations,
two matrices become one, and two pass-throughs around the same components become one around the
concatenation of their inner transforms.

The builder may keep a pool of the transforms it made. A transform that is the same as one of
the pool is replaced by that one. The pool is the state of `Build`; it survives errors.
-/

namespace CoordTransform

/-! ## State and options -/

/-- The transforms made so far, no two of them the same. -/
abbrev Pool (α : Type) := List (Transform α)

/-- A computation that reads and extends the pool and may fail. -/
abbrev Build (α : Type) := ExceptT (TransformError α) (StateM (Pool α))

/-- How a builder works. -/
structure BuildOptions (α : Type) where
  /-- The tolerance for rounding affine maps; they are not rounded without one. -/
  rounding : Option α := none
  /-- Whether transforms are pooled. -/
  usePool : Bool := true

/-- A registry of methods with options. -/
structure Builder (α : Type) where
  registry : Registry α
  options : BuildOptions α

namespace Builder

variable {α : Type} [Scalar α]

/-! ## The pool -/

/-- The member of a pool that is the same as a transform, and the pool that has one. -/
def intern (t : Transform α) (pool : Pool α) : Transform α × Pool α :=
  match pool.find? (·.same t) with
  | some member => (member, pool)
  | none => (t, pool ++ [t])

/-- Replaces a transform by its equal in the pool, if transforms are pooled. -/
def pooled (f : Builder α) (t : Transform α) : Build α (Transform α) := fun pool =>
  if f.options.usePool then
    let (member, pool) := intern t pool
    (.ok member, pool)
  else (.ok t, pool)

/-! ## Basic transforms -/

/-- Rounds an affine map, if the options ask for it and it makes a difference. -/
def rounded (f : Builder α) (t : Transform α) : Transform α :=
  match f.options.rounding, t.asAffine? with
  | some tolerance, some a =>
    let r := a.round tolerance
    if r.same a then t else .affine r
  | _, _ => t

/-- The transform of a homogeneous matrix. -/
def ofMatrix (f : Builder α) (m : DenseMatrix α) : Build α (Transform α) := do
  let t ← ExceptT.mk (pure (Transform.ofMatrix m))
  f.pooled (f.rounded t)

/-- The transform that a registered method makes from parameters. -/
def create (f : Builder α) (classification : String) (ps : Parameters α) :
    Build α (Transform α) := do
  match f.registry.get? classification with
  | none => throw (.unknownMethod classification)
  | some method =>
    let t ← ExceptT.mk (pure (method.create ps))
    f.pooled (f.rounded t)

/-! ## Composite transforms -/

/-- A pass-through; one that copies no components is its inner transform. -/
def passThrough (f : Builder α) (leading : Nat) (inner : Transform α) (trailing : Nat) :
    Build α (Transform α) :=
  if leading == 0 && trailing == 0 then pure inner
  else f.pooled (.passThrough leading inner trailing)

/-- The homogeneous matrix of a transform that is a single matrix. -/
def ownMatrix? : Transform α → Option (DenseMatrix α)
  | .affine a => some a.toMatrix
  | .linear m => some m
  | _ => none

/-- The first transform, then the second, in simplified form. -/
def concatenate (f : Builder α) : Transform α → Transform α → Build α (Transform α)
  | first, second => do
    ExceptT.mk (pure (Transform.requireConnected first second))
    -- Connected transforms keep their dimensions when an identity beside them is dropped.
    if first.isIdentity then return second
    if second.isIdentity then return first
    match ownMatrix? first, ownMatrix? second with
    -- The second transform is applied last, so that its matrix stands on the left.
    | some m, some n =>
      let p ← ExceptT.mk (pure (n.multiply m))
      f.ofMatrix p
    | _, _ =>
      match first, second with
      | .passThrough leading a trailing, .passThrough leading' b trailing' =>
        if leading == leading' && trailing == trailing' && a.targetDim == b.sourceDim then
          -- The outer components are copied by both, so only the inner transforms meet.
          let inner ← f.concatenate a b
          f.passThrough leading inner trailing
        else f.pooled (.concatenated first second)
      | _, _ => f.pooled (.concatenated first second)

end Builder

end CoordTransform
