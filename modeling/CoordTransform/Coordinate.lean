import CoordTransform.Transform.Application

/-!
# Coordinates and Filters

A coordinate has two components and possibly a height; a missing height is the undefined scalar.
Filtering replaces a coordinate by its image. Plane transforms leave the height alone. Spatial
ones read a missing height as zero and do not write it back.
-/

namespace CoordTransform

/-- A coordinate with an optional height `z`. -/
structure Coordinate (α : Type) where
  x : α
  y : α
  z : α
  deriving Repr, DecidableEq

/-- Why a coordinate could not be filtered. -/
inductive FilterError (α : Type) where
  | transform (error : TransformError α)
  | dimensions (source target : Nat)

/-- The wording of a filter error. -/
def FilterError.message {α : Type} [Numeral α] : FilterError α → String
  | .transform e => "Coordinate transform failed: " ++ e.message
  | .dimensions source target =>
    "Coordinate transform failed: cannot apply a " ++ toString source ++ "D to " ++
      toString target ++ "D transform to a coordinate"

namespace Coordinate

variable {α : Type} [Scalar α]

/-! ## Coordinates -/

/-- A coordinate without a height. -/
def plane (x y : α) : Coordinate α := ⟨x, y, Scalar.undefined⟩

/-- Whether the height is present. -/
def hasZ (c : Coordinate α) : Bool := !Scalar.isUndefined c.z

/-! ## Filters -/

/-- The image of a coordinate. -/
def filter (t : Transform α) (c : Coordinate α) : Except (FilterError α) (Coordinate α) :=
  match t.sourceDim, t.targetDim with
  | 2, 2 =>
    match t.apply [c.x, c.y] with
    | .ok [x, y] => .ok { c with x, y }
    | .ok q => .error (.transform (.dimensionMismatch .output 2 q.length))
    | .error e => .error (.transform e)
  | 3, 3 =>
    match t.apply [c.x, c.y, if c.hasZ then c.z else 0] with
    | .ok [x, y, z] => .ok { x, y, z := if c.hasZ then z else c.z }
    | .ok q => .error (.transform (.dimensionMismatch .output 3 q.length))
    | .error e => .error (.transform e)
  | source, target => .error (.dimensions source target)

/-- Filters a list up to the first coordinate that has no image. That one and all after it stay
as they are, and its error is the second part of the result. -/
def filterAll (t : Transform α) :
    List (Coordinate α) → List (Coordinate α) × Option (FilterError α)
  | [] => ([], none)
  | c :: cs =>
    match filter t c with
    | .ok d =>
      let (ds, e) := filterAll t cs
      (d :: ds, e)
    | .error e => (c :: cs, some e)

end Coordinate

end CoordTransform
