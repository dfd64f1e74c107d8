import CoordTransform.Scalar

/-!
# Bounding Boxes

Points of the plane and axis-aligned boxes around them. The empty box has its lower corner at
`+∞` and its upper corner at `-∞`, so that the first point put into it becomes both corners.
-/

namespace CoordTransform

/-- A point of the plane. -/
structure Point (α : Type) where
  x : α
  y : α
  deriving Repr, DecidableEq

/-- A box between a lower and an upper corner. -/
structure BoundingBox (α : Type) where
  lower : Point α
  upper : Point α
  deriving Repr, DecidableEq

namespace BoundingBox

variable {α : Type} [Scalar α]

/-! ## Construction -/

/-- The box with two opposite corners. -/
def ofCorners (a b : Point α) : BoundingBox α where
  lower := ⟨Scalar.least a.x b.x, Scalar.least a.y b.y⟩
  upper := ⟨Scalar.greatest a.x b.x, Scalar.greatest a.y b.y⟩

/-- The box that holds no point. -/
def empty : BoundingBox α where
  lower := ⟨Scalar.infinity, Scalar.infinity⟩
  upper := ⟨-Scalar.infinity, -Scalar.infinity⟩

/-- The smallest box around a box and a point. -/
def expand (b : BoundingBox α) (p : Point α) : BoundingBox α where
  lower := ⟨Scalar.least b.lower.x p.x, Scalar.least b.lower.y p.y⟩
  upper := ⟨Scalar.greatest b.upper.x p.x, Scalar.greatest b.upper.y p.y⟩

/-- The smallest box around a list of points. -/
def ofPoints (ps : List (Point α)) : BoundingBox α := ps.foldl expand empty

/-! ## Measures -/

/-- A box is empty when its corners are the wrong way round on some axis. -/
def isEmpty (b : BoundingBox α) : Bool :=
  Scalar.numLt b.upper.x b.lower.x || Scalar.numLt b.upper.y b.lower.y

/-- The extent along the first axis. -/
def width (b : BoundingBox α) : α := b.upper.x - b.lower.x

/-- The four corners, counterclockwise from the lower one. -/
def corners (b : BoundingBox α) : List (Point α) :=
  [b.lower, ⟨b.upper.x, b.lower.y⟩, b.upper, ⟨b.lower.x, b.upper.y⟩]

end BoundingBox

end CoordTransform
