import CoordTransform.Transform.Basic

/-!
# Operation Methods

An operation method makes transforms from parameters. It is known under a name and any number of
further names.
-/

namespace CoordTransform

/-- A named way of making transforms. -/
structure Method (α : Type) where
  name : String
  aliases : List String := []
  create : Parameters α → Except (TransformError α) (Transform α)

end CoordTransform
