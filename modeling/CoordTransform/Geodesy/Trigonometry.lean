import CoordTransform.Affine.Basic
import CoordTransform.Scalar.Double

/-!
# Trigonometry on Doubles

The trigonometric functions that the geodesic computations use, collected in one structure so
that statements can be made for all functions with given properties.
-/

namespace CoordTransform

/-- Trigonometric functions in radians. -/
structure Trigonometry where
  sin : Float → Float
  cos : Float → Float
  tan : Float → Float
  asin : Float → Float
  atan : Float → Float
  atan2 : Float → Float → Float

namespace Trigonometry

/-- The functions of the machine. -/
def standard : Trigonometry where
  sin := Float.sin
  cos := Float.cos
  tan := Float.tan
  asin := Float.asin
  atan := Float.atan
  atan2 := Float.atan2

end Trigonometry

/-! ## Angles -/

/-- The ratio of circumference and diameter. -/
def pi : Float := 3.14159265358979323846264338327950288

/-- Degrees to radians. -/
def toRadians (degrees : Float) : Float := degrees * (pi / 180)

/-- Radians to degrees. -/
def toDegrees (radians : Float) : Float := radians * 57.2957795130823208767981548141051703

/-- The rotation of the plane about the origin by an angle in radians. -/
def Affine.rotationBy (angle : Float) : Affine Float :=
  .rotation (Trigonometry.standard.sin angle) (Trigonometry.standard.cos angle)

end CoordTransform
