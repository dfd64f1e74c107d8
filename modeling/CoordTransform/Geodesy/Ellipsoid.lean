import CoordTransform.Geodesy.Geodesic

/-!
# Reference Ellipsoids

An ellipsoid is given by its semi-major axis and either its semi-minor axis or its inverse
flattening. The one that was given is definitive, the other is derived from it once. A sphere has
an infinite inverse flattening.
-/

namespace CoordTransform

/-! ## Units of length -/

/-- The units of axes. -/
inductive LengthUnit where
  | metre
  | kilometre
  | foot
  | usSurveyFoot
  deriving DecidableEq, Repr

namespace LengthUnit

/-- The name of a unit. -/
def name : LengthUnit → String
  | metre => "Metre"
  | kilometre => "Kilometre"
  | foot => "Foot"
  | usSurveyFoot => "UsSurveyFoot"

/-- The unit written in files. -/
def ofWord? : String → Option LengthUnit
  | "metre" => some metre
  | "kilometre" => some kilometre
  | "foot" => some foot
  | "us_survey_foot" => some usSurveyFoot
  | _ => none

/-- The length of a unit in metres. -/
def metres : LengthUnit → Float
  | metre => 1
  | kilometre => 1000
  | foot => 0.3048
  | usSurveyFoot => 1200 / 3937

/-- A length in another unit. -/
def convert (u target : LengthUnit) (value : Float) : Float :=
  if u = target then value else value * u.metres / target.metres

end LengthUnit

/-! ## Ellipsoids -/

/-- An ellipsoid of revolution. -/
structure Ellipsoid where
  name : String
  semiMajor : Float
  semiMinor : Float
  inverseFlattening : Float
  flatteningDefinitive : Bool
  unit : LengthUnit
  deriving Repr

namespace Ellipsoid

/-- The ellipsoid of a semi-major axis and an inverse flattening. -/
def ofDefinitiveFlattening (name : String) (a ivf : Float) (unit : LengthUnit) : Ellipsoid :=
  ⟨name, a, a * (1 - 1 / ivf), ivf, true, unit⟩

/-- The ellipsoid of two axes. -/
def ofDefinitiveAxes (name : String) (a b : Float) (unit : LengthUnit) : Ellipsoid :=
  ⟨name, a, b, if a == b then 1 / 0 else a / (a - b), false, unit⟩

/-- Fails unless a value is a positive length. -/
def requireLength (name : String) (value : Float) : Except (TransformError Float) Unit :=
  if value.isFinite && value > 0 then .ok ()
  else .error (.invalidParameter name (.notPositive value))

/-- The ellipsoid of two positive axes. -/
def ofAxes (name : String) (a b : Float) (unit : LengthUnit) :
    Except (TransformError Float) Ellipsoid := do
  requireLength "semi_major_axis" a
  requireLength "semi_minor_axis" b
  return ofDefinitiveAxes name a b unit

/-- The sphere of a positive radius. -/
def sphere (name : String) (radius : Float) (unit : LengthUnit) :
    Except (TransformError Float) Ellipsoid := do
  requireLength "radius" radius
  return ofDefinitiveAxes name radius radius unit

/-- The ellipsoid of a positive semi-major axis and an inverse flattening. Zero and infinity both
stand for a sphere. -/
def ofInverseFlattening (name : String) (a ivf : Float) (unit : LengthUnit) :
    Except (TransformError Float) Ellipsoid := do
  requireLength "semi_major_axis" a
  if ivf.isNaN || ivf < 0 then
    throw (.invalidParameter "inverse_flattening" (.negative ivf))
  if ivf == 0 || ivf.isInf then sphere name a unit
  else return ofDefinitiveFlattening name a ivf unit

/-! ## Well-known ellipsoids -/

/-- The ellipsoid of the World Geodetic System of 1984. -/
def wgs84 : Ellipsoid := ofDefinitiveFlattening "WGS84" 6378137 298.257223563 .metre

/-- The ellipsoid of the Geodetic Reference System of 1980. -/
def grs80 : Ellipsoid := ofDefinitiveFlattening "GRS 1980" 6378137 298.257222101 .metre

/-- Clarke's ellipsoid of 1866. -/
def clarke1866 : Ellipsoid := ofDefinitiveAxes "Clarke 1866" 6378206.4 6356583.8 .metre

/-- The sphere with the mean radius of the earth. -/
def meanSphere : Ellipsoid := ofDefinitiveAxes "Sphere" 6371000 6371000 .metre

/-- The form in which names of ellipsoids are compared: letters and digits only, without
case. -/
def nameKey (name : String) : String :=
  Text.lower (String.ofList (name.toList.filter fun c => c.isAlpha || c.isDigit))

/-- The ellipsoid that is known under a name. -/
def ofName? (name : String) : Option Ellipsoid :=
  match nameKey name with
  | "wgs84" => some wgs84
  | "grs80" => some grs80
  | "clarke1866" => some clarke1866
  | "sphere" => some meanSphere
  | _ => none

/-! ## Shape -/

/-- The flattening; zero for an infinite inverse flattening. -/
def flattening (e : Ellipsoid) : Float :=
  if e.inverseFlattening.isInf then 0 else 1 / e.inverseFlattening

/-- The first eccentricity. -/
def eccentricity (e : Ellipsoid) : Float :=
  let f := e.flattening
  (2 * f - f * f).sqrt

/-- Whether both axes are equal. -/
def isSphere (e : Ellipsoid) : Bool := e.semiMajor == e.semiMinor

/-- The geodesic between two positions on an ellipsoid. -/
def geodesic (e : Ellipsoid) (start finish : Point Float) :
    Except (TransformError Float) Geodesic :=
  Geodesic.between .standard e.semiMajor e.flattening start finish

/-- The length of the geodesic between two positions. -/
def distance (e : Ellipsoid) (start finish : Point Float) :
    Except (TransformError Float) Float := do
  return (← e.geodesic start finish).distance

end Ellipsoid

end CoordTransform
