import CoordTransform.Geodesy.Trigonometry

/-!
# Geodesics

Distance and azimuth between two positions, given as longitude and latitude in degrees. On a
sphere the great circle has a closed form. On an ellipsoid Vincenty's iteration is used; near
antipodal positions, where it may not converge, the great circle on the sphere of the mean radius
takes its place.
-/

namespace CoordTransform

/-- A distance in the unit of the axes, and the azimuth at the start in degrees clockwise from
north. -/
structure Geodesic where
  distance : Float
  azimuth : Float
  deriving Repr

namespace Geodesic

/-! ## Positions and azimuths -/

/-- Whether a point is a longitude and a latitude. -/
def isPosition (p : Point Float) : Bool :=
  p.x.isFinite && p.y.isFinite && !(p.y.abs > 90)

/-- Fails unless a point is a longitude and a latitude. -/
def requirePosition (p : Point Float) : Except (TransformError Float) Unit :=
  if isPosition p then .ok () else .error (.outOfDomain (.position p.x p.y))

/-- An angle in radians as an azimuth: a negative number of degrees gets a full turn added. -/
def azimuthOf (radians : Float) : Float :=
  let degrees := toDegrees radians
  if degrees < 0 then degrees + 360 else degrees

/-! ## Great circles -/

/-- The product of a number with itself. -/
def square (x : Float) : Float := x * x

/-- The geodesic on a sphere. -/
def greatCircle (t : Trigonometry) (radius : Float) (start finish : Point Float) : Geodesic :=
  let lat1 := toRadians start.y
  let lat2 := toRadians finish.y
  let dlat := lat2 - lat1
  let dlon := toRadians (finish.x - start.x)
  let h := square (t.sin (dlat / 2)) + t.cos lat1 * t.cos lat2 * square (t.sin (dlon / 2))
  -- Rounding may take the root above one, where there is no arc sine.
  let central := 2 * t.asin (Scalar.least h.sqrt 1)
  let azimuth := t.atan2 (t.sin dlon * t.cos lat2)
    (t.cos lat1 * t.sin lat2 - t.sin lat1 * t.cos lat2 * t.cos dlon)
  ⟨radius * central, azimuthOf azimuth⟩

/-! ## Vincenty's iteration -/

/-- The sines and cosines of the two reduced latitudes, and the difference of longitudes. -/
structure Ends where
  sinU1 : Float
  cosU1 : Float
  sinU2 : Float
  cosU2 : Float
  longitude : Float

/-- The quantities of one step of the iteration, and the longitude of the next step. -/
structure Step where
  sinLambda : Float
  cosLambda : Float
  sinSigma : Float
  cosSigma : Float
  sigma : Float
  cosSqAlpha : Float
  cos2SigmaM : Float
  next : Float

/-- How the iteration ends. -/
inductive Iteration where
  | coincident
  | converged (step : Step)
  | diverged

/-- The greatest number of steps. -/
def largestSteps : Nat := 100

/-- The iteration has converged when the longitude changes by less than this. -/
def convergence : Float := 1e-12

/-- The reduced latitudes of two positions. -/
def ends (t : Trigonometry) (f : Float) (start finish : Point Float) : Ends :=
  let u1 := t.atan ((1 - f) * t.tan (toRadians start.y))
  let u2 := t.atan ((1 - f) * t.tan (toRadians finish.y))
  { sinU1 := t.sin u1, cosU1 := t.cos u1, sinU2 := t.sin u2, cosU2 := t.cos u2,
    longitude := toRadians (finish.x - start.x) }

/-- One step of the iteration. -/
def step (t : Trigonometry) (f : Float) (e : Ends) (lambda : Float) : Step :=
  let sinLambda := t.sin lambda
  let cosLambda := t.cos lambda
  let sinSigma := (square (e.cosU2 * sinLambda) +
    square (e.cosU1 * e.sinU2 - e.sinU1 * e.cosU2 * cosLambda)).sqrt
  let cosSigma := e.sinU1 * e.sinU2 + e.cosU1 * e.cosU2 * cosLambda
  let sigma := t.atan2 sinSigma cosSigma
  let sinAlpha := e.cosU1 * e.cosU2 * sinLambda / sinSigma
  let cosSqAlpha := 1 - sinAlpha * sinAlpha
  -- On an equatorial line the quotient is undefined and zero takes its place.
  let cos2SigmaM :=
    if cosSqAlpha != 0 then cosSigma - 2 * e.sinU1 * e.sinU2 / cosSqAlpha else 0
  let c := f / 16 * cosSqAlpha * (4 + f * (4 - 3 * cosSqAlpha))
  let next := e.longitude + (1 - c) * f * sinAlpha *
    (sigma + c * sinSigma *
      (cos2SigmaM + c * cosSigma * (-1 + 2 * cos2SigmaM * cos2SigmaM)))
  { sinLambda, cosLambda, sinSigma, cosSigma, sigma, cosSqAlpha, cos2SigmaM, next }

/-- The iteration from a longitude on, with a bounded number of steps. -/
def iterate (t : Trigonometry) (f : Float) (e : Ends) : Nat → Float → Iteration
  | 0, _ => .diverged
  | n + 1, lambda =>
    let s := step t f e lambda
    -- The other quantities of the step are undefined for coincident positions.
    if s.sinSigma == 0 then .coincident
    else if (s.next - lambda).abs < convergence then .converged s
    else iterate t f e n s.next

/-- The geodesic of a converged iteration. -/
def ofStep (t : Trigonometry) (a b : Float) (e : Ends) (s : Step) : Geodesic :=
  let uSq := s.cosSqAlpha * (a * a - b * b) / (b * b)
  let bigA := 1 + uSq / 16384 * (4096 + uSq * (-768 + uSq * (320 - 175 * uSq)))
  let bigB := uSq / 1024 * (256 + uSq * (-128 + uSq * (74 - 47 * uSq)))
  let deltaSigma := bigB * s.sinSigma *
    (s.cos2SigmaM + bigB / 4 *
      (s.cosSigma * (-1 + 2 * s.cos2SigmaM * s.cos2SigmaM) -
        bigB / 6 * s.cos2SigmaM * (-3 + 4 * s.sinSigma * s.sinSigma) *
          (-3 + 4 * s.cos2SigmaM * s.cos2SigmaM)))
  let azimuth := t.atan2 (e.cosU2 * s.sinLambda)
    (e.cosU1 * e.sinU2 - e.sinU1 * e.cosU2 * s.cosLambda)
  ⟨b * bigA * (s.sigma - deltaSigma), azimuthOf azimuth⟩

/-! ## All surfaces -/

/-- The geodesic between two positions on the ellipsoid with semi-major axis `a` and flattening
`f`. -/
def between (t : Trigonometry) (a f : Float) (start finish : Point Float) :
    Except (TransformError Float) Geodesic := do
  requirePosition start
  requirePosition finish
  if f == 0 then return greatCircle t a start finish
  let b := a * (1 - f)
  let e := ends t f start finish
  match iterate t f e largestSteps e.longitude with
  | .coincident => return ⟨0, 0⟩
  | .converged s => return ofStep t a b e s
  -- The sphere of the mean radius `(2 a + b) / 3`.
  | .diverged => return greatCircle t ((2 * a + b) / 3) start finish

end Geodesic

end CoordTransform
