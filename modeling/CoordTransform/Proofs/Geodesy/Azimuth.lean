import CoordTransform.Geodesy.Geodesic
import CoordTransform.Proofs.Computation
import CoordTransform.Proofs.Double.Ordered

/-!
# The Range of Azimuths

An azimuth is an angle of at most half a turn on either side of north, to which a full turn is
added when it is west of north. Both steps are rounded. The product with the degrees of a radian
stays within half a turn, and the sum within a full turn; but a sum that is within half a last
place below the full turn is rounded to the full turn itself.
-/

namespace CoordTransform

open Double

/-! ## Angles -/

/-- An angle of at most half a turn on either side. -/
def IsDirection (radians : Float) : Prop := -pi ≤ radians ∧ radians ≤ pi

instance : DecidablePred IsDirection := fun _ => inferInstanceAs (Decidable (_ ∧ _))

/-- The arc tangent of a quotient is undefined or at most half a turn on either side. -/
def Trigonometry.Ranged (t : Trigonometry) : Prop :=
  ∀ y x, (t.atan2 y x).isNaN = true ∨ IsDirection (t.atan2 y x)

/-- Half a last place below a full turn of 360 degrees, `2 ^ (-45)` degrees. -/
def halfPlace : Float := 1 / 35184372088832

/-! ## The constants as numbers -/

theorem rational?_pi : rational? pi = some (7074237752028440 / 2 ^ 51) :=
  rational?_of_unpack (s := .positive) (m := 7074237752028440) (e := -51) rfl
    (by norm_num [withSign, value])

theorem rational?_degreesOfRadian :
    rational? 57.2957795130823208767981548141051703 = some (8063664102031864 / 2 ^ 47) :=
  rational?_of_unpack (s := .positive) (m := 8063664102031864) (e := -47) rfl
    (by norm_num [withSign, value])

theorem rational?_halfTurn : rational? 180 = some 180 :=
  rational?_of_unpack (s := .positive) (m := 360 * 2 ^ 44) (e := -45) rfl
    (by norm_num [withSign, value])

theorem rational?_fullTurn : rational? 360 = some 360 :=
  rational?_of_unpack (s := .positive) (m := 360 * 2 ^ 44) (e := -44) rfl
    (by norm_num [withSign, value])

theorem rational?_beforeFullTurn : rational? 359.99999999999994 = some (360 - 1 / 2 ^ 44) :=
  rational?_of_unpack (s := .positive) (m := 360 * 2 ^ 44 - 1) (e := -44) rfl
    (by norm_num [withSign, value])

theorem rational?_halfPlace : rational? halfPlace = some (1 / 2 ^ 45) :=
  rational?_of_unpack (s := .positive) (m := 2 ^ 52) (e := -97) rfl
    (by norm_num [withSign, value])

theorem rational?_zero : rational? 0 = some 0 :=
  rational?_eq_some_iff.2 ⟨.positive, 0, magnitude?_pack_zero .positive, rfl⟩

variable {x r : Float} {δ α : ℚ}

/-- A direction has at most 180 degrees on either side. -/
theorem IsDirection.exists_degrees (h : IsDirection r) :
    ∃ δ, rational? (toDegrees r) = some δ ∧ -180 ≤ δ ∧ δ ≤ 180 := by
  obtain ⟨hlow, hhigh⟩ := h
  obtain ⟨ρ, hρ⟩ := exists_rational (isFinite_of_between
    ((isFinite_neg pi).trans (isFinite_of_rational rational?_pi))
    (isFinite_of_rational rational?_pi) hlow hhigh)
  rw [le_iff_rational (rational?_neg rational?_pi) hρ] at hlow
  rw [le_iff_rational hρ rational?_pi] at hhigh
  have hrounded := isRounded_mul hρ rational?_degreesOfRadian
  -- The two constants are rounded so that their product is not above 180.
  have hproduct : |ρ * (8063664102031864 / 2 ^ 47)| ≤ 180 := by
    rw [abs_le]
    constructor
    · norm_num at hlow ⊢
      linarith
    · norm_num at hhigh ⊢
      linarith
  have hfinite : (toDegrees r).isFinite = true := by
    refine hrounded.isFinite_iff.2 (hproduct.trans_lt ?_)
    simpa using abs_lt_overflow rational?_halfTurn
  obtain ⟨δ, hδ⟩ := exists_rational hfinite
  rw [abs_le] at hproduct
  exact ⟨δ, hδ, (hrounded.side hδ (rational?_neg rational?_halfTurn)).2 hproduct.1,
    (hrounded.side hδ rational?_halfTurn).1 hproduct.2⟩

/-! ## Adding a full turn -/

/-- The parts of the full turn, and below those of the double before it. -/
def fullTurn : Decimal.Binary := ⟨360 * 2 ^ 44, -44⟩

def beforeFullTurn : Decimal.Binary := ⟨360 * 2 ^ 44 - 1, -44⟩

theorem attracts_fullTurn {q : ℚ} (hlow : 360 - 1 / 2 ^ 45 ≤ q) (hhigh : q ≤ 360) :
    fullTurn.Attracts q := by
  have hlower : value fullTurn.lowerQuarters (-44 - 2) = 360 - 1 / 2 ^ 45 := by
    rw [show fullTurn.lowerQuarters = 4 * (360 * 2 ^ 44) - 2 from rfl]
    norm_num [value]
  have hupper : 360 ≤ value fullTurn.upperQuarters (-44 - 2) := by
    rw [show fullTurn.upperQuarters = 4 * (360 * 2 ^ 44) + 2 from rfl]
    norm_num [value]
  -- The significand is even, so that the ends belong to the interval.
  rw [Decimal.Binary.Attracts, if_pos (by decide)]
  exact ⟨hlower.trans_le hlow, hhigh.trans hupper⟩

theorem attracts_beforeFullTurn {q : ℚ} (hlow : 360 - 1 / 2 ^ 44 ≤ q)
    (hhigh : q < 360 - 1 / 2 ^ 45) : beforeFullTurn.Attracts q := by
  have hlower : value beforeFullTurn.lowerQuarters (-44 - 2) < 360 - 1 / 2 ^ 44 := by
    rw [show beforeFullTurn.lowerQuarters = 4 * (360 * 2 ^ 44 - 1) - 2 from rfl]
    norm_num [value]
  have hupper : value beforeFullTurn.upperQuarters (-44 - 2) = 360 - 1 / 2 ^ 45 := by
    rw [show beforeFullTurn.upperQuarters = 4 * (360 * 2 ^ 44 - 1) + 2 from rfl]
    norm_num [value]
  exact Decimal.Binary.attracts_of_lt (hlower.trans_le hlow) (hhigh.trans_eq hupper.symm)

theorem value_fullTurn : value fullTurn.significand fullTurn.exponent = 360 := by
  norm_num [fullTurn, value]

theorem value_beforeFullTurn :
    value beforeFullTurn.significand beforeFullTurn.exponent = 360 - 1 / 2 ^ 44 := by
  norm_num [beforeFullTurn, value]

/-- Half a last place below north, the sum is a tie or less, and rounded up. -/
theorem add_fullTurn_of_near (hx : rational? x = some δ) (hneg : δ < 0)
    (hnear : -(1 / 2 ^ 45) ≤ δ) : rational? (x + 360) = some 360 := by
  rw [← value_fullTurn]
  exact rational?_add_of_attracts hx rational?_fullTurn hneg.ne (by norm_num) (by linarith)
    ⟨by decide, by decide, by decide⟩ (by decide) (attracts_fullTurn (by linarith) (by linarith))

/-- Farther from north, the sum is not above the double before the full turn. -/
theorem add_fullTurn_of_far (hx : rational? x = some δ) (hα : rational? (x + 360) = some α)
    (hfar : δ < -(1 / 2 ^ 45)) : α ≤ 360 - 1 / 2 ^ 44 := by
  rcases lt_or_ge δ (-(1 / 2 ^ 44)) with hfurther | hbetween
  · exact ((isRounded_add hx rational?_fullTurn).side hα rational?_beforeFullTurn).1 (by linarith)
  · have hneg : δ < 0 := by linarith
    have hnearest := rational?_add_of_attracts hx rational?_fullTurn hneg.ne (by norm_num)
      (by linarith) ⟨by decide, by decide, by decide⟩ (by decide)
      (attracts_beforeFullTurn (by linarith) (by linarith))
    rw [value_beforeFullTurn, hα, Option.some.injEq] at hnearest
    exact hnearest.le

/-- The sum of a full turn and an angle west of north is at most a full turn, and less than that
unless the angle is within half a last place of north. -/
theorem add_fullTurn (hx : rational? x = some δ) (hlow : -180 ≤ δ) (hneg : δ < 0) :
    ∃ α, rational? (x + 360) = some α ∧ 0 ≤ α ∧ α ≤ 360 ∧ (α < 360 ↔ δ < -(1 / 2 ^ 45)) := by
  have hrounded := isRounded_add hx rational?_fullTurn
  -- The exact sum is between a half and a full turn, far from overflow.
  have hfinite : (x + 360).isFinite = true := by
    refine hrounded.isFinite_iff.2 (lt_of_le_of_lt ?_ (abs_lt_overflow rational?_fullTurn))
    rw [abs_of_pos (by linarith), abs_of_pos (by norm_num)]
    linarith
  obtain ⟨α, hα⟩ := exists_rational hfinite
  refine ⟨α, hα, (hrounded.side hα rational?_zero).2 (by linarith),
    (hrounded.side hα rational?_fullTurn).1 (by linarith), ?_⟩
  -- The exact sum rounds to the full turn from half a last place below it on.
  rcases lt_or_ge δ (-(1 / 2 ^ 45)) with hfar | hnear
  · exact iff_of_true ((add_fullTurn_of_far hx hα hfar).trans_lt (by norm_num)) hfar
  · have hturn := add_fullTurn_of_near hx hneg hnear
    rw [hα, Option.some.injEq] at hturn
    exact iff_of_false (by linarith) (by linarith)

/-! ## Azimuths -/

namespace Geodesic

/-- An undefined angle has an undefined azimuth. -/
theorem isNaN_azimuthOf (h : r.isNaN = true) : (azimuthOf r).isNaN = true := by
  have hparts : unpack r = .notANumber := by
    change (unpack r).isNaN = true at h
    cases hparts : unpack r with
    | notANumber => rfl
    | _ => rw [hparts] at h; cases h
  have hdegrees : toDegrees r = pack .notANumber := by
    change r * _ = _
    rw [mul_eq_pack, hparts]
    rfl
  rw [azimuthOf, hdegrees]
  decide +kernel

/-- The azimuth of a direction is a number from 0 to 360, both included: the full turn is reached
just west of north. -/
theorem azimuthOf_range (h : IsDirection r) : 0 ≤ azimuthOf r ∧ azimuthOf r ≤ 360 ∧
    (¬ azimuthOf r < 360 ↔ -halfPlace ≤ toDegrees r ∧ toDegrees r < 0) := by
  obtain ⟨δ, hδ, hlow, hhigh⟩ := h.exists_degrees
  rw [lt_iff_rational hδ rational?_zero,
    le_iff_rational (rational?_neg rational?_halfPlace) hδ]
  -- Only angles west of north are turned, and only these can become a full turn.
  rcases lt_or_ge δ 0 with hneg | hnonneg
  · have hazimuth : azimuthOf r = toDegrees r + 360 :=
      if_pos ((lt_iff_rational hδ rational?_zero).2 hneg)
    obtain ⟨α, hα, hpos, hturn, hbelow⟩ := add_fullTurn hδ hlow hneg
    rw [hazimuth, le_iff_rational rational?_zero hα, le_iff_rational hα rational?_fullTurn,
      lt_iff_rational hα rational?_fullTurn, hbelow, not_lt]
    exact ⟨hpos, hturn, (and_iff_left hneg).symm⟩
  · have hazimuth : azimuthOf r = toDegrees r :=
      if_neg fun hlt => absurd ((lt_iff_rational hδ rational?_zero).1 hlt) (not_lt_of_ge hnonneg)
    rw [hazimuth, le_iff_rational rational?_zero hδ, le_iff_rational hδ rational?_fullTurn,
      lt_iff_rational hδ rational?_fullTurn]
    refine ⟨hnonneg, by linarith, iff_of_false (fun h => h (by linarith)) fun h => ?_⟩
    exact absurd h.2 (not_lt_of_ge hnonneg)

/-! ## Geodesics -/

/-- The direction in which a great circle starts, in radians clockwise from north. -/
def greatCircleDirection (t : Trigonometry) (start finish : Point Float) : Float :=
  let lat1 := toRadians start.y
  let lat2 := toRadians finish.y
  let dlon := toRadians (finish.x - start.x)
  t.atan2 (t.sin dlon * t.cos lat2)
    (t.cos lat1 * t.sin lat2 - t.sin lat1 * t.cos lat2 * t.cos dlon)

/-- The direction in which a geodesic starts once the iteration has converged. -/
def stepDirection (t : Trigonometry) (e : Ends) (s : Step) : Float :=
  t.atan2 (e.cosU2 * s.sinLambda) (e.cosU1 * e.sinU2 - e.sinU1 * e.cosU2 * s.cosLambda)

/-- The direction in which a geodesic starts. Between coincident positions it is north. -/
def direction (t : Trigonometry) (f : Float) (start finish : Point Float) : Float :=
  if f == 0 then greatCircleDirection t start finish
  else
    let e := ends t f start finish
    match iterate t f e largestSteps e.longitude with
    | .coincident => 0
    | .converged s => stepDirection t e s
    | .diverged => greatCircleDirection t start finish

variable {t : Trigonometry} {a f : Float} {p start finish : Point Float} {g : Geodesic}

theorem requirePosition_bind_eq_ok {β : Type} {k : Unit → Except (TransformError Float) β} {c : β} :
    requirePosition p >>= k = .ok c ↔ isPosition p = true ∧ k () = .ok c := by
  unfold requirePosition
  cases isPosition p <;> simp [bind, Except.bind]

/-- On every surface and at every end of the iteration, the azimuth is that of the direction. -/
theorem azimuth_of_between (h : between t a f start finish = .ok g) :
    g.azimuth = azimuthOf (direction t f start finish) := by
  obtain ⟨-, h⟩ := requirePosition_bind_eq_ok.1 h
  obtain ⟨-, h⟩ := requirePosition_bind_eq_ok.1 h
  unfold direction
  split at h
  · -- On a sphere the direction is that of the great circle.
    next hsphere =>
    rw [if_pos hsphere, ← Except.ok.inj h]
    rfl
  · next hellipsoid =>
    rw [if_neg hellipsoid]
    -- On an ellipsoid it is that of the last step, which coincident points do not have.
    dsimp only at h ⊢
    cases hend : iterate t f (ends t f start finish) largestSteps
        (ends t f start finish).longitude with
    | coincident =>
      rw [hend] at h
      rw [← Except.ok.inj h]
      exact (by decide +kernel : 0 = azimuthOf 0)
    | converged s =>
      rw [hend] at h
      rw [← Except.ok.inj h]
      rfl
    | diverged =>
      rw [hend] at h
      rw [← Except.ok.inj h]
      rfl

theorem direction_ranged (ht : t.Ranged) (f : Float) (start finish : Point Float) :
    (direction t f start finish).isNaN = true ∨ IsDirection (direction t f start finish) := by
  unfold direction
  split
  · exact ht _ _
  · dsimp only
    split
    · exact .inr ⟨by decide +kernel, by decide +kernel⟩
    · exact ht _ _
    · exact ht _ _

/-- An azimuth that is a number is from 0 to 360. It is below 360 unless the direction is west of
north by no more than half the last place of 360. -/
theorem between_azimuth_range (ht : t.Ranged) (h : between t a f start finish = .ok g)
    (hnumber : g.azimuth.isNaN = false) :
    0 ≤ g.azimuth ∧ g.azimuth ≤ 360 ∧ (¬ g.azimuth < 360 ↔
      -halfPlace ≤ toDegrees (direction t f start finish) ∧
        toDegrees (direction t f start finish) < 0) := by
  have hazimuth := azimuth_of_between h
  rw [hazimuth] at hnumber ⊢
  rcases direction_ranged ht f start finish with hundefined | hdirection
  · rw [isNaN_azimuthOf hundefined] at hnumber
    cases hnumber
  · exact azimuthOf_range hdirection

end Geodesic

/-! ## The way to the pole -/

/-- A function that is known at some places only. -/
def tabulated (entries : List (Float × Float)) (x : Float) : Float :=
  match entries.find? fun entry => entry.1 == x with
  | some entry => entry.2
  | none => 0 / 0

theorem tabulated_cases {P : Float → Prop} {entries : List (Float × Float)}
    (hentries : ∀ entry ∈ entries, P entry.2) (hundefined : P (0 / 0)) (x : Float) :
    P (tabulated entries x) := by
  unfold tabulated
  split
  · next entry hentry => exact hentries entry (List.mem_of_find?_eq_some hentry)
  · exact hundefined

/-- What the machine computes at right angles and at halves of them. The cosine of the double next
to a right angle is not zero. -/
def rightAngles : Trigonometry where
  sin := tabulated [(0, 0), (pi / 2, 1), (-(pi / 2), -1), (pi / 4, 0.7071067811865475),
    (-(pi / 4), -0.7071067811865475)]
  cos := tabulated [(0, 1), (pi / 2, 6.123233995736766e-17), (-(pi / 2), 6.123233995736766e-17)]
  tan := tabulated []
  asin := tabulated [(0.7071067811865475, 0.7853981633974482)]
  atan := tabulated []
  atan2 y x := if x == 1 then
    tabulated [(6.123233995736766e-17, 6.123233995736766e-17),
      (-6.123233995736766e-17, -6.123233995736766e-17)] y else 0 / 0

theorem rightAngles_ranged : rightAngles.Ranged := by
  intro y x
  by_cases hx : (x == 1) = true
  · rw [show rightAngles.atan2 y x = _ from if_pos hx]
    exact tabulated_cases (P := fun r => r.isNaN = true ∨ IsDirection r) (by decide +kernel)
      (by decide +kernel) y
  · rw [show rightAngles.atan2 y x = 0 / 0 from if_neg hx]
    exact .inl (by decide +kernel)

namespace Geodesic

variable {t : Trigonometry} {a f : Float} {start finish : Point Float}

theorem between_of_sphere (hf : (f == 0) = true) (hstart : isPosition start = true)
    (hfinish : isPosition finish = true) :
    between t a f start finish = .ok (greatCircle t a start finish) := by
  refine requirePosition_bind_eq_ok.2 ⟨hstart, requirePosition_bind_eq_ok.2 ⟨hfinish, ?_⟩⟩
  exact if_pos hf

/-- When the longitude of the pole is given to the east of the start, its azimuth is a little above
zero. -/
theorem between_azimuth_range_eastward :
    ∃ g, between rightAngles 1 0 ⟨-90, 0⟩ ⟨0, 90⟩ = .ok g ∧ 0 ≤ g.azimuth ∧ g.azimuth < 360 := by
  have hbetween : between rightAngles 1 0 ⟨-90, 0⟩ ⟨0, 90⟩ = .ok _ :=
    between_of_sphere (by decide +kernel) (by decide +kernel) (by decide +kernel)
  obtain ⟨hnonneg, -, hturn⟩ :=
    between_azimuth_range rightAngles_ranged hbetween (by decide +kernel)
  have heast : ¬ toDegrees (direction rightAngles 0 ⟨-90, 0⟩ ⟨0, 90⟩) < 0 := by decide +kernel
  exact ⟨_, hbetween, hnonneg, not_not.1 (hturn.not.2 fun h => heast h.2)⟩

/-- When it is given to the west, the azimuth is a full turn. -/
theorem between_azimuth_westward : rightAngles.Ranged ∧
    ∃ g, between rightAngles 1 0 ⟨90, 0⟩ ⟨0, 90⟩ = .ok g ∧ g.azimuth = 360 := by
  have hbetween : between rightAngles 1 0 ⟨90, 0⟩ ⟨0, 90⟩ = .ok _ :=
    between_of_sphere (by decide +kernel) (by decide +kernel) (by decide +kernel)
  exact ⟨rightAngles_ranged, _, hbetween, by decide +kernel⟩

end Geodesic

end CoordTransform
