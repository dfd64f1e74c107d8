import Mathlib
import CoordTransform.Affine.Rounding
import CoordTransform.Proofs.Double
import CoordTransform.Proofs.Double.Nearest

/-!
# Rounding is All or Nothing

`RoundsTo` describes when whole coefficients may take the place of others: each is the nearest
whole number, none is further away than the tolerance, and neither row of the linear part is zero.
Rounding goes to these coefficients whenever there are such, and else leaves the map as it is, with
the inverse that it knows. In both cases a second rounding finds nothing more to do.
-/

namespace CoordTransform.Affine

open Double (NearestWhole)

/-! ## What rounding may change -/

/-- Whole coefficients that may take the place of `c` within a tolerance, whose sign does not
matter. The distances are computed, and so rounded, like all differences. -/
structure RoundsTo (tolerance : Float) (c r : AffineCoefficients Float) : Prop where
  nearest : List.Forall₂ NearestWhole c.toList r.toList
  close : List.Forall₂ (fun x y => (x - y).abs ≤ tolerance.abs) c.toList r.toList
  first : ¬ ((r.m00 == 0) = true ∧ (r.m01 == 0) = true)
  second : ¬ ((r.m10 == 0) = true ∧ (r.m11 == 0) = true)

theorem toList_injective {c r : AffineCoefficients Float} (h : c.toList = r.toList) : c = r := by
  cases c
  cases r
  simpa [AffineCoefficients.toList] using h

/-! ## The two tests -/

/-- Nearest whole numbers, one by one, are what rounding makes of finite numbers. -/
theorem forall₂_nearestWhole_iff {xs rs : List Float} : List.Forall₂ NearestWhole xs rs ↔
    (∀ x ∈ xs, x.isFinite = true) ∧ xs.map Double.roundHalfAway = rs := by
  have hnearest : NearestWhole = fun x r => x.isFinite = true ∧ Double.roundHalfAway x = r := by
    funext x r
    rw [Double.nearestWhole_iff, eq_comm (a := r)]
  have hmap : List.Forall₂ (fun x r => Double.roundHalfAway x = r) xs rs ↔
      List.Forall₂ Eq (xs.map Double.roundHalfAway) rs := List.forall₂_map_left_iff.symm
  rw [hnearest, List.forall₂_and_left, hmap, List.forall₂_eq_eq_eq]

variable {c r : AffineCoefficients Float} {tolerance : Float}

theorem forall₂_close_iff {xs : List Float} :
    List.Forall₂ (fun x y => (x - y).abs ≤ tolerance) xs (xs.map Double.roundHalfAway) ↔
      ∀ x ∈ xs, (x - Double.roundHalfAway x).abs ≤ tolerance := by
  rw [List.forall₂_map_right_iff, List.forall₂_same]

theorem all_within_iff {xs : List Float} :
    ((xs.zip (xs.map Double.roundHalfAway)).all fun p => Scalar.within tolerance p.1 p.2) = true ↔
      ∀ x ∈ xs, (x - Double.roundHalfAway x).abs ≤ tolerance := by
  induction xs with
  | nil => simp
  | cons x xs ih =>
    rw [List.map_cons, List.zip_cons_cons, List.all_cons, Bool.and_eq_true, ih,
      List.forall_mem_cons]
    exact and_congr_left' decide_eq_true_iff

/-- All six coefficients are rounded when each is close to its nearest whole number. -/
theorem roundedCoefficients?_eq_some_iff : roundedCoefficients? c tolerance = some r ↔
    List.Forall₂ NearestWhole c.toList r.toList ∧
      List.Forall₂ (fun x y => (x - y).abs ≤ tolerance) c.toList r.toList := by
  rw [forall₂_nearestWhole_iff]
  unfold roundedCoefficients?
  dsimp only
  split
  · next hall =>
    have hclose := all_within_iff.1 hall
    rw [Option.some.injEq]
    constructor
    · rintro rfl
      -- Coefficients that are close to their rounded values are finite.
      exact ⟨⟨fun x hx => Double.isFinite_of_close (hclose x hx), rfl⟩,
        forall₂_close_iff.2 hclose⟩
    · rintro ⟨⟨-, hmap⟩, -⟩
      exact toList_injective hmap
  · next hall =>
    constructor
    · rintro ⟨⟩
    · rintro ⟨⟨-, hmap⟩, hclose⟩
      rw [← hmap, forall₂_close_iff] at hclose
      exact absurd (all_within_iff.2 hclose) hall

theorem hasZeroRow_eq_false_iff : hasZeroRow r = false ↔
    ¬ ((r.m00 == 0) = true ∧ (r.m01 == 0) = true) ∧
      ¬ ((r.m10 == 0) = true ∧ (r.m11 == 0) = true) := by
  change (((r.m00 == 0) && (r.m01 == 0)) || ((r.m10 == 0) && (r.m11 == 0))) = false ↔ _
  rw [Bool.or_eq_false_iff, ← Bool.not_eq_true, ← Bool.not_eq_true, Bool.and_eq_true,
    Bool.and_eq_true]

/-- The coefficients that both tests leave. -/
theorem roundsTo_iff : RoundsTo tolerance c r ↔
    roundedCoefficients? c (Scalar.abs tolerance) = some r ∧ hasZeroRow r = false := by
  rw [roundedCoefficients?_eq_some_iff, hasZeroRow_eq_false_iff]
  constructor
  · intro h
    exact ⟨⟨h.nearest, h.close⟩, h.first, h.second⟩
  · rintro ⟨⟨hnearest, hclose⟩, hfirst, hsecond⟩
    exact ⟨hnearest, hclose, hfirst, hsecond⟩

/-- Coefficients that others are rounded to are rounded to themselves. -/
theorem RoundsTo.self (h : RoundsTo tolerance c r) : RoundsTo tolerance r r := by
  obtain ⟨hnearest, hclose, hfirst, hsecond⟩ := h
  -- Some distance is within the tolerance, so the distance of a number to itself is.
  obtain ⟨y, hbound⟩ : ∃ y : Float, y ≤ tolerance.abs := by
    cases hclose with
    | cons hle _ => exact ⟨_, hle⟩
  have hwhole : ∀ y ∈ r.toList, Double.IsWhole y := by
    obtain ⟨hfinite, hmap⟩ := forall₂_nearestWhole_iff.1 hnearest
    rw [← hmap]
    intro y hy
    obtain ⟨x, hx, rfl⟩ := List.mem_map.1 hy
    exact (Double.nearestWhole_iff.2 ⟨hfinite x hx, rfl⟩).isWhole
  refine ⟨List.forall₂_same.2 fun y hy => (hwhole y hy).nearestWhole_self,
    List.forall₂_same.2 fun y hy => ?_, hfirst, hsecond⟩
  have hfinite := (Double.nearestWhole_iff.1 (hwhole y hy).nearestWhole_self).1
  exact Double.abs_sub_self_le hfinite hbound

/-! ## Rounding -/

theorem round_of_roundsTo {a : Affine Float} (h : RoundsTo tolerance a.toAffineCoefficients r) :
    a.round tolerance = ofCoefficients r := by
  obtain ⟨hrounded, hrow⟩ := roundsTo_iff.1 h
  unfold round
  rw [hrounded]
  dsimp only
  rw [hrow]
  rfl

/-- Rounding leaves a map as it is, or goes to whole coefficients. -/
theorem round_cases (a : Affine Float) (tolerance : Float) :
    a.round tolerance = a ∨
      ∃ r, RoundsTo tolerance a.toAffineCoefficients r ∧ a.round tolerance = ofCoefficients r := by
  by_cases h : ∃ r, RoundsTo tolerance a.toAffineCoefficients r
  · obtain ⟨r, hr⟩ := h
    exact .inr ⟨r, hr, round_of_roundsTo hr⟩
  · left
    -- Coefficients that are rounded in vain have a zero row, which the map then keeps.
    unfold round
    split
    · next r hrounded =>
      refine if_pos ?_
      by_contra hrow
      exact h ⟨r, roundsTo_iff.2 ⟨hrounded, by simpa using hrow⟩⟩
    · rfl

/-- Rounding a map a second time with the same tolerance changes nothing, neither a bit of a
coefficient nor the inverse that the map knows. -/
theorem round_round (a : Affine Float) (tolerance : Float) :
    (a.round tolerance).round tolerance = a.round tolerance := by
  rcases round_cases a tolerance with hsame | ⟨r, hr, hround⟩
  · rw [hsame, hsame]
  · rw [hround]
    exact round_of_roundsTo hr.self

/-- Rounding keeps the bits of all six coefficients or goes to whole ones, and to these whenever it
may. Rounding once more changes nothing. -/
theorem round_all_or_nothing (a : Affine Float) (tolerance : Float) :
    ((a.round tolerance).toList.map Float.toBits = a.toList.map Float.toBits ∨
      RoundsTo tolerance a.toAffineCoefficients (a.round tolerance).toAffineCoefficients) ∧
    (∀ r, RoundsTo tolerance a.toAffineCoefficients r →
      (a.round tolerance).toAffineCoefficients = r) ∧
    (a.round tolerance).round tolerance = a.round tolerance := by
  refine ⟨?_, fun r hr => ?_, round_round a tolerance⟩
  · -- Kept coefficients keep their bits, the others are whole.
    rcases round_cases a tolerance with hsame | ⟨r, hr, hround⟩
    · exact .inl (by rw [hsame])
    · exact .inr (by rwa [hround])
  · rw [round_of_roundsTo hr]
    rfl

/-- A map that has drifted from whole coefficients, one of them from zero to below it. -/
def drifted : Affine Float := ofCoefficients ⟨2.000000000001, -1e-13, 4.999999999999, -0, 1, -3⟩

/-- Within a billionth it is rounded to them, the signs of its zeros kept. -/
theorem round_all_or_nothing_drifted :
    RoundsTo (-1e-9) drifted.toAffineCoefficients ⟨2, -0, 5, -0, 1, -3⟩ ∧
    (drifted.round (-1e-9)).toAffineCoefficients = ⟨2, -0, 5, -0, 1, -3⟩ := by
  have hrounds : RoundsTo (-1e-9) drifted.toAffineCoefficients ⟨2, -0, 5, -0, 1, -3⟩ :=
    roundsTo_iff.2 ⟨by decide +kernel, by decide +kernel⟩
  exact ⟨hrounds, (round_all_or_nothing drifted (-1e-9)).2.1 _ hrounds⟩

end CoordTransform.Affine
