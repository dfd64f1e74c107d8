import CoordTransform.Geodesy.Ellipsoid
import CoordTransform.Proofs.Computation
import CoordTransform.Proofs.Double.Signs

/-!
# Well-Formed Ellipsoids

The axes of an ellipsoid should not be negative, nor should its inverse flattening. The arguments
of a constructor are checked for that; the value that is derived from them is not. It is below
zero when the minor axis is the longer one, or the inverse flattening is below one, unless it is
rounded to zero.
-/

namespace CoordTransform.Ellipsoid

open Double

/-! ## What is accepted -/

/-- A finite positive length. -/
structure IsLength (x : Float) : Prop where
  finite : x.isFinite = true
  pos : 0 < x

theorem requireLength_eq_ok {name : String} {x : Float} :
    requireLength name x = .ok () ↔ IsLength x := by
  unfold requireLength
  split
  · next h =>
    rw [Bool.and_eq_true, decide_eq_true_iff] at h
    exact iff_of_true rfl ⟨h.1, h.2⟩
  · next h =>
    rw [Bool.and_eq_true, decide_eq_true_iff] at h
    exact iff_of_false (fun heq => nomatch heq) fun hx => h ⟨hx.finite, hx.pos⟩

/-- What follows the check of a length. -/
theorem requireLength_bind_eq_ok {β : Type} {name : String} {x : Float}
    {f : Unit → Except (TransformError Float) β} {c : β} :
    requireLength name x >>= f = .ok c ↔ IsLength x ∧ f () = .ok c := by
  rw [bind_eq_ok, ← @requireLength_eq_ok name]
  exact ⟨fun ⟨_, hx, hf⟩ => ⟨hx, hf⟩, fun ⟨hx, hf⟩ => ⟨(), hx, hf⟩⟩

variable {name : String} {a x : Float} {unit : LengthUnit} {e : Ellipsoid}

/-- Two axes are accepted when both are lengths. -/
theorem ofAxes_eq_ok : ofAxes name a x unit = .ok e ↔
    IsLength a ∧ IsLength x ∧ ofDefinitiveAxes name a x unit = e := by
  rw [ofAxes, requireLength_bind_eq_ok, requireLength_bind_eq_ok]
  exact and_congr_right' (and_congr_right' (Except.ok.injEq ..).to_iff)

/-- A radius is accepted when it is a length. -/
theorem sphere_eq_ok : sphere name a unit = .ok e ↔
    IsLength a ∧ ofDefinitiveAxes name a a unit = e := by
  rw [sphere, requireLength_bind_eq_ok]
  exact and_congr_right' (Except.ok.injEq ..).to_iff

/-- An inverse flattening is accepted when it is a number that is not negative; zero and infinity
make a sphere. -/
theorem ofInverseFlattening_eq_ok : ofInverseFlattening name a x unit = .ok e ↔
    IsLength a ∧ x.isNaN = false ∧ ¬ x < 0 ∧
      (if (x == 0 || x.isInf) = true then ofDefinitiveAxes name a a unit
        else ofDefinitiveFlattening name a x unit) = e := by
  rw [ofInverseFlattening, requireLength_bind_eq_ok]
  refine and_congr_right fun ha => ?_
  -- A number is refused when it is undefined or negative.
  have hrefused : (x.isNaN || decide (x < 0)) = false ↔ x.isNaN = false ∧ ¬ x < 0 := by
    rw [Bool.or_eq_false_iff, decide_eq_false_iff_not]
  rw [← and_assoc, ← hrefused]
  cases (x.isNaN || decide (x < 0)) with
  | true => exact iff_of_false (fun heq => nomatch heq) fun h => nomatch h.1
  | false =>
    rw [and_iff_right rfl]
    cases (x == 0 || x.isInf) with
    | true => exact sphere_eq_ok.trans (and_iff_right ha)
    | false => exact (Except.ok.injEq ..).to_iff

/-! ## What is derived -/

/-- No length is negative, and neither is the inverse flattening, which may be infinite. An
undefined value is not above zero. -/
structure WellFormed (e : Ellipsoid) : Prop where
  semiMajor : 0 < e.semiMajor
  semiMinor : 0 ≤ e.semiMinor
  inverseFlattening : 0 ≤ e.inverseFlattening

theorem IsLength.nonneg {x : Float} (h : IsLength x) : 0 ≤ x := (nonneg_iff x).2 (.inl h.pos)

theorem zero_le_infinity : (0 : Float) ≤ 1 / 0 := by decide +kernel

/-- The inverse flattening that follows from two axes is not negative when the semi-minor axis is
not the longer one. -/
theorem inverseFlattening_nonneg (ha : IsLength a) (hx : IsLength x) (h : x ≤ a) :
    0 ≤ (ofDefinitiveAxes name a x unit).inverseFlattening := by
  unfold ofDefinitiveAxes
  dsimp only
  split
  · exact zero_le_infinity
  · next hne =>
    have hlt := lt_of_le_of_not_beq hx.pos hx.finite ha.pos ha.finite h hne
    exact div_nonneg ha.pos ha.finite (sub_pos_of_lt ha.pos ha.finite hx.nonneg hlt)

/-- Otherwise it is negative or rounded to zero. -/
theorem inverseFlattening_nonpos (ha : IsLength a) (h : a < x) :
    (ofDefinitiveAxes name a x unit).inverseFlattening < 0 ∨
      ((ofDefinitiveAxes name a x unit).inverseFlattening == 0) = true := by
  have hne : ¬ (a == x) = true := by
    rw [lt_iff_compare] at h
    rw [beq_iff_compare, h]
    exact fun heq => nomatch heq
  unfold ofDefinitiveAxes
  dsimp only
  rw [if_neg hne]
  exact div_nonpos ha.pos ha.finite (sub_neg_of_lt ha.pos ha.finite h)

theorem wellFormed_ofDefinitiveAxes_iff (ha : IsLength a) (hx : IsLength x) :
    (ofDefinitiveAxes name a x unit).WellFormed ↔ x ≤ a ∨
      ((ofDefinitiveAxes name a x unit).inverseFlattening == 0) = true := by
  constructor
  · intro h
    by_cases hle : x ≤ a
    · exact .inl hle
    · have hlt := (not_le_iff_lt hx.pos hx.finite ha.pos ha.finite).1 hle
      exact .inr ((nonneg_iff_of_nonpos (inverseFlattening_nonpos ha hlt)).1 h.inverseFlattening)
  · rintro (hle | hzero)
    · exact ⟨ha.pos, hx.nonneg, inverseFlattening_nonneg ha hx hle⟩
    · exact ⟨ha.pos, hx.nonneg, (nonneg_iff _).2 (.inr hzero)⟩

theorem wellFormed_sphere (ha : IsLength a) : (ofDefinitiveAxes name a a unit).WellFormed :=
  (wellFormed_ofDefinitiveAxes_iff ha ha).2 (.inl (le_self ha.pos ha.finite))

theorem one_pos : (0 : Float) < 1 := by decide +kernel

/-- The semi-minor axis that follows from an inverse flattening of at least one is not negative. -/
theorem semiMinor_nonneg (ha : IsLength a) (h : 1 ≤ x) :
    0 ≤ (ofDefinitiveFlattening name a x unit).semiMinor :=
  have hreciprocal := one_div_le_one h
  mul_nonneg ha.pos ha.finite (sub_nonneg_of_le one_pos rfl hreciprocal.1 hreciprocal.2)

/-- Otherwise it is negative or rounded to zero. -/
theorem semiMinor_nonpos (ha : IsLength a) (hpos : 0 < x) (h : x < 1) :
    (ofDefinitiveFlattening name a x unit).semiMinor < 0 ∨
      ((ofDefinitiveFlattening name a x unit).semiMinor == 0) = true :=
  mul_nonpos ha.pos ha.finite (sub_neg_of_lt one_pos rfl (one_lt_one_div hpos h))

theorem wellFormed_ofDefinitiveFlattening_iff (ha : IsLength a) (hx : IsLength x) :
    (ofDefinitiveFlattening name a x unit).WellFormed ↔ 1 ≤ x ∨
      ((ofDefinitiveFlattening name a x unit).semiMinor == 0) = true := by
  constructor
  · intro h
    by_cases hle : 1 ≤ x
    · exact .inl hle
    · have hlt := (not_le_iff_lt one_pos rfl hx.pos hx.finite).1 hle
      exact .inr ((nonneg_iff_of_nonpos (semiMinor_nonpos ha hx.pos hlt)).1 h.semiMinor)
  · rintro (hle | hzero)
    · exact ⟨ha.pos, semiMinor_nonneg ha hle, hx.nonneg⟩
    · exact ⟨ha.pos, (nonneg_iff _).2 (.inr hzero), hx.nonneg⟩

/-! ## Constructors -/

/-- A sphere is well formed. Two axes make a well-formed ellipsoid exactly when the semi-minor axis
is not the longer one, and an inverse flattening exactly when it is zero or at least one, up to
derived values that are rounded to zero. -/
theorem wellFormed_iff (name : String) (a x : Float) (unit : LengthUnit) (e : Ellipsoid) :
    (sphere name a unit = .ok e → e.WellFormed) ∧
    (ofAxes name a x unit = .ok e →
      (e.WellFormed ↔ x ≤ a ∨ (e.inverseFlattening == 0) = true)) ∧
    (ofInverseFlattening name a x unit = .ok e →
      (e.WellFormed ↔ (x == 0) = true ∨ 1 ≤ x ∨ (e.semiMinor == 0) = true)) := by
  refine ⟨fun h => ?_, fun h => ?_, fun h => ?_⟩
  · obtain ⟨ha, rfl⟩ := sphere_eq_ok.1 h
    exact wellFormed_sphere ha
  · obtain ⟨ha, hx, rfl⟩ := ofAxes_eq_ok.1 h
    -- The semi-minor axis was given and the inverse flattening is derived.
    exact wellFormed_ofDefinitiveAxes_iff ha hx
  · obtain ⟨ha, hnumber, hneg, rfl⟩ := ofInverseFlattening_eq_ok.1 h
    -- The inverse flattening was given. Zero and infinity make a sphere, for which both sides hold.
    split
    · next hsphere =>
      refine iff_of_true (wellFormed_sphere ha) ?_
      rcases Bool.or_eq_true_iff.1 hsphere with hzero | hinfinite
      · exact .inl hzero
      · exact .inr (.inl (one_le_of_isInf hinfinite hneg))
    · -- Other values are positive and finite, and the semi-minor axis is derived.
      next hflattened =>
      rw [Bool.or_eq_true_iff, not_or] at hflattened
      obtain ⟨hzero, hfinite⟩ := hflattened
      have hx : IsLength x :=
        ⟨isFinite_of_not hnumber (Bool.eq_false_iff.2 hfinite), pos_of_not hnumber hneg hzero⟩
      rw [or_iff_right hzero]
      exact wellFormed_ofDefinitiveFlattening_iff ha hx

/-- One ellipsoid of each constructor. With a semi-minor axis of twice the length of the other one
an ellipsoid is not well formed. -/
theorem wellFormed_iff_earth :
    (sphere "unit" 1 .metre = .ok (ofDefinitiveAxes "unit" 1 1 .metre) ∧
      (ofDefinitiveAxes "unit" 1 1 .metre).WellFormed) ∧
    (ofAxes "oblong" 1 2 .metre = .ok (ofDefinitiveAxes "oblong" 1 2 .metre) ∧
      ¬ (ofDefinitiveAxes "oblong" 1 2 .metre).WellFormed) ∧
    (ofInverseFlattening wgs84.name 6378137 298.257223563 .metre = .ok wgs84 ∧
      wgs84.WellFormed) := by
  -- The lengths of the three examples are lengths.
  have hone : IsLength 1 := ⟨by decide +kernel, by decide +kernel⟩
  have htwo : IsLength 2 := ⟨by decide +kernel, by decide +kernel⟩
  have hradius : IsLength 6378137 := ⟨by decide +kernel, by decide +kernel⟩
  have hsphere : sphere "unit" 1 .metre = .ok (ofDefinitiveAxes "unit" 1 1 .metre) :=
    sphere_eq_ok.2 ⟨hone, rfl⟩
  have hoblong : ofAxes "oblong" 1 2 .metre = .ok (ofDefinitiveAxes "oblong" 1 2 .metre) :=
    ofAxes_eq_ok.2 ⟨hone, htwo, rfl⟩
  have hearth : ofInverseFlattening wgs84.name 6378137 298.257223563 .metre = .ok wgs84 :=
    ofInverseFlattening_eq_ok.2 ⟨hradius, by decide +kernel, by decide +kernel,
      if_neg (by decide +kernel)⟩
  refine ⟨⟨hsphere, ?_⟩, ⟨hoblong, fun h => ?_⟩, hearth, ?_⟩
  · exact (wellFormed_iff "unit" 1 1 .metre _).1 hsphere
  · have := ((wellFormed_iff "oblong" 1 2 .metre _).2.1 hoblong).1 h
    revert this
    decide +kernel
  · exact ((wellFormed_iff _ _ _ .metre _).2.2 hearth).2 (.inr (.inl (by decide +kernel)))

/-- A semi-minor axis that is the longer one is accepted, and so is an inverse flattening below
one. -/
theorem derived_negative :
    (∃ e, ofAxes "oblong" 1 2 .metre = .ok e ∧ e.inverseFlattening < 0) ∧
    ∃ e, ofInverseFlattening "inverted" 1 0.5 .metre = .ok e ∧ e.semiMinor < 0 := by
  have hone : IsLength 1 := ⟨by decide +kernel, by decide +kernel⟩
  have htwo : IsLength 2 := ⟨by decide +kernel, by decide +kernel⟩
  refine ⟨⟨_, ofAxes_eq_ok.2 ⟨hone, htwo, rfl⟩, by decide +kernel⟩, ?_⟩
  exact ⟨_, ofInverseFlattening_eq_ok.2 ⟨hone, by decide +kernel, by decide +kernel,
    if_neg (by decide +kernel)⟩, by decide +kernel⟩

end CoordTransform.Ellipsoid
