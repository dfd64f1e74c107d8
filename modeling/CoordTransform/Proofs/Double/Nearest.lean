import Mathlib
import CoordTransform.Proofs.Double.Magnitude

/-!
# The Nearest Whole Number

Rounding keeps the sign of a double and takes its magnitude to the nearest natural number, a half
up. Every step of it is exact: the fraction is cut off, what was cut off is a double again, and it
is compared with a half. From `2 ^ 52` on there is nothing to cut off.

The nearest whole number is described by `NearestWhole`, which says nothing about how it is found.
-/

namespace CoordTransform.Double

open Float.Model (UnpackedFloat)
open Float.Model.UnpackedFloat (Sign)

/-! ## Whole numbers -/

/-- A double is whole when its magnitude is a natural number. -/
def IsWhole (x : Float) : Prop := ∃ s, ∃ n : Nat, magnitude? x = some (s, (n : ℚ))

/-- The whole number next to a double: the signs agree, and the magnitudes differ by at most a
half. Of two such numbers it is the greater one. -/
def NearestWhole (x r : Float) : Prop :=
  ∃ s q, ∃ n : Nat, magnitude? x = some (s, q) ∧ magnitude? r = some (s, (n : ℚ)) ∧
    (n : ℚ) - 1 / 2 ≤ q ∧ q < n + 1 / 2

variable {x y r r' : Float} {s : Sign} {q : ℚ}

theorem NearestWhole.isWhole (h : NearestWhole x r) : IsWhole r := by
  obtain ⟨s, q, n, -, hr, -, -⟩ := h
  exact ⟨s, n, hr⟩

/-- There is one nearest whole number, with one representation. -/
theorem NearestWhole.unique (h : NearestWhole x r) (h' : NearestWhole x r') : r = r' := by
  obtain ⟨s, q, n, hx, hr, hlow, hhigh⟩ := h
  obtain ⟨s', q', n', hx', hr', hlow', hhigh'⟩ := h'
  rw [hx, Option.some.injEq, Prod.mk.injEq] at hx'
  obtain ⟨rfl, rfl⟩ := hx'
  -- The two numbers are less than one apart.
  have hle : n < n' + 1 := by
    have : (n : ℚ) < n' + 1 := by linarith
    exact_mod_cast this
  have hge : n' < n + 1 := by
    have : (n' : ℚ) < n + 1 := by linarith
    exact_mod_cast this
  obtain rfl : n = n' := by omega
  exact magnitude?_inj hr hr'

/-- A whole number is its own nearest one. -/
theorem IsWhole.nearestWhole_self (h : IsWhole r) : NearestWhole r r := by
  obtain ⟨s, n, hr⟩ := h
  exact ⟨s, n, n, hr, hr, by linarith, by linarith⟩

/-! ## Constants -/

theorem unpack_half : unpack 0.5 = .finite .positive (2 ^ 52) (-53) (by decide) := rfl

theorem unpack_wholeFrom : unpack wholeFrom = .finite .positive (2 ^ 52) 0 (by decide) := rfl

theorem magnitude?_one : magnitude? 1 = some (.positive, 1) :=
  magnitude?_eq_some_iff.2 (.inr ⟨_, _, _, unpack_one, value_one⟩)

theorem magnitude?_half : magnitude? 0.5 = some (.positive, 1 / 2) :=
  magnitude?_eq_some_iff.2 (.inr ⟨_, _, _, unpack_half, by norm_num [value]⟩)

theorem magnitude?_wholeFrom : magnitude? wholeFrom = some (.positive, 2 ^ 52) :=
  magnitude?_eq_some_iff.2 (.inr ⟨_, _, _, unpack_wholeFrom, by norm_num [value]⟩)

/-! ## Cutting off the fraction -/

/-- The integer that a positive value is cut down to. -/
theorem roundToInt_positive (m : Nat) (e : Int) :
    UnpackedFloat.roundToInt .positive m e = ⌊value m e⌋₊ := by
  -- The digits behind the point are shifted out of the extended significand.
  have hextends := (extends_exact (m <<< e.toNat)).shiftRight (-e).toNat
  have hvalue := value_eq_div m e
  rw [Nat.cast_pow, Nat.cast_two] at hvalue
  rw [← hvalue] at hextends
  have hfloor : ⌊value m e⌋₊ = _ :=
    (Nat.floor_eq_iff ((Nat.cast_nonneg _).trans hextends.le)).2 ⟨hextends.le, hextends.lt⟩
  have hraise : (e - 0).toNat = e.toNat := by rw [Int.sub_zero]
  have hlower : (0 - (e - (e - 0).toNat)).toNat = (-e).toNat := by omega
  rw [hfloor, ← hlower, ← hraise]
  rfl

/-- The conversion to a machine word cuts off the fraction. -/
theorem toNat_toUInt64 (h : magnitude? x = some (.positive, q)) (hq : q < 2 ^ 53) :
    x.toUInt64.toNat = ⌊q⌋₊ := by
  -- The word is clamped to its range, in which the whole part of the number is.
  have hclamp : x.toUInt64.toNat =
      (UInt64.ofNatClamp (UnpackedFloat.toInt 0 (UInt64.size - 1) (unpack x)).toNat).toNat := rfl
  have hint : UnpackedFloat.toInt 0 (UInt64.size - 1) (unpack x) = ⌊q⌋₊ := by
    obtain ⟨hparts, rfl⟩ | ⟨m, e, hm, hparts, rfl⟩ := magnitude?_eq_some_iff.1 h
    · rw [hparts, Nat.floor_zero]
      rfl
    · rw [hparts]
      exact roundToInt_positive m e
  have hsize : ⌊q⌋₊ < UInt64.size :=
    ((Nat.floor_lt' (by decide)).2 (by exact_mod_cast hq)).trans
      (show 2 ^ 53 < UInt64.size by decide)
  rw [hclamp, hint, Int.toNat_natCast, UInt64.ofNatClamp, dif_pos hsize]
  rfl

/-- The conversion from a machine word is exact below `2 ^ 53`. -/
theorem magnitude?_toFloat {w : UInt64} (hw : w.toNat < 2 ^ 53) :
    magnitude? w.toFloat = some (.positive, (w.toNat : ℚ)) := by
  -- Zero has parts of its own; any other word has a significand of the same value.
  rcases Nat.eq_zero_or_pos w.toNat with hzero | hpos
  · obtain rfl : w = 0 := UInt64.toNat_inj.1 hzero
    exact magnitude?_pack_zero .positive
  · obtain ⟨m, e, hcanonical, he, hvalue⟩ := exists_canonical_of_lt hw
    have hm : 0 < m := by
      refine Nat.pos_of_ne_zero fun hzero => hpos.ne' ?_
      rw [hzero, value, Nat.cast_zero, zero_mul] at hvalue
      exact Nat.cast_eq_zero.1 hvalue.symm
    have hparts := unpack_toFloat hpos hw hm hcanonical he hvalue
    rw [show w.toNat.toUInt64 = w from UInt64.ofNat_toNat] at hparts
    exact magnitude?_eq_some_iff.2 (.inr ⟨m, e, hm, hparts, hvalue⟩)

theorem magnitude?_wholePart (h : magnitude? x = some (.positive, q)) (hq : q < 2 ^ 52) :
    magnitude? (wholePart x) = some (.positive, (⌊q⌋₊ : ℚ)) := by
  have hnat := toNat_toUInt64 h (hq.trans (by norm_num))
  have hlt : ⌊q⌋₊ < 2 ^ 53 := (Nat.floor_lt' (by decide)).2 (by push_cast; linarith)
  rw [← hnat]
  exact magnitude?_toFloat (hnat ▸ hlt)

/-- What is cut off needs no more digits than the whole had. -/
theorem isMagnitude_fraction (h : magnitude? x = some (s, q)) : IsMagnitude (q - ⌊q⌋₊) := by
  obtain ⟨-, rfl⟩ | ⟨m, e, hm, hparts, rfl⟩ := magnitude?_eq_some_iff.1 h
  · rw [Nat.floor_zero, Nat.cast_zero, sub_zero]
    exact isMagnitude_natCast (n := 0) (by decide)
  have hcanonical := (canonical_of_unpack hparts).1
  rcases le_total 0 e with hpos | hneg
  · -- The value is whole.
    rw [value_eq_of_le m hpos, value_zero_exponent, Nat.floor_natCast, sub_self]
    exact isMagnitude_natCast (n := 0) (by decide)
  · obtain ⟨k, hk⟩ := Int.eq_ofNat_of_zero_le (neg_nonneg.2 hneg)
    obtain rfl : e = -k := by omega
    have hvalue : ∀ n : Nat, value n (-k) = n / ((2 ^ k : Nat) : ℚ) := fun n => by
      rw [value, zpow_neg, zpow_natCast, div_eq_mul_inv, Nat.cast_pow, Nat.cast_two]
    have hfraction : value m (-k) - ⌊value m (-k)⌋₊ = value (m % 2 ^ k) (-k) := by
      have hdivision : (m : ℚ) = (2 ^ k : Nat) * (m / 2 ^ k : Nat) + (m % 2 ^ k : Nat) := by
        exact_mod_cast (Nat.div_add_mod m (2 ^ k)).symm
      have hne : ((2 ^ k : Nat) : ℚ) ≠ 0 := by positivity
      rw [hvalue, hvalue, Nat.floor_div_eq_div, div_sub' hne, div_left_inj' hne]
      linarith
    rw [hfraction]
    exact isMagnitude_value ((Nat.mod_le m _).trans_lt hcanonical.lt) hcanonical.lowest (by omega)

/-- From `2 ^ 52` on every double is whole. -/
theorem exists_natCast_of_le (h : magnitude? x = some (s, q)) (hq : 2 ^ 52 ≤ q) :
    ∃ n : Nat, q = n := by
  obtain ⟨-, rfl⟩ | ⟨m, e, hm, hparts, rfl⟩ := magnitude?_eq_some_iff.1 h
  · norm_num at hq
  · have hcanonical := (canonical_of_unpack hparts).1
    -- With a negative exponent, the value would be below `2 ^ 52`.
    have hpos : 0 ≤ e := by
      by_contra hneg
      refine absurd hq (not_le_of_gt ?_)
      calc value m e < value (2 ^ 53) e := value_lt_value.2 hcanonical.lt
        _ ≤ value (2 ^ 53) (-1) := mul_le_mul_of_nonneg_left
            (zpow_le_zpow_right₀ (by norm_num) (by omega)) (Nat.cast_nonneg _)
        _ = 2 ^ 52 := by norm_num [value]
    exact ⟨_, (value_eq_of_le m hpos).trans (value_zero_exponent _)⟩

/-! ## Rounding -/

theorem nearestWhole_roundHalfAway (h : magnitude? x = some (s, q)) :
    NearestWhole x (roundHalfAway x) := by
  have habs := magnitude?_abs h
  have hsmall := lt_iff_magnitude habs magnitude?_wholeFrom
  have hfloor := Nat.floor_le (magnitude_nonneg h)
  have hnext := Nat.lt_floor_add_one q
  rw [roundHalfAway]
  split
  · next hlt =>
    rw [hsmall] at hlt
    have hwhole := magnitude?_wholePart habs hlt
    -- The difference from the whole part is exact, and so is its comparison with a half.
    have hfraction := magnitude?_sub habs hwhole hfloor (isMagnitude_fraction h)
    have hhalf := le_iff_magnitude magnitude?_half hfraction
    dsimp only
    split
    · next hle =>
      rw [hhalf] at hle
      have hlt' : ⌊q⌋₊ + 1 < 2 ^ 53 :=
        Nat.succ_lt_of_lt_pred ((Nat.floor_lt' (by decide)).2 (by norm_num; linarith))
      have hsum : IsMagnitude ((⌊q⌋₊ : ℚ) + 1) := by exact_mod_cast isMagnitude_natCast hlt'
      refine ⟨s, q, ⌊q⌋₊ + 1, h, ?_, ?_, ?_⟩
      · rw [Nat.cast_add_one]
        exact magnitude?_withSignOf h (magnitude?_add hwhole magnitude?_one hsum)
      · push_cast
        linarith
      · push_cast
        linarith
    · next hlt =>
      rw [hhalf, not_le] at hlt
      exact ⟨s, q, ⌊q⌋₊, h, magnitude?_withSignOf h hwhole, by linarith, by linarith⟩
  · next hge =>
    rw [hsmall, not_lt] at hge
    obtain ⟨n, rfl⟩ := exists_natCast_of_le h hge
    exact IsWhole.nearestWhole_self ⟨s, n, h⟩

/-- Rounding finds the nearest whole number of every finite double, and of no other. -/
theorem nearestWhole_iff : NearestWhole x r ↔ x.isFinite = true ∧ r = roundHalfAway x := by
  constructor
  · intro h
    have h' := h
    obtain ⟨s, q, -, hx, -⟩ := h'
    exact ⟨isFinite_of_magnitude hx, h.unique (nearestWhole_roundHalfAway hx)⟩
  · rintro ⟨hfinite, rfl⟩
    obtain ⟨s, q, hx⟩ := exists_magnitude hfinite
    exact nearestWhole_roundHalfAway hx

/-- Infinities and undefined values are not rounded. -/
theorem roundHalfAway_of_not_finite (h : x.isFinite = false) : roundHalfAway x = x := by
  change (unpack x).isFinite = false at h
  have hlarge : ¬ x.abs < wholeFrom := by
    rw [lt_iff_compare, unpack_abs, unpack_wholeFrom]
    cases hparts : unpack x with
    | notANumber => simp [UnpackedFloat.abs, UnpackedFloat.compare]
    | infinity s => simp [UnpackedFloat.abs, UnpackedFloat.compare]
    | zero s => rw [hparts] at h; cases h
    | finite s m e hm => rw [hparts] at h; cases h
  rw [roundHalfAway, if_neg hlarge]

/-! ## Distances -/

/-- An infinity or an undefined value has no difference from its rounded value. -/
theorem isFinite_of_close (h : (x - roundHalfAway x).abs ≤ y) : x.isFinite = true := by
  by_contra hfinite
  rw [Bool.not_eq_true] at hfinite
  obtain ⟨o, ho, -⟩ := (le_iff_compare _ _).1 h
  rw [roundHalfAway_of_not_finite hfinite, unpack_abs, unpack_sub_self, hfinite] at ho
  cases ho

/-- A finite double is close to itself within every tolerance that bounds anything at all. -/
theorem abs_sub_self_le {tolerance : Float} (hr : r.isFinite = true) (h : y ≤ tolerance.abs) :
    (r - r).abs ≤ tolerance.abs := by
  obtain ⟨o, ho, -⟩ := (le_iff_compare _ _).1 h
  rw [unpack_abs] at ho
  rw [le_iff_compare, unpack_abs, unpack_abs, unpack_sub_self, hr]
  cases hparts : unpack tolerance with
  | notANumber =>
    -- An undefined tolerance bounds nothing.
    rw [hparts] at ho
    cases hy : unpack y <;> rw [hy] at ho <;> cases ho
  | infinity s => exact ⟨.lt, rfl, rfl⟩
  | zero s => exact ⟨.eq, rfl, rfl⟩
  | finite s m e hm => exact ⟨.lt, rfl, rfl⟩

end CoordTransform.Double
