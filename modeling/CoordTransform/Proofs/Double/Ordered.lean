import Mathlib
import CoordTransform.Proofs.Double.Interval
import CoordTransform.Proofs.Double.Range

/-!
# The Order of Doubles

Finite doubles are compared as the numbers that they are. Rounding keeps the order to every
double: a number that is not above a double is not rounded to anything above it. How close to a
double a sum must be to become that double is told by its interval.
-/

namespace CoordTransform.Double

open Float.Model (Format UnpackedFloat)
open Float.Model.UnpackedFloat (Sign)
open Decimal (Binary)

variable {x y z : Float} {p q r : ℚ}

/-! ## Comparisons -/

/-- Finite doubles are compared by their numbers; both zeros are zero. -/
theorem compare_eq_cmp_rational (hx : rational? x = some p) (hy : rational? y = some q) :
    (unpack x).compare (unpack y) = some (cmp p q) := by
  obtain ⟨s, hparts, rfl⟩ | ⟨s, m, e, hm, hparts, rfl⟩ := parts_of_rational hx <;>
    obtain ⟨t, hparts', rfl⟩ | ⟨t, n, f, hn, hparts', rfl⟩ := parts_of_rational hy <;>
    rw [hparts, hparts']
  · -- Both zeros are equal, whatever their signs.
    rw [cmp_self_eq_eq]
    rfl
  · have hvalue := value_pos hn f
    cases t with
    | positive => rw [withSign, (cmp_eq_lt_iff ..).2 hvalue]; rfl
    | negative => rw [withSign, (cmp_eq_gt_iff ..).2 (neg_neg_of_pos hvalue)]; rfl
  · have hvalue := value_pos hm e
    cases s with
    | positive => rw [withSign, (cmp_eq_gt_iff ..).2 hvalue]; rfl
    | negative => rw [withSign, (cmp_eq_lt_iff ..).2 (neg_neg_of_pos hvalue)]; rfl
  · have hcompare := compare_eq_cmp (canonical_of_unpack hparts).1 (canonical_of_unpack hparts').1
    have hpos := value_pos hm e
    have hpos' := value_pos hn f
    -- The signs of the numbers decide, unless they are equal.
    cases s with
    | positive =>
      cases t with
      | positive => exact congrArg some hcompare
      | negative =>
        rw [withSign, withSign, (cmp_eq_gt_iff ..).2 (by linarith)]
        rfl
    | negative =>
      cases t with
      | positive =>
        rw [withSign, withSign, (cmp_eq_lt_iff ..).2 (by linarith)]
        rfl
      | negative =>
        have hanti : StrictAnti fun q : ℚ => -q := fun _ _ h => neg_lt_neg h
        rw [withSign, withSign, hanti.cmp_map_eq, ← cmp_swap, ← hcompare]
        rfl

theorem lt_iff_rational (hx : rational? x = some p) (hy : rational? y = some q) :
    x < y ↔ p < q := by
  rw [lt_iff_compare, compare_eq_cmp_rational hx hy, Option.some.injEq, cmp_eq_lt_iff]

theorem le_iff_rational (hx : rational? x = some p) (hy : rational? y = some q) :
    x ≤ y ↔ p ≤ q := by
  rw [le_iff_compare, compare_eq_cmp_rational hx hy, ← (cmp_compares p q).ne_gt]
  simp only [Option.some.injEq, exists_eq_left', Ordering.isLE_iff_ne_gt]

/-- What lies between finite doubles is finite. -/
theorem isFinite_of_between (hx : x.isFinite = true) (hz : z.isFinite = true) (hxy : x ≤ y)
    (hyz : y ≤ z) : y.isFinite = true := by
  obtain ⟨o, hlow, hlow'⟩ := (le_iff_compare x y).1 hxy
  obtain ⟨o', hhigh, hhigh'⟩ := (le_iff_compare y z).1 hyz
  change (unpack x).isFinite = true at hx
  change (unpack z).isFinite = true at hz
  change (unpack y).isFinite = true
  -- An infinity is beyond every finite double on one of the two sides.
  cases hparts : unpack y with
  | notANumber =>
    rw [hparts] at hhigh
    cases hhigh
  | infinity s =>
    rw [hparts] at hlow hhigh
    cases s with
    | positive =>
      cases hparts' : unpack z <;> rw [hparts'] at hz hhigh
      · cases hz
      · cases hz
      · cases hhigh
        cases hhigh'
      · cases hhigh
        cases hhigh'
    | negative =>
      cases hparts' : unpack x <;> rw [hparts'] at hx hlow
      · cases hx
      · cases hx
      · cases hlow
        cases hlow'
      · next t _ _ _ => cases t <;> cases hlow <;> cases hlow'
  | zero s => rfl
  | finite s m e hm => rfl

/-! ## Rounding keeps the order -/

/-- A magnitude is rounded to the same side of every double. -/
theorem Rounds.side {m : Nat} {e : Int} (h : Rounds r m e) (hr : 0 ≤ r)
    (hy : rational? y = some q) : (r ≤ q → value m e ≤ q) ∧ (q ≤ r → q ≤ value m e) := by
  have hnonneg : 0 ≤ value m e := by
    unfold value
    positivity
  -- Zero is a magnitude, and a negative double is below what is rounded.
  obtain ⟨t, -, rfl⟩ | ⟨t, n, f, hn, hparts, rfl⟩ := parts_of_rational hy
  · have hzero : value 0 (-1074) = 0 := by rw [value, Nat.cast_zero, zero_mul]
    refine ⟨fun hle => ?_, fun _ => hnonneg⟩
    rw [← hzero] at hle ⊢
    exact h.le ⟨by decide, le_refl _, .inr rfl⟩ hle
  · have hcanonical := (canonical_of_unpack hparts).1
    have hpos := value_pos hn f
    cases t with
    | positive => exact ⟨h.le hcanonical, h.ge hcanonical⟩
    | negative => exact ⟨fun hle => by rw [withSign] at hle; linarith,
        fun _ => by rw [withSign]; linarith⟩

/-- A number is rounded to the same side of every double. -/
theorem IsRounded.side (h : IsRounded x r) (hx : Double.rational? x = some p)
    (hy : Double.rational? y = some q) : (r ≤ q → p ≤ q) ∧ (q ≤ r → q ≤ p) := by
  have hrange := h.isFinite_iff.1 (isFinite_of_rational hx)
  obtain ⟨s, m, e, hsign, hrounds, rfl⟩ := h
  have hmagnitude := magnitude?_pack_signed s hrounds.canonical (hrounds.range.2 hrange)
  obtain rfl : withSign s (value m e) = p := Option.some.inj
    ((rational?_eq_some_iff.2 ⟨s, _, hmagnitude, rfl⟩).symm.trans hx)
  rw [← hsign]
  cases s with
  | positive => exact hrounds.side (abs_nonneg r) hy
  | negative =>
    -- The double with the other sign is on the other side.
    obtain ⟨hle, hge⟩ := hrounds.side (abs_nonneg r) (rational?_neg hy)
    refine ⟨fun h => ?_, fun h => ?_⟩
    · have := hge (by rw [withSign] at h; linarith)
      rw [withSign]
      linarith
    · have := hle (by rw [withSign] at h; linarith)
      rw [withSign]
      linarith

/-! ## Counts -/

/-- A double that is recognised as a count is that number. -/
-- Zero is recognised with either sign, any other count by its parts.
theorem rational?_of_toNat? {m : Nat} (h : toNat? x = some m) : rational? x = some m := by
  rcases Nat.eq_zero_or_pos m with rfl | hm
  · cases hparts : unpack x with
    | zero s =>
      exact rational?_eq_some_iff.2
        ⟨s, 0, magnitude?_eq_some_iff.2 (.inl ⟨hparts, rfl⟩), withSign_zero s⟩
    | finite s m e hm =>
      cases s with
      | negative =>
        rw [toNat?, ofFloat_eq, hparts] at h
        simp [hm.ne'] at h
      | positive => exact absurd ((toNat?_of_unpack hparts).1 h) (value_pos hm e).ne'
    | _ =>
      rw [toNat?, ofFloat_eq, hparts] at h
      simp at h
  · obtain ⟨n, e, hn, hparts, hvalue⟩ := (toNat?_eq_some_iff hm).1 h
    exact rational?_of_unpack hparts hvalue

/-- A whole number with more digits than a double has is rounded. -/
theorem isRounded_ofNat {n : Nat} (hn : 2 ^ 53 ≤ n) : IsRounded (Float.ofNat n) n := by
  have hpos : 0 < n := Nat.lt_of_lt_of_le (by decide) hn
  obtain ⟨m, e, hrounds, hmul⟩ := mul_rounds_of_place .positive .positive (shifted_pos hpos)
    (show 0 < 10 ^ 0 by decide) (place_of_shifted hpos (by decide))
  -- Beyond the range of exact words, the number is made by the general multiplication.
  have hofNat : Float.ofNat n =
      pack (UnpackedFloat.ofScientific Format.binary64 n (Int.ofNat 0)) := by
    change Float.ofScientific n false 0 = _
    unfold Float.ofScientific
    rw [dif_neg (by omega)]
    rfl
  rw [value_shifted, pow_zero, value_zero_exponent, Nat.cast_one, mul_one] at hrounds
  rw [hofNat, ofScientific_eq_mul hpos (by decide), hmul]
  exact .of_withSign .positive (Nat.cast_nonneg n) hrounds

/-- No number is taken for another count, however large it is. -/
theorem unmistakable (n : Nat) : Scalar.Unmistakable Float n := by
  intro m hm h
  rcases Nat.lt_or_ge n (2 ^ 53) with hn | hn
  · rcases Nat.eq_zero_or_pos n with rfl | hpos
    · have hzero : toNat? (Float.ofNat 0) = some 0 := by decide +kernel
      exact Option.some.inj (h.symm.trans hzero)
    · exact Option.some.inj (h.symm.trans ((toNat?_eq_some_iff_eq_ofNat hpos hn).2 rfl))
  -- A rounded number does not come below the greatest one that is not rounded.
  · have hgreatest : rational? (Float.ofNat (2 ^ 53 - 1)) = some ((2 ^ 53 - 1 : Nat) : ℚ) :=
      rational?_of_toNat? ((toNat?_eq_some_iff_eq_ofNat (by decide) (by decide)).2 rfl)
    have hle : ((2 ^ 53 - 1 : Nat) : ℚ) ≤ m :=
      ((isRounded_ofNat hn).side (rational?_of_toNat? h) hgreatest).2
        (Nat.cast_le.2 (by omega))
    have hle' : 2 ^ 53 - 1 ≤ m := Nat.cast_le.1 hle
    omega

/-! ## Sums near a double -/

/-- A positive sum in the interval of a double becomes that double. -/
theorem rational?_add_of_attracts {b : Binary} (hx : rational? x = some p)
    (hy : rational? y = some q) (hp : p ≠ 0) (hq : q ≠ 0) (hpos : 0 < p + q)
    (hb : Canonical b.significand b.exponent) (he : b.exponent ≤ 971) (h : b.Attracts (p + q)) :
    rational? (x + y) = some (value b.significand b.exponent) := by
  obtain ⟨s, -, rfl⟩ | ⟨s, m, e, hm, hparts, rfl⟩ := parts_of_rational hx
  · exact absurd rfl hp
  obtain ⟨t, -, rfl⟩ | ⟨t, n, f, hn, hparts', rfl⟩ := parts_of_rational hy
  · exact absurd rfl hq
  -- Both significands are shifted to the lower exponent, where they are added exactly.
  obtain ⟨d, hd⟩ : ∃ d, s.apply (m <<< (e - min e f).toNat : Nat) +
    t.apply (n <<< (f - min e f).toNat : Nat) = d := ⟨_, rfl⟩
  have hsum : withSign s (value m e) + withSign t (value n f) = d * 2 ^ min e f := by
    rw [← hd, Int.cast_add, add_mul, apply_shiftLeft s m (min_le_left e f),
      apply_shiftLeft t n (min_le_right e f)]
  rw [hsum] at hpos h
  have hd' : 0 < d := Int.cast_pos.1 (pos_of_mul_pos_left hpos (two_zpow_pos _).le)
  obtain ⟨k, rfl⟩ := Int.eq_ofNat_of_zero_le hd'.le
  have hk : 0 < k := by omega
  have hround : UnpackedFloat.add Format.binary64 (unpack x) (unpack y) =
      signed .positive b.significand b.exponent := by
    rw [hparts, hparts']
    change UnpackedFloat.normalize _ (_ + _) _ _ = _
    rw [hd, normalize_natCast hk]
    exact round_of_attracts .positive hk hb (by simpa [value] using h)
  change rational? (pack (UnpackedFloat.add Format.binary64 (unpack x) (unpack y))) = _
  rw [hround]
  exact rational?_eq_some_iff.2 ⟨.positive, _, magnitude?_pack_signed .positive hb he, rfl⟩

end CoordTransform.Double
