import Mathlib
import CoordTransform.Decimal.Reading
import CoordTransform.Proofs.Decimal.Shortest
import CoordTransform.Proofs.Double.Nearest

/-!
# The Nearest Double of a Decimal

A decimal in the rounding interval of a double is read as that double, however it is written. Small
decimals are read by one operation on doubles that both are exact, the others in exact arithmetic;
either way there is one rounding, of the exact value.
-/

namespace CoordTransform.Double

open Float.Model (Format UnpackedFloat)
open Float.Model.UnpackedFloat (Sign)
open Decimal (Binary Parts)

/-! ## Parts and magnitudes -/

/-- The sign of a double with or without a minus. -/
def signOf (negative : Bool) : Sign := if negative then .negative else .positive

theorem signOf_beq (s : Sign) : signOf (s == .negative) = s := by
  cases s <;> rfl

theorem magnitude?_of_ofFloat {x : Float} {negative : Bool} {b : Binary}
    (h : Parts.ofFloat x = .finite negative b) :
    magnitude? x = some (signOf negative, value b.significand b.exponent) ∧
      Canonical b.significand b.exponent ∧ b.exponent ≤ 971 := by
  rw [ofFloat_eq] at h
  -- Infinities and values that are no numbers have no parts of a finite one.
  cases hparts : unpack x with
  | notANumber => rw [hparts] at h; cases h
  | infinity s => rw [hparts] at h; cases h
  | zero s =>
    rw [hparts] at h
    cases h
    rw [signOf_beq]
    exact ⟨magnitude?_eq_some_iff.2 (.inl ⟨hparts, by simp [value]⟩),
      ⟨by decide, le_refl _, .inr rfl⟩, by decide⟩
  | finite s m e hm =>
    rw [hparts] at h
    cases h
    rw [signOf_beq]
    exact ⟨magnitude?_eq_some_iff.2 (.inr ⟨m, e, hm, hparts, rfl⟩), canonical_of_unpack hparts⟩

/-- A finite double has a binary fraction. -/
theorem exists_ofFloat {x : Float} (hx : x.isFinite = true) :
    ∃ negative b, Parts.ofFloat x = .finite negative b := by
  rw [ofFloat_eq]
  change (unpack x).isFinite = true at hx
  cases hparts : unpack x with
  | notANumber => rw [hparts] at hx; cases hx
  | infinity s => rw [hparts] at hx; cases hx
  | zero s => exact ⟨_, _, rfl⟩
  | finite s m e hm => exact ⟨_, _, rfl⟩

/-! ## Operations -/

section

variable {x y : Float} {p q : ℚ} {b : Binary}

theorem exists_parts_of_pos {s : Sign} (hx : magnitude? x = some (s, p)) (hp : 0 < p) :
    ∃ m e hm, unpack x = .finite s m e hm ∧ Canonical m e ∧ value m e = p := by
  obtain ⟨-, rfl⟩ | ⟨m, e, hm, hparts, hvalue⟩ := magnitude?_eq_some_iff.1 hx
  · exact absurd hp (lt_irrefl _)
  · exact ⟨m, e, hm, hparts, (canonical_of_unpack hparts).1, hvalue⟩

/-- A product in the rounding interval of a double is that double. -/
theorem magnitude?_mul_of_attracts (hx : magnitude? x = some (.positive, p))
    (hy : magnitude? y = some (.positive, q)) (hp : 0 < p) (hq : 0 < q)
    (hb : Canonical b.significand b.exponent) (he : b.exponent ≤ 971) (h : b.Attracts (p * q)) :
    magnitude? (x * y) = some (.positive, value b.significand b.exponent) := by
  obtain ⟨m, e, hm, hparts, hcanonical, rfl⟩ := exists_parts_of_pos hx hp
  obtain ⟨n, f, hn, hparts', hcanonical', rfl⟩ := exists_parts_of_pos hy hq
  rw [mul_eq_pack, hparts, hparts',
    mul_of_attracts _ _ hm hn (place_of_product hm hn hcanonical hcanonical') hb h]
  exact magnitude?_pack_signed .positive hb he

/-- A quotient in the rounding interval of a double is that double. -/
theorem magnitude?_div_of_attracts (hx : magnitude? x = some (.positive, p))
    (hy : magnitude? y = some (.positive, q)) (hp : 0 < p) (hq : 0 < q)
    (hb : Canonical b.significand b.exponent) (he : b.exponent ≤ 971) (h : b.Attracts (p / q)) :
    magnitude? (x / y) = some (.positive, value b.significand b.exponent) := by
  obtain ⟨m, e, hm, hparts, -, rfl⟩ := exists_parts_of_pos hx hp
  obtain ⟨n, f, hn, hparts', -, rfl⟩ := exists_parts_of_pos hy hq
  rw [div_eq_pack, hparts, hparts', div_of_attracts _ _ hm hn hb h]
  exact magnitude?_pack_signed .positive hb he

end

/-! ## Exact operands -/

theorem magnitude?_word {n : Nat} (hn : n < 2 ^ 53) :
    magnitude? n.toUInt64.toFloat = some (.positive, (n : ℚ)) := by
  have hword : n.toUInt64.toNat = n := Nat.mod_eq_of_lt (hn.trans (by decide))
  have hmagnitude := magnitude?_toFloat (w := n.toUInt64) (hword.symm ▸ hn)
  rwa [hword] at hmagnitude

/-- The table of powers holds them exactly: `5 ^ n` has no more than 53 digits. -/
theorem ofFloat_power : ∀ (n : Nat) (_ : n < Float.exactlyRepresentablePowersOfTen.size),
    Parts.ofFloat Float.exactlyRepresentablePowersOfTen[n] =
      .finite false ⟨5 ^ n * 2 ^ (52 - (5 ^ n).log2), n - (52 - (5 ^ n).log2 : Nat)⟩ := by
  decide +kernel

theorem magnitude?_power {n : Nat} (hn : n < Float.exactlyRepresentablePowersOfTen.size) :
    magnitude? Float.exactlyRepresentablePowersOfTen[n] = some (.positive, 10 ^ n) := by
  have hpower := (magnitude?_of_ofFloat (ofFloat_power n hn)).1
  have hvalue :
      value (5 ^ n * 2 ^ (52 - (5 ^ n).log2)) (n - (52 - (5 ^ n).log2 : Nat)) = 10 ^ n := by
    rw [value, zpow_sub₀ two_ne_zero, zpow_natCast, zpow_natCast]
    push_cast
    rw [show (10 : ℚ) = 5 * 2 by norm_num, mul_pow]
    field_simp
  rwa [hvalue] at hpower

end CoordTransform.Double

namespace CoordTransform.Decimal

open Double
open Float.Model (Format UnpackedFloat)

/-! ## Orders of magnitude -/

namespace Fraction

/-- The number of digits and the exponent bound a decimal from both sides. -/
theorem toRat_bounds {d : Fraction} (hd : d.digits ≠ 0) :
    (10 : ℚ) ^ (digitCount d.digits + d.exponent - 1) ≤ d.toRat ∧
      d.toRat < 10 ^ (digitCount d.digits + d.exponent) := by
  have hcount : digitCount d.digits = (Nat.toDigits 10 d.digits).length := by
    rw [digitCount, if_neg (by simp [hd])]
  obtain ⟨n, hn⟩ : ∃ n, (Nat.toDigits 10 d.digits).length = n + 1 :=
    Nat.exists_eq_add_one_of_ne_zero Nat.length_toDigits_pos.ne'
  have hhigh : d.digits < 10 ^ (n + 1) :=
    (Nat.length_toDigits_le_iff (by decide) (Nat.succ_pos n)).1 hn.le
  -- With one digit the lower bound is one, and with more it is what the number of digits says.
  have hlow : 10 ^ n ≤ d.digits := by
    rcases Nat.eq_zero_or_pos n with rfl | hpos
    · exact Nat.pos_of_ne_zero hd
    · refine le_of_not_gt fun hlt => ?_
      have := (Nat.length_toDigits_le_iff (b := 10) (by decide) hpos).2 hlt
      omega
  rw [hcount, hn, toRat]
  push_cast
  constructor
  · -- The power of the digits and that of the exponent are split, and the exponent is kept.
    rw [show (n : Int) + 1 + d.exponent - 1 = n + d.exponent by omega, zpow_add₀ (by norm_num),
      zpow_natCast]
    exact mul_le_mul_of_nonneg_right (by exact_mod_cast hlow) (ten_zpow_pos _).le
  · rw [zpow_add₀ (by norm_num), show (n : Int) + 1 = (n + 1 : Nat) by omega, zpow_natCast]
    exact mul_lt_mul_of_pos_right (by exact_mod_cast hhigh) (ten_zpow_pos _)

/-- A number has no more decimal digits than binary ones. -/
theorem digitCount_le (n : Nat) : digitCount n ≤ n.log2 + 1 := by
  unfold digitCount
  split
  · exact Nat.zero_le _
  · exact (Nat.length_toDigits_le_iff (by decide) (Nat.succ_pos _)).2
      (Nat.lt_log2_self.trans_le (Nat.pow_le_pow_left (by decide) _))

end Fraction

namespace Binary

variable {b : Binary} {q : ℚ}

/-- The rounding interval of a positive double lies in the range of doubles. -/
theorem Attracts.range (hpos : 0 < b.significand) (hb : Canonical b.significand b.exponent)
    (he : b.exponent ≤ 971) (h : b.Attracts q) :
    (2 : ℚ) ^ (-1075 : Int) ≤ q ∧ q ≤ 2 ^ (1024 : Int) := by
  obtain ⟨hlow, hhigh⟩ := h.bounds
  have hlower := b.le_lowerQuarters
  have hlowest := hb.lowest
  have hlt := hb.lt
  constructor
  · -- The least double is `2 ^ (-1074)`, and its interval begins half of it lower.
    calc (2 : ℚ) ^ (-1075 : Int) = value 2 (-1076) := by
          rw [value, Nat.cast_two, ← zpow_one_add₀ two_ne_zero]
          rfl
      _ ≤ value b.lowerQuarters (-1076) := value_le_value.2 (by omega)
      _ ≤ value b.lowerQuarters (b.exponent - 2) := value_le_of_exponent_le _ (by omega)
      _ ≤ q := hlow
  · -- The greatest significand is below `2 ^ 53`, and its interval ends less than a unit above it.
    have hupper : b.upperQuarters ≤ 2 ^ 55 := by
      have : b.upperQuarters = 4 * b.significand + 2 := rfl
      omega
    calc q ≤ value b.upperQuarters (b.exponent - 2) := hhigh
      _ ≤ value b.upperQuarters 969 := value_le_of_exponent_le _ (by omega)
      _ ≤ value (2 ^ 55) 969 := value_le_value.2 hupper
      _ = 2 ^ (1024 : Int) := by
          rw [value, Nat.cast_pow, Nat.cast_two, ← zpow_natCast, ← zpow_add₀ two_ne_zero]
          rfl

/-- The decimals of the interval are not out of the range in which decimals are computed. -/
theorem Attracts.order {d : Fraction} (hd : d.digits ≠ 0) (hpos : 0 < b.significand)
    (hb : Canonical b.significand b.exponent) (he : b.exponent ≤ 971) (h : b.Attracts d.toRat) :
    -400 ≤ digitCount d.digits + d.exponent ∧ digitCount d.digits + d.exponent ≤ 310 := by
  obtain ⟨hleast, hgreatest⟩ := h.range hpos hb he
  obtain ⟨hlow, hhigh⟩ := Fraction.toRat_bounds hd
  constructor
  · by_contra hlt
    have htiny : (10 : ℚ) ^ (digitCount d.digits + d.exponent) ≤ 2 ^ (-1075 : Int) :=
      ten_zpow_le_of_nonpos (by omega) (by omega)
    linarith
  · by_contra hlt
    have hhuge : (2 : ℚ) ^ (1024 : Int) < 10 ^ (digitCount d.digits + d.exponent - 1) := by
      -- The powers are compared in five equal parts, which are small enough to be computed.
      calc (2 : ℚ) ^ (1024 : Int) < ((2 : ℚ) ^ (205 : Nat)) ^ (5 : Nat) := by
            rw [← pow_mul, ← zpow_natCast]
            exact zpow_lt_zpow_right₀ (by norm_num) (by norm_num)
        _ ≤ ((10 : ℚ) ^ (62 : Nat)) ^ (5 : Nat) :=
            pow_le_pow_left₀ (by positivity) (by norm_num) _
        _ = 10 ^ (310 : Int) := by
            rw [← pow_mul, ← zpow_natCast]
            rfl
        _ ≤ 10 ^ (digitCount d.digits + d.exponent - 1) :=
            zpow_le_zpow_right₀ (by norm_num) (by omega)
    linarith

end Binary

/-! ## Reading -/

variable {b : Binary}

/-- A decimal fraction below one, read by a division. -/
theorem magnitude?_ofScientific_neg {m n : Nat} (hm : 0 < m) (hn : 0 < n)
    (hrange : n ≤ 2048 + m.log2) (hb : Canonical b.significand b.exponent) (he : b.exponent ≤ 971)
    (h : b.Attracts (m / 10 ^ n)) : magnitude? (Float.ofScientific m true n) =
      some (.positive, value b.significand b.exponent) := by
  unfold Float.ofScientific
  split
  · -- Both numbers are exact doubles, so that a division of doubles reads the text.
    next hsmall =>
    exact magnitude?_div_of_attracts (magnitude?_word hsmall.1)
      (magnitude?_power (Nat.lt_succ_of_le hsmall.2))
      (Nat.cast_pos.2 hm) (by positivity) hb he h
  · -- Otherwise the division is one of longer significands, rounded once.
    change magnitude? (pack (UnpackedFloat.ofScientific Format.binary64 m (Int.negOfNat n))) = _
    have hten : (0 : Nat) < 10 ^ n := Nat.pow_pos (by decide)
    have hparts : UnpackedFloat.ofScientific Format.binary64 m (Int.negOfNat n) =
        UnpackedFloat.div Format.binary64 (.finite .positive m 0 hm)
          (.finite .positive (10 ^ n) 0 hten) := by
      have hbits : (2 : Int) ^ Format.binary64.exponentBits = 2048 := rfl
      have hexponent : Int.negOfNat n = -n := Int.negOfNat_eq
      unfold UnpackedFloat.ofScientific
      rw [hexponent, hbits, dif_neg hm.ne', if_neg (by omega), if_neg (by omega),
        if_neg (by omega)]
      simp
    rw [hparts, div_of_attracts _ _ hm hten hb]
    · exact magnitude?_pack_signed .positive hb he
    · rw [value_zero_exponent, value_zero_exponent]
      exact_mod_cast h

/-- A whole number with zeros behind it, read by a multiplication. -/
theorem magnitude?_ofScientific_nonneg {m n : Nat} (hm : 0 < m) (hrange : n ≤ 2048)
    (hb : Canonical b.significand b.exponent) (he : b.exponent ≤ 971)
    (h : b.Attracts (m * 10 ^ n)) : magnitude? (Float.ofScientific m false n) =
      some (.positive, value b.significand b.exponent) := by
  unfold Float.ofScientific
  split
  · -- Both factors are exact doubles, so that a product of doubles reads the text.
    next hsmall =>
    exact magnitude?_mul_of_attracts (magnitude?_word hsmall.1)
      (magnitude?_power (Nat.lt_succ_of_le hsmall.2))
      (Nat.cast_pos.2 hm) (by positivity) hb he h
  · change magnitude? (pack (UnpackedFloat.ofScientific Format.binary64 m (Int.ofNat n))) = _
    have hten : (0 : Nat) < 10 ^ n := Nat.pow_pos (by decide)
    rw [ofScientific_eq_mul hm hrange,
      mul_of_attracts _ _ (shifted_pos hm) hten (place_of_shifted hm hten) hb]
    · exact magnitude?_pack_signed .positive hb he
    · rw [value_shifted, value_zero_exponent]
      exact_mod_cast h

/-- A decimal in the rounding interval of a double is read as the double. -/
theorem magnitude?_toFloat_of_attracts {d : Fraction} (hpos : 0 < b.significand)
    (hb : Canonical b.significand b.exponent) (he : b.exponent ≤ 971) (h : b.Attracts d.toRat) :
    magnitude? d.toFloat = some (.positive, value b.significand b.exponent) := by
  -- What rounds to zero is smaller than anything in the interval of a positive double.
  have hd : d.digits ≠ 0 := by
    intro hzero
    have hleast := (h.range hpos hb he).1
    rw [Fraction.toRat, hzero, Nat.cast_zero, zero_mul] at hleast
    exact absurd hleast (not_le_of_gt (two_zpow_pos _))
  have hcount : 0 < digitCount d.digits := by
    rw [digitCount, if_neg (by simp [hd])]
    exact Nat.length_toDigits_pos
  have hlog := Fraction.digitCount_le d.digits
  obtain ⟨hbottom, htop⟩ := h.order hd hpos hb he
  -- Neither of the shortcuts for very small and very large decimals is taken.
  unfold Fraction.toFloat
  dsimp only
  have hpresent : (d.digits == 0 || decide ((digitCount d.digits : Int) + d.exponent < -400)) =
      false := by
    rw [beq_false_of_ne hd, decide_eq_false (not_lt.2 hbottom)]
    rfl
  rw [hpresent, if_neg (by decide), if_neg (not_lt.2 htop)]
  have hvalue : d.toRat = d.digits * 10 ^ d.exponent := rfl
  rw [hvalue] at h
  split
  · next hneg =>
    refine magnitude?_ofScientific_neg (Nat.pos_of_ne_zero hd) (by omega) (by omega) hb he ?_
    rwa [show d.exponent = -(d.exponent.natAbs : Int) by omega, zpow_neg, zpow_natCast,
      ← div_eq_mul_inv] at h
  · next hnonneg =>
    refine magnitude?_ofScientific_nonneg (Nat.pos_of_ne_zero hd) (by omega) hb he ?_
    rwa [show d.exponent = (d.exponent.natAbs : Int) by omega, zpow_natCast] at h

end CoordTransform.Decimal
