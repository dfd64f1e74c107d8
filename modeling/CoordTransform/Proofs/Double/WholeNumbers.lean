import Mathlib
import CoordTransform.Proofs.Double.Signs
import CoordTransform.Proofs.Method.Matrix
import CoordTransform.Scalar.Double

/-!
# Whole Numbers as Doubles

Below `2 ^ 53` every natural number is a double, and it is recognised again from the bits. So
doubles keep counts.
-/

namespace CoordTransform.Double

open Float.Model (Format UnpackedFloat)
open Float.Model.UnpackedFloat (Sign unpackSign unpackExponent unpackMantissa)

/-! ## The fields of the bits -/

section

variable (b : BitVec Format.binary64.numBits)

theorem toNat_unpackExponent : (unpackExponent b).toNat = (b.toNat >>> 52) % 2048 := by
  rw [unpackExponent, BitVec.toNat_cast, BitVec.extractLsb_toNat]
  rfl

theorem toNat_unpackMantissa : (unpackMantissa b).toNat = b.toNat % 2 ^ 52 := by
  rw [unpackMantissa, BitVec.toNat_cast, BitVec.extractLsb_toNat]
  rfl

theorem toNat_unpackSign : (unpackSign b).toNat = (b.toNat >>> 63) % 2 := by
  rw [unpackSign, BitVec.toNat_cast, BitVec.extractLsb_toNat]
  rfl

end

/-- The sign and the fraction that are read from the bits of a double are its parts. -/
theorem ofFloat_eq (x : Float) : Decimal.Parts.ofFloat x =
    match unpack x with
    | .notANumber => .notANumber
    | .infinity s => .infinite (s == .negative)
    | .zero s => .finite (s == .negative) ⟨0, -1074⟩
    | .finite s m e _ => .finite (s == .negative) ⟨m, e⟩ := by
  obtain ⟨s, hs⟩ : ∃ s, @unpackSign Format.binary64 x.toBits.toBitVec = s := ⟨_, rfl⟩
  obtain ⟨e, he⟩ : ∃ e, @unpackExponent Format.binary64 x.toBits.toBitVec = e := ⟨_, rfl⟩
  obtain ⟨m, hm⟩ : ∃ m, @unpackMantissa Format.binary64 x.toBits.toBitVec = m := ⟨_, rfl⟩
  -- Both sides read the same three fields.
  have hsign : (x.toBits.toNat >>> 63) % 2 = s.toNat := hs ▸ (toNat_unpackSign _).symm
  have hexponent : (x.toBits.toNat >>> 52) % 2048 = e.toNat := he ▸ (toNat_unpackExponent _).symm
  have hmantissa : x.toBits.toNat % 2 ^ 52 = m.toNat := hm ▸ (toNat_unpackMantissa _).symm
  have hnegative : (s.toNat == 1) = (Sign.ofBitVec s == .negative) := by
    clear hs hsign
    revert s
    decide
  have hinfinite : e = -1#11 ↔ e.toNat = 2047 := BitVec.toNat_inj.symm
  have hsubnormal : e = 0#11 ↔ e.toNat = 0 := BitVec.toNat_inj.symm
  have hzero : m = 0#52 ↔ m.toNat = 0 := BitVec.toNat_inj.symm
  have hbias : (Format.binary64.exponentBias : Int) + Format.binary64.mantissaBitsWithoutImplicit =
      1075 := rfl
  have hhidden : Decimal.hiddenBit = 2 ^ 52 := rfl
  have hlowest : Decimal.lowestExponent = -1074 := rfl
  have hunpack : unpack x = UnpackedFloat.unpack Format.binary64 x.toBits.toBitVec := rfl
  rw [Decimal.Parts.ofFloat, Decimal.Parts.ofBits, hhidden, hlowest, hsign, hexponent, hmantissa,
    hnegative, hunpack]
  unfold UnpackedFloat.unpack
  simp only [hs, he, hm, hbias, hinfinite, hsubnormal, hzero, beq_iff_eq]
  split_ifs with hgreatest hfraction hleast hfraction
  · rfl
  · rfl
  · rw [hfraction]
  · rw [hleast]
    rfl
  · dsimp only
    rw [toNat_append_one]
    congr 2
    omega

/-! ## Conversion -/

theorem value_zero_exponent (n : Nat) : value n 0 = n := by
  rw [value, zpow_zero, mul_one]

/-- A whole number below `2 ^ 53` has canonical parts. -/
theorem exists_canonical_of_lt {n : Nat} (hn : n < 2 ^ 53) :
    ∃ m e, Canonical m e ∧ e ≤ 0 ∧ value m e = n :=
  value_zero_exponent n ▸ exists_canonical hn (by decide)

theorem ofNat_eq_mul {n : Nat} (hn : n < 2 ^ 53) : Float.ofNat n = n.toUInt64.toFloat * 1 := by
  change Float.ofScientific n false 0 = _
  rw [Float.ofScientific, dif_pos ⟨hn, by decide⟩]
  rfl

/-- The conversion from machine words is exact below `2 ^ 53`. -/
theorem unpack_toFloat {n m : Nat} {e : Int} (hpos : 0 < n) (hn : n < 2 ^ 53) (hm : 0 < m)
    (h : Canonical m e) (he : e ≤ 0) (hvalue : value m e = n) :
    unpack n.toUInt64.toFloat = .finite .positive m e hm := by
  have hword : n.toUInt64.toNat = n := Nat.mod_eq_of_lt (hn.trans (by decide))
  have hwhole : value n 0 = value m e := by rw [hvalue, value_zero_exponent]
  obtain ⟨m', e', hrounds, heq⟩ := round_rounds .positive hpos 0
  rw [hwhole] at hrounds
  obtain ⟨rfl, rfl⟩ := hrounds.eq_of_canonical h
  change unpack (pack (UnpackedFloat.normalize _ (n.toUInt64.toNat : Int) 0 _)) = _
  rw [hword, normalize_natCast hpos, heq, signed_of_pos _ hm, unpack_pack_finite _ hm h,
    if_pos (by omega)]

/-- The parts of a whole number below `2 ^ 53`. -/
theorem unpack_ofNat {n : Nat} (hpos : 0 < n) (hn : n < 2 ^ 53) :
    ∃ m e hm, unpack (Float.ofNat n) = .finite .positive m e hm ∧ e ≤ 0 ∧ value m e = n := by
  obtain ⟨m, e, h, he, hvalue⟩ := exists_canonical_of_lt hn
  have hm : 0 < m := by
    refine Nat.pos_of_ne_zero fun hzero => hpos.ne' ?_
    rw [hzero, value, Nat.cast_zero, zero_mul] at hvalue
    exact Nat.cast_eq_zero.1 hvalue.symm
  -- The conversion multiplies by one, which keeps a significand that needs no rounding.
  obtain ⟨m', e', hrounds, heq⟩ := mul_rounds .positive .positive hm
    (show 0 < 2 ^ 52 by decide) h canonical_one
  rw [value_one, mul_one] at hrounds
  obtain ⟨rfl, rfl⟩ := hrounds.eq_of_canonical h
  refine ⟨m', e', hm, ?_, he, hvalue⟩
  rw [ofNat_eq_mul hn, mul_eq_pack, unpack_toFloat hpos hn hm h he hvalue, unpack_one, heq]
  change unpack (pack (signed .positive m' e')) = _
  rw [signed_of_pos _ hm, unpack_pack_finite _ hm h, if_pos (by omega)]

/-! ## Long whole numbers -/

theorem shifted_pos {m : Nat} (hm : 0 < m) : 0 < m <<< 53 := by
  rw [Nat.shiftLeft_eq]
  positivity

theorem value_shifted (m : Nat) : value (m <<< 53) (-53) = m := by
  rw [Nat.shiftLeft_eq, value]
  push_cast
  rw [mul_assoc, zpow_neg]
  norm_num

/-- With 53 more digits the significand is full, so that rounding does not lengthen it. -/
theorem place_of_shifted {m k : Nat} (hm : 0 < m) (hk : 0 < k) :
    (-53 + 0 : Int) ≤ lastPlace (m <<< 53 * k) (-53 + 0) := by
  have hfull : 2 ^ 53 ≤ m <<< 53 * k := by
    rw [Nat.shiftLeft_eq, mul_comm m, mul_assoc]
    exact Nat.le_mul_of_pos_right _ (Nat.mul_pos hm hk)
  have hlog := (Nat.le_log2 (Nat.mul_pos (shifted_pos hm) hk).ne').2 hfull
  rw [lastPlace]
  omega

/-- A whole number with zeros behind it is a product. -/
theorem ofScientific_eq_mul {m n : Nat} (hm : 0 < m) (hn : n ≤ 2048) :
    UnpackedFloat.ofScientific Format.binary64 m (Int.ofNat n) =
      UnpackedFloat.mul Format.binary64 (.finite .positive (m <<< 53) (-53) (shifted_pos hm))
        (.finite .positive (10 ^ n) 0 (Nat.pow_pos (by decide))) := by
  have hbits : (2 : Int) ^ Format.binary64.exponentBits = 2048 := rfl
  have hexponent : Int.ofNat n = n := rfl
  unfold UnpackedFloat.ofScientific
  rw [hexponent, hbits, dif_neg hm.ne', if_neg (by omega), if_neg (by omega),
    if_pos (by omega)]
  rfl

/-! ## Recognition -/

/-- A value as a quotient of natural numbers, one of them a power of two. -/
theorem value_eq_div (m : Nat) (e : Int) :
    value m e = (m <<< e.toNat : Nat) / (2 ^ (-e).toNat : Nat) := by
  rw [Nat.shiftLeft_eq, Nat.cast_mul, Nat.cast_pow, Nat.cast_pow, Nat.cast_two, value]
  -- One of the two powers is one.
  rcases le_total 0 e with hpos | hneg
  · obtain ⟨j, rfl⟩ := Int.eq_ofNat_of_zero_le hpos
    rw [Int.toNat_natCast, Int.toNat_neg_natCast, zpow_natCast, pow_zero, div_one]
  · obtain ⟨j, hj⟩ := Int.eq_ofNat_of_zero_le (neg_nonneg.2 hneg)
    obtain rfl : e = -j := by omega
    rw [Int.toNat_neg_natCast, neg_neg, Int.toNat_natCast, zpow_neg, zpow_natCast, pow_zero,
      mul_one, div_eq_mul_inv]

theorem div_eq_natCast_iff {a b n : Nat} (hb : 0 < b) :
    (a : ℚ) / b = n ↔ a % b = 0 ∧ a / b = n := by
  rw [div_eq_iff (Nat.cast_ne_zero.2 hb.ne'), ← Nat.cast_mul, Nat.cast_inj]
  constructor
  · rintro rfl
    exact ⟨Nat.mul_mod_left n b, Nat.mul_div_cancel n hb⟩
  · rintro ⟨hmod, rfl⟩
    exact (Nat.div_mul_cancel (Nat.dvd_of_mod_eq_zero hmod)).symm

/-- A positive double is recognised when its value is a whole number. -/
theorem toNat?_of_unpack {x : Float} {n m : Nat} {e : Int} {hm : 0 < m}
    (h : unpack x = .finite .positive m e hm) : toNat? x = some n ↔ value m e = n := by
  have hvalue : value m e = n ↔ _ := value_eq_div m e ▸ div_eq_natCast_iff (Nat.two_pow_pos _)
  rw [toNat?, ofFloat_eq, h]
  simp [hm.ne', hvalue, Nat.one_shiftLeft]

/-- Positive whole numbers are recognised, and nothing else is taken for them. -/
theorem toNat?_eq_some_iff {x : Float} {n : Nat} (hn : 0 < n) : toNat? x = some n ↔
    ∃ m e hm, unpack x = .finite .positive m e hm ∧ value m e = n := by
  -- Parts that are not finite are no count, and the sign has to be positive.
  cases hparts : unpack x with
  | finite s m e hm =>
    cases s with
    | negative =>
      rw [toNat?, ofFloat_eq, hparts]
      simp [hm.ne']
    | positive =>
      rw [toNat?_of_unpack hparts]
      simp [hm]
  | _ =>
    rw [toNat?, ofFloat_eq, hparts]
    simp [hn.ne]

/-- Doubles keep counts. -/
theorem keepsCounts : Scalar.KeepsCounts Float := by
  intro n hn
  rcases Nat.eq_zero_or_pos n with rfl | hpos
  · decide +kernel
  · obtain ⟨m, e, hm, hparts, -, hvalue⟩ := unpack_ofNat hpos (hn.trans (by decide))
    exact (toNat?_eq_some_iff hpos).2 ⟨m, e, hm, hparts, hvalue⟩

end CoordTransform.Double
