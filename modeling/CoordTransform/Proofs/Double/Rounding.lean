import Mathlib
import CoordTransform.Proofs.Double.Packing

/-!
# Rounding to Doubles

The result of an operation is a significand and an exponent near the exact number. Of the rounding
mode two consequences are used (`Rounds`). No double lies strictly between the number and its
rounding, so that comparisons with a double survive rounding and a number that is a double is not
changed. And the exponent leaves the range of doubles exactly from `overflow` on, half a last place
above the greatest double.
-/

namespace CoordTransform.Double

open Float.Model (Format UnpackedFloat totalExponent)
open Float.Model.UnpackedFloat (Sign Accuracy ExtendedMantissa shiftToExponent
  shiftToTargetExponent decreaseExponent roundWithAccuracy accuracyOfFraction divCore)

/-! ## Values -/

/-- The value of a significand and an exponent. -/
def value (m : Nat) (e : Int) : ℚ := m * 2 ^ e

theorem two_zpow_pos (e : Int) : (0 : ℚ) < 2 ^ e := zpow_pos (by norm_num) e

theorem value_pos {m : Nat} (hm : 0 < m) (e : Int) : 0 < value m e :=
  mul_pos (Nat.cast_pos.2 hm) (two_zpow_pos e)

theorem value_le_value {m n : Nat} {e : Int} : value m e ≤ value n e ↔ m ≤ n := by
  rw [value, value, mul_le_mul_iff_left₀ (two_zpow_pos e), Nat.cast_le]

theorem value_lt_value {m n : Nat} {e : Int} : value m e < value n e ↔ m < n := by
  rw [← not_le, value_le_value, not_le]

theorem value_le_of_exponent_le (m : Nat) {e f : Int} (h : e ≤ f) : value m e ≤ value m f :=
  mul_le_mul_of_nonneg_left (zpow_le_zpow_right₀ (by norm_num) h) (Nat.cast_nonneg m)

/-- The same value with a lower exponent. -/
theorem value_eq_of_le (m : Nat) {e f : Int} (h : f ≤ e) :
    value m e = value (m * 2 ^ (e - f).toNat) f := by
  obtain ⟨k, rfl⟩ := Int.le.dest h
  rw [value, value, show (f + (k : Int) - f).toNat = k by omega, Nat.cast_mul, Nat.cast_pow,
    zpow_add₀ two_ne_zero, zpow_natCast, Nat.cast_two]
  ring

/-- Of two doubles, the one with the greater exponent is greater. -/
theorem value_lt_of_exponent_lt {m n : Nat} {e f : Int} (hm : m < 2 ^ 53) (hn : Canonical n f)
    (he : -1074 ≤ e) (h : e < f) : value m e < value n f := by
  have hfull : 2 ^ 52 ≤ n := hn.full.resolve_right (by omega)
  calc value m e < value (2 ^ 53) e := lt_of_not_ge fun hle => by
        have := value_le_value.1 hle
        omega
    _ = value (2 ^ 52) (e + 1) := by
        rw [value_eq_of_le (2 ^ 52) (show e ≤ e + 1 by omega)]
        norm_num
    _ ≤ value n (e + 1) := value_le_value.2 hfull
    _ ≤ value n f := value_le_of_exponent_le n (by omega)

/-- A double has one significand and one exponent. -/
theorem value_inj {m n : Nat} {e f : Int} (hm : Canonical m e) (hn : Canonical n f)
    (h : value m e = value n f) : m = n ∧ e = f := by
  rcases lt_trichotomy e f with hlt | rfl | hlt
  · exact absurd h (value_lt_of_exponent_lt hm.lt hn hm.lowest hlt).ne
  · exact ⟨le_antisymm (value_le_value.1 h.le) (value_le_value.1 h.ge), rfl⟩
  · exact absurd h (value_lt_of_exponent_lt hn.lt hm hn.lowest hlt).ne'

/-- Half a last place above the greatest double: the least number that is rounded to infinity. -/
def overflow : ℚ := value (2 ^ 54 - 1) 970

/-- Any significand below `2 ^ 53` has the value of canonical parts. -/
theorem exists_canonical {m : Nat} {e : Int} (hm : m < 2 ^ 53) (he : -1074 ≤ e) :
    ∃ n f, Canonical n f ∧ f ≤ e ∧ value n f = value m e := by
  rcases Nat.eq_zero_or_pos m with rfl | hpos
  · exact ⟨0, -1074, ⟨by decide, le_refl _, .inr rfl⟩, he, by simp [value]⟩
  · -- Digits are added behind the significand, until it has all or the exponent is the lowest.
    have hlog : m.log2 ≤ 52 := Nat.lt_succ_iff.1 ((Nat.log2_lt hpos.ne').2 hm)
    obtain ⟨k, hk⟩ : ∃ k, min (52 - m.log2) (e + 1074).toNat = k := ⟨_, rfl⟩
    refine ⟨m * 2 ^ k, e - k, ⟨?_, by omega, ?_⟩, by omega, ?_⟩
    · calc m * 2 ^ k < 2 ^ (m.log2 + 1) * 2 ^ k :=
            Nat.mul_lt_mul_of_pos_right Nat.lt_log2_self (by positivity)
        _ ≤ 2 ^ 53 := by
            rw [← Nat.pow_add]
            exact Nat.pow_le_pow_right two_pos (by omega)
    · by_cases hlowest : e - k = -1074
      · exact .inr hlowest
      · left
        calc 2 ^ 52 = 2 ^ m.log2 * 2 ^ k := by rw [← Nat.pow_add]; congr 1; omega
          _ ≤ m * 2 ^ k := Nat.mul_le_mul_right _ (Nat.log2_self_le hpos.ne')
    · rw [value_eq_of_le m (show e - (k : Int) ≤ e by omega),
        show (e - (e - (k : Int))).toNat = k by omega]

/-! ## Extended significands -/

/-- An extended significand has the whole part of a number, and tells whether the rest is a half or
more and whether there is a rest at all. -/
structure Extends (em : ExtendedMantissa) (x : ℚ) : Prop where
  le : em.mantissa ≤ x
  lt : x < em.mantissa + 1
  half : em.roundBit = true ↔ em.mantissa + 1 / 2 ≤ x
  whole : x = em.mantissa → em.roundBit = false ∧ em.stickyBit = false

theorem extends_exact (m : Nat) : Extends (.ofMantissaAndAccuracy m .exact) m :=
  ⟨le_refl _, lt_add_one _,
    iff_of_false Bool.false_ne_true (not_le_of_gt (lt_add_of_pos_right _ one_half_pos)),
    fun _ => ⟨rfl, rfl⟩⟩

theorem Extends.shiftRightOne {em : ExtendedMantissa} {x : ℚ} (h : Extends em x) :
    Extends em.shiftRightOne (x / 2) := by
  obtain ⟨hle, hlt, -, hwhole⟩ := h
  have hparity : (em.mantissa : ℚ) = 2 * (em.mantissa / 2 : Nat) + (em.mantissa % 2 : Nat) := by
    exact_mod_cast (Nat.div_add_mod em.mantissa 2).symm
  have hbit : ((em.mantissa % 2 : Nat) : ℚ) ≤ 1 := by
    exact_mod_cast Nat.le_of_lt_succ (Nat.mod_lt em.mantissa two_pos)
  have hnonneg : (0 : ℚ) ≤ (em.mantissa % 2 : Nat) := Nat.cast_nonneg _
  refine ⟨?_, ?_, ?_, fun heq => ?_⟩
  · change ((em.mantissa / 2 : Nat) : ℚ) ≤ _
    linarith
  · change _ < ((em.mantissa / 2 : Nat) : ℚ) + 1
    linarith
  · -- The rest is a half or more when the digit that is shifted out is a one.
    change (em.mantissa % 2 != 0) = true ↔ ((em.mantissa / 2 : Nat) : ℚ) + 1 / 2 ≤ x / 2
    rcases Nat.mod_two_eq_zero_or_one em.mantissa with hdigit | hdigit <;>
      rw [hdigit] at hparity ⊢ <;> norm_num at hparity ⊢ <;> linarith
  · -- Nothing is left over only if the last digit is zero and nothing was left over before.
    change x / 2 = ((em.mantissa / 2 : Nat) : ℚ) at heq
    have hzero : ((em.mantissa % 2 : Nat) : ℚ) = 0 := by linarith
    obtain ⟨hround, hsticky⟩ := hwhole (by linarith)
    refine ⟨?_, ?_⟩
    · change (em.mantissa % 2 != 0) = false
      rw [Nat.cast_eq_zero.1 hzero]
      rfl
    · change (em.roundBit || em.stickyBit) = false
      rw [hround, hsticky]
      rfl

theorem Extends.shiftRight {em : ExtendedMantissa} {x : ℚ} (h : Extends em x) (k : Nat) :
    Extends (em >>> k) (x / 2 ^ k) := by
  induction k with
  | zero =>
    rw [pow_zero, div_one]
    exact h
  | succ k ih =>
    have hstep := ih.shiftRightOne
    rwa [div_div, ← pow_succ] at hstep

/-- Rounding to a whole number does not pass any whole number. -/
theorem Extends.roundedMantissa {em : ExtendedMantissa} {x : ℚ} (h : Extends em x) (n : Nat) :
    (x ≤ n → em.roundedMantissa ≤ n) ∧ (n ≤ x → n ≤ em.roundedMantissa) := by
  obtain ⟨hle, hlt, -, hwhole⟩ := h
  -- Rounding adds one or nothing, and nothing if there is no rest.
  have hbelow : em.mantissa ≤ em.roundedMantissa ∧ em.roundedMantissa ≤ em.mantissa + 1 ∧
      (em.roundBit = false ∧ em.stickyBit = false → em.roundedMantissa = em.mantissa) := by
    obtain ⟨m, r, s⟩ := em
    cases r <;> cases s <;>
      simp [ExtendedMantissa.roundedMantissa, ExtendedMantissa.accuracy,
        Accuracy.roundToNearestEven]
    omega
  refine ⟨fun hn => ?_, fun hn => ?_⟩
  · -- A rest keeps the whole part below `n`, and without one the number is the whole part.
    rcases (Nat.cast_le.1 (hle.trans hn) : em.mantissa ≤ n).lt_or_eq with hm | hm
    · omega
    · rw [hbelow.2.2 (hwhole (le_antisymm (hm ▸ hn) hle)), hm]
  · have : n < em.mantissa + 1 := by exact_mod_cast hn.trans_lt hlt
    omega

/-- An even number is reached from the half before it on, since ties go to even numbers. -/
theorem Extends.le_roundedMantissa_iff {em : ExtendedMantissa} {x : ℚ} (h : Extends em x) {n : Nat}
    (heven : n % 2 = 0) : n ≤ em.roundedMantissa ↔ (n : ℚ) ≤ x + 1 / 2 := by
  obtain ⟨hle, hlt, hhalf, -⟩ := h
  have hrounded : em.roundedMantissa =
      if em.roundBit then
        if em.stickyBit then em.mantissa + 1 else em.mantissa + em.mantissa % 2
      else em.mantissa := by
    obtain ⟨m, r, s⟩ := em
    cases r <;> cases s <;> rfl
  rcases lt_trichotomy n (em.mantissa + 1) with hn | rfl | hn
  · have hreached : (n : ℚ) ≤ em.mantissa := by exact_mod_cast Nat.lt_succ_iff.1 hn
    exact iff_of_true (by rw [hrounded]; split_ifs <;> omega) (by linarith)
  · -- The whole part is odd, so that a tie is rounded up.
    have hup : em.mantissa + 1 ≤ em.roundedMantissa ↔ em.roundBit = true := by
      rw [hrounded]
      split_ifs with hround <;> simp [hround]
      omega
    rw [hup, hhalf, Nat.cast_add, Nat.cast_one]
    constructor <;> intro <;> linarith
  · have hbeyond : (em.mantissa : ℚ) + 2 ≤ n := by exact_mod_cast hn
    exact iff_of_false (by rw [hrounded]; split_ifs <;> omega) (by linarith)

/-! ## Faithful rounding -/

/-- No double lies strictly between a number and its rounding, which leaves the range of doubles
from `overflow` on. -/
structure Rounds (q : ℚ) (m : Nat) (e : Int) : Prop where
  canonical : Canonical m e
  le : ∀ {n f}, Canonical n f → q ≤ value n f → value m e ≤ value n f
  ge : ∀ {n f}, Canonical n f → value n f ≤ q → value n f ≤ value m e
  range : e ≤ 971 ↔ q < overflow

/-- A value that is a double is rounded to that double. -/
theorem Rounds.eq_of_canonical {n m : Nat} {e f : Int} (hn : Canonical n f)
    (h : Rounds (value n f) m e) : m = n ∧ e = f :=
  value_inj h.canonical hn (le_antisymm (h.le hn (le_refl _)) (h.ge hn (le_refl _)))

/-- What is not below the least positive double is not rounded to zero. -/
theorem Rounds.pos {q : ℚ} {m : Nat} {e : Int} (h : Rounds q m e) (hq : value 1 (-1074) ≤ q) :
    0 < m := by
  have hle : value 1 (-1074) ≤ value m e := h.ge ⟨by decide, le_refl _, .inr rfl⟩ hq
  refine Nat.pos_of_ne_zero fun hzero => absurd hle (not_le_of_gt ?_)
  rw [hzero, value, Nat.cast_zero, zero_mul]
  exact value_pos one_pos _

/-- The exponent of the last place that is kept. -/
def lastPlace (m : Nat) (e : Int) : Int := max (m.log2 + e - 52) (-1074)

theorem targetExponent_eq (m : Nat) (e : Int) :
    Format.binary64.targetExponent (totalExponent m e) = lastPlace m e := by
  have hdigits : (Format.binary64.mantissaBits : Int) = 53 := rfl
  have hlowest : Format.binary64.minExponent = -1074 := rfl
  rw [Format.targetExponent, totalExponent, lastPlace, hdigits, hlowest]
  congr 1
  omega

/-- The parts with a sign, where the significand may be zero. -/
def signed (s : Sign) (m : Nat) (e : Int) : UnpackedFloat :=
  if h : m = 0 then .zero s else .finite s m e (Nat.pos_of_ne_zero h)

/-- A number with last place `p` overflows when `p` is beyond the range of doubles, or when it is at
its end and the number is rounded up to the next exponent. -/
theorem lt_overflow_iff {q : ℚ} {r : Nat} {p : Int}
    (hlow : value (2 ^ 52) p ≤ q ∨ p = -1074) (hhigh : q < value (2 ^ 53) p)
    (hcarry : 2 ^ 53 ≤ r ↔ value (2 ^ 54 - 1) (p - 1) ≤ q) :
    q < overflow ↔ p < 971 ∨ p = 971 ∧ r < 2 ^ 53 := by
  -- Below the last place of the greatest doubles nothing overflows, and beyond it everything does.
  rcases lt_trichotomy p 971 with hp | rfl | hp
  · refine iff_of_true ?_ (.inl hp)
    calc q < value (2 ^ 53) p := hhigh
      _ ≤ value (2 ^ 53) 970 := value_le_of_exponent_le _ (by omega)
      _ ≤ overflow := value_le_value.2 (by norm_num)
  · rw [← not_le, overflow, ← Nat.not_le, hcarry]
    simp
  · refine iff_of_false (not_lt_of_ge ?_) (by omega)
    calc overflow ≤ value (2 ^ 54) 970 := value_le_value.2 (by norm_num)
      _ = value (2 ^ 52) 972 := by
        rw [value_eq_of_le (2 ^ 52) (show (970 : Int) ≤ 972 by omega)]
        rfl
      _ ≤ value (2 ^ 52) p := value_le_of_exponent_le _ (by omega)
      _ ≤ q := hlow.resolve_right (by omega)

/-- A whole number of last places that passes no other such number is a faithful rounding. With
`2 ^ 53` places it has one digit too many, and takes the next exponent. -/
theorem rounds_of_places {q : ℚ} {r : Nat} {p : Int} (hp : -1074 ≤ p)
    (hlow : value (2 ^ 52) p ≤ q ∨ p = -1074) (hhigh : q < value (2 ^ 53) p)
    (hr : ∀ n : Nat, (q ≤ value n p → r ≤ n) ∧ (value n p ≤ q → n ≤ r))
    (hcarry : 2 ^ 53 ≤ r ↔ value (2 ^ 54 - 1) (p - 1) ≤ q) :
    r < 2 ^ 53 ∧ Rounds q r p ∨ r = 2 ^ 53 ∧ Rounds q (2 ^ 52) (p + 1) := by
  -- A double with a lower exponent is below every number with this last place.
  have hbelow : ∀ {n f}, Canonical n f → f < p →
      value n f < value (2 ^ 52) p ∧ value (2 ^ 52) p ≤ q := by
    intro n f hn hf
    have hlowest := hn.lowest
    exact ⟨value_lt_of_exponent_lt hn.lt ⟨by decide, hp, .inl (le_refl _)⟩ hlowest hf,
      hlow.resolve_right (by omega)⟩
  have hle : ∀ {n f}, Canonical n f → q ≤ value n f → value r p ≤ value n f := by
    intro n f hn hq
    rcases lt_or_ge f p with hf | hf
    · exact absurd hq (not_le_of_gt ((hbelow hn hf).1.trans_le (hbelow hn hf).2))
    · rw [value_eq_of_le n hf] at hq ⊢
      exact value_le_value.2 ((hr _).1 hq)
  have hge : ∀ {n f}, Canonical n f → value n f ≤ q → value n f ≤ value r p := by
    intro n f hn hq
    rcases lt_or_ge f p with hf | hf
    · exact (hbelow hn hf).1.le.trans (value_le_value.2 ((hr _).2 (hbelow hn hf).2))
    · rw [value_eq_of_le n hf] at hq ⊢
      exact value_le_value.2 ((hr _).2 hq)
  have hbound : r ≤ 2 ^ 53 := (hr _).1 hhigh.le
  have hrange := lt_overflow_iff hlow hhigh hcarry
  rcases hbound.lt_or_eq with hlt | rfl
  · refine .inl ⟨hlt, ⟨hlt, hp, ?_⟩, hle, hge, by rw [hrange]; omega⟩
    exact hlow.imp_left fun hlow => (hr _).2 hlow
  · have hnext : value (2 ^ 53) p = value (2 ^ 52) (p + 1) := by
      rw [value_eq_of_le (2 ^ 52) (show p ≤ p + 1 by omega)]
      norm_num
    rw [hnext] at hle hge
    exact .inr ⟨rfl, ⟨by decide, by omega, .inl (le_refl _)⟩, hle, hge, by rw [hrange]; omega⟩

theorem mantissa_ofMantissaAndAccuracy (m : Nat) (acc : Accuracy) :
    (ExtendedMantissa.ofMantissaAndAccuracy m acc).mantissa = m := by
  cases acc with
  | exact => rfl
  | inexact o => cases o <;> rfl

/-- A number in units of its last place: it has 53 digits before the point, or the last place is
the lowest one. -/
theorem places_bounds {m : Nat} {e : Int} {acc : Accuracy} {x : ℚ}
    (hx : Extends (.ofMantissaAndAccuracy m acc) x) {k : Nat} (hk : lastPlace m e = e + k) :
    (2 ^ 52 ≤ x / 2 ^ k ∨ lastPlace m e = -1074) ∧ x / 2 ^ k < 2 ^ 53 := by
  have hle := hx.le
  have hlt := hx.lt
  rw [mantissa_ofMantissaAndAccuracy] at hle hlt
  rw [le_div_iff₀ (by positivity), div_lt_iff₀ (by positivity), ← pow_add, ← pow_add]
  constructor
  · -- The last place is the lowest one, or it is put so that 53 digits remain.
    by_cases hlowest : lastPlace m e = -1074
    · exact .inr hlowest
    · have hlog : m.log2 = 52 + k := by
        rw [lastPlace] at hk hlowest
        omega
      have hm : 2 ^ (52 + k) ≤ m := (Nat.le_log2 fun hzero => by
        rw [hzero, Nat.log2_zero] at hlog
        omega).1 hlog.ge
      exact .inl (le_trans (by exact_mod_cast hm) hle)
  · have hm : m + 1 ≤ 2 ^ (53 + k) :=
      Nat.lt_log2_self.trans_le (Nat.pow_le_pow_right two_pos (by rw [lastPlace] at hk; omega))
    exact hlt.trans_le (by exact_mod_cast hm)

section

variable {m k : Nat} {e : Int} {acc : Accuracy}

theorem shiftToTargetExponent_eq (hk : lastPlace m e - e = k) :
    shiftToTargetExponent Format.binary64 m e acc =
      (ExtendedMantissa.ofMantissaAndAccuracy m acc >>> k, e + k) := by
  rw [shiftToTargetExponent, targetExponent_eq, shiftToExponent, hk]
  rfl

/-- A rounded significand with no more than 53 digits is kept as it is. -/
theorem roundWithAccuracy_of_lt (s : Sign) (hk : lastPlace m e - e = k) {r : Nat}
    (hr : (ExtendedMantissa.ofMantissaAndAccuracy m acc >>> k).roundedMantissa = r)
    (hdigits : r < 2 ^ 53) :
    roundWithAccuracy Format.binary64 s m e acc = signed s r (e + k) := by
  -- A significand of so few digits is not shifted a second time.
  have hlog : r.log2 ≤ 52 := by
    by_cases hzero : r = 0
    · rw [hzero, Nat.log2_zero]
      exact Nat.zero_le _
    · exact Nat.lt_succ_iff.1 ((Nat.log2_lt hzero).2 hdigits)
  have hplace : (lastPlace r (e + k) - (e + k)).toNat = 0 := by
    rw [lastPlace] at hk ⊢
    omega
  rw [roundWithAccuracy, shiftToTargetExponent_eq hk]
  dsimp only
  rw [hr, shiftToTargetExponent, targetExponent_eq, shiftToExponent, hplace]
  dsimp only
  rw [Nat.cast_zero, Int.add_zero]
  rfl

/-- A rounded significand with one digit more is shifted once more. -/
theorem roundWithAccuracy_of_carry (s : Sign) (hk : lastPlace m e - e = k)
    (hr : (ExtendedMantissa.ofMantissaAndAccuracy m acc >>> k).roundedMantissa = 2 ^ 53) :
    roundWithAccuracy Format.binary64 s m e acc = signed s (2 ^ 52) (e + k + 1) := by
  have hplace : lastPlace (2 ^ 53) (e + k) - (e + k) = (1 : Nat) := by
    rw [lastPlace] at hk ⊢
    rw [Nat.log2_two_pow]
    omega
  rw [roundWithAccuracy, shiftToTargetExponent_eq hk]
  dsimp only
  rw [hr, shiftToTargetExponent_eq hplace]
  rfl

/-- Rounding an extended significand whose exponent is not above its last place. -/
theorem roundWithAccuracy_rounds (s : Sign) {x : ℚ}
    (hx : Extends (.ofMantissaAndAccuracy m acc) x) (he : e ≤ lastPlace m e) :
    ∃ m' e', Rounds (x * 2 ^ e) m' e' ∧
      roundWithAccuracy Format.binary64 s m e acc = signed s m' e' := by
  obtain ⟨k, hk⟩ := Int.le.dest he
  have hk' : lastPlace m e - e = k := by omega
  have hlowest : -1074 ≤ e + (k : Int) := hk ▸ le_max_right _ _
  -- In units of the last place the number is `x / 2 ^ k`, which is rounded to a whole number.
  have hscale : x * 2 ^ e = x / 2 ^ k * 2 ^ (e + k) := by
    rw [zpow_add₀ two_ne_zero, zpow_natCast]
    field_simp
  have hplaces : ∀ n : Nat, (x * 2 ^ e ≤ value n (e + k) ↔ x / 2 ^ k ≤ n) ∧
      (value n (e + k) ≤ x * 2 ^ e ↔ n ≤ x / 2 ^ k) := fun n => by
    rw [hscale, value, mul_le_mul_iff_left₀ (two_zpow_pos _),
      mul_le_mul_iff_left₀ (two_zpow_pos _)]
    exact ⟨Iff.rfl, Iff.rfl⟩
  obtain ⟨hlow, hhigh⟩ := places_bounds hx hk.symm
  obtain ⟨r, hr⟩ : ∃ r,
      (ExtendedMantissa.ofMantissaAndAccuracy m acc >>> k).roundedMantissa = r := ⟨_, rfl⟩
  have hrounds := rounds_of_places (q := x * 2 ^ e) (r := r) hlowest
    (hlow.imp (fun h => (hplaces _).2.2 (by exact_mod_cast h)) (hk.trans ·))
    (lt_of_not_ge fun h => absurd ((hplaces _).2.1 h) (by exact_mod_cast not_le_of_gt hhigh))
    (fun n => by
      rw [(hplaces n).1, (hplaces n).2, ← hr]
      exact (hx.shiftRight k).roundedMantissa n)
    (by
      rw [← hr, (hx.shiftRight k).le_roundedMantissa_iff (by norm_num), hscale, value,
        zpow_sub_one₀ two_ne_zero, ← mul_assoc, mul_right_comm,
        mul_le_mul_iff_left₀ (two_zpow_pos _)]
      norm_num
      constructor <;> intro <;> linarith)
  rcases hrounds with ⟨hdigits, hrounds⟩ | ⟨rfl, hrounds⟩
  · exact ⟨r, e + k, hrounds, roundWithAccuracy_of_lt s hk' hr hdigits⟩
  · exact ⟨2 ^ 52, e + k + 1, hrounds, roundWithAccuracy_of_carry s hk' hr⟩

end

/-- Any significand may be rounded: its exponent is lowered to the last place first. -/
theorem exists_round_eq (s : Sign) {m : Nat} (hm : 0 < m) (e : Int) :
    ∃ n t, t ≤ lastPlace n t ∧ (n : ℚ) * 2 ^ t = value m e ∧
      UnpackedFloat.round Format.binary64 s m e =
        roundWithAccuracy Format.binary64 s n t .exact := by
  -- The significand is shifted up, which takes nothing from its value.
  obtain ⟨k, hk⟩ : ∃ k, (e - lastPlace m e).toNat = k := ⟨_, rfl⟩
  have hlog : (m <<< k).log2 = m.log2 + k := by
    refine (Nat.log2_eq_iff (by rw [Nat.shiftLeft_eq]; positivity)).2 ?_
    rw [Nat.shiftLeft_eq, Nat.pow_add, Nat.add_right_comm, Nat.pow_add]
    exact ⟨Nat.mul_le_mul_right _ (Nat.log2_self_le hm.ne'),
      Nat.mul_lt_mul_of_pos_right Nat.lt_log2_self (by positivity)⟩
  refine ⟨m <<< k, e - k, ?_, ?_, ?_⟩
  · rw [lastPlace] at hk ⊢
    rw [hlog]
    omega
  · rw [value_eq_of_le m (show e - (k : Int) ≤ e by omega), Nat.shiftLeft_eq,
      show (e - (e - (k : Int))).toNat = k by omega, value]
  · rw [UnpackedFloat.round, targetExponent_eq, decreaseExponent, hk]

theorem round_rounds (s : Sign) {m : Nat} (hm : 0 < m) (e : Int) :
    ∃ m' e', Rounds (value m e) m' e' ∧
      UnpackedFloat.round Format.binary64 s m e = signed s m' e' := by
  obtain ⟨n, t, hplace, hvalue, heq⟩ := exists_round_eq s hm e
  rw [← hvalue, heq]
  exact roundWithAccuracy_rounds s (extends_exact n) hplace

/-! ## Operations on finite doubles -/

/-- The product of canonical significands has all digits that are kept. -/
theorem place_of_product {m₁ m₂ : Nat} {e₁ e₂ : Int} (hm₁ : 0 < m₁) (hm₂ : 0 < m₂)
    (h₁ : Canonical m₁ e₁) (h₂ : Canonical m₂ e₂) :
    e₁ + e₂ ≤ lastPlace (m₁ * m₂) (e₁ + e₂) := by
  -- If neither factor has all digits, the exponents are the lowest ones.
  rw [lastPlace]
  by_cases hfull : 2 ^ 52 ≤ m₁ * m₂
  · have hlog := (Nat.le_log2 (Nat.mul_pos hm₁ hm₂).ne').2 hfull
    omega
  · have he₁ := h₁.full.resolve_left fun h => hfull (h.trans (Nat.le_mul_of_pos_right m₁ hm₂))
    have he₂ := h₂.full.resolve_left fun h => hfull (h.trans (Nat.le_mul_of_pos_left m₂ hm₁))
    omega

theorem value_mul (m₁ m₂ : Nat) (e₁ e₂ : Int) :
    value m₁ e₁ * value m₂ e₂ = ((m₁ * m₂ : Nat) : ℚ) * 2 ^ (e₁ + e₂) := by
  rw [value, value, Nat.cast_mul, zpow_add₀ two_ne_zero]
  ring

/-- A product that has all digits that are kept is rounded. -/
theorem mul_rounds_of_place (s₁ s₂ : Sign) {m₁ m₂ : Nat} {e₁ e₂ : Int} (hm₁ : 0 < m₁)
    (hm₂ : 0 < m₂) (hplace : e₁ + e₂ ≤ lastPlace (m₁ * m₂) (e₁ + e₂)) :
    ∃ m e, Rounds (value m₁ e₁ * value m₂ e₂) m e ∧
      UnpackedFloat.mul Format.binary64 (.finite s₁ m₁ e₁ hm₁) (.finite s₂ m₂ e₂ hm₂) =
        signed (s₁ * s₂) m e := by
  rw [value_mul]
  exact roundWithAccuracy_rounds (s₁ * s₂) (extends_exact _) hplace

/-- The product of finite doubles is the rounded product of the values. -/
theorem mul_rounds (s₁ s₂ : Sign) {m₁ m₂ : Nat} {e₁ e₂ : Int} (hm₁ : 0 < m₁) (hm₂ : 0 < m₂)
    (h₁ : Canonical m₁ e₁) (h₂ : Canonical m₂ e₂) :
    ∃ m e, Rounds (value m₁ e₁ * value m₂ e₂) m e ∧
      UnpackedFloat.mul Format.binary64 (.finite s₁ m₁ e₁ hm₁) (.finite s₂ m₂ e₂ hm₂) =
        signed (s₁ * s₂) m e :=
  mul_rounds_of_place s₁ s₂ hm₁ hm₂ (place_of_product hm₁ hm₂ h₁ h₂)

theorem roundBit_ofFraction {n r d : Nat} (hd : 0 < d) :
    (ExtendedMantissa.ofMantissaAndAccuracy n (accuracyOfFraction r d)).roundBit = true ↔
      d ≤ 2 * r := by
  rw [accuracyOfFraction]
  -- Without a remainder nothing is rounded; else the remainder is compared with half of the
  -- divisor.
  rcases Nat.eq_zero_or_pos r with rfl | hr
  · simp [ExtendedMantissa.ofMantissaAndAccuracy]
    omega
  · rw [if_neg hr.ne']
    rcases lt_trichotomy (2 * r) d with hlt | heq | hgt
    · rw [Nat.compare_eq_lt.2 hlt]
      simp [ExtendedMantissa.ofMantissaAndAccuracy]
      omega
    · rw [Nat.compare_eq_eq.2 heq]
      simp [ExtendedMantissa.ofMantissaAndAccuracy]
      omega
    · rw [Nat.compare_eq_gt.2 hgt]
      simp [ExtendedMantissa.ofMantissaAndAccuracy]
      omega

theorem extends_fraction {n d : Nat} (hd : 0 < d) :
    Extends (.ofMantissaAndAccuracy (n / d) (accuracyOfFraction (n % d) d)) (n / d : ℚ) := by
  have hd' : (0 : ℚ) < d := Nat.cast_pos.2 hd
  -- The quotient is its whole part and a remainder that is less than the divisor.
  have hdiv : (n : ℚ) = d * (n / d : Nat) + (n % d : Nat) := by
    exact_mod_cast (Nat.div_add_mod n d).symm
  have hmod : ((n % d : Nat) : ℚ) < d := Nat.cast_lt.2 (Nat.mod_lt n hd)
  refine ⟨?_, ?_, ?_, fun heq => ?_⟩
  · rw [mantissa_ofMantissaAndAccuracy]
    exact Nat.cast_div_le
  · rw [mantissa_ofMantissaAndAccuracy, div_lt_iff₀ hd']
    linarith
  · rw [mantissa_ofMantissaAndAccuracy, roundBit_ofFraction hd, le_div_iff₀ hd',
      ← Nat.cast_le (α := ℚ), Nat.cast_mul, Nat.cast_two]
    constructor <;> intro <;> linarith
  · rw [mantissa_ofMantissaAndAccuracy, div_eq_iff hd'.ne'] at heq
    have hzero : ((n % d : Nat) : ℚ) = 0 := by linarith
    rw [Nat.cast_eq_zero.1 hzero, accuracyOfFraction, if_pos rfl]
    exact ⟨rfl, rfl⟩

/-- The quotient of significands has 53 digits when the dividend was shifted far enough. -/
theorem two_pow_le_shifted_div {m₁ m₂ k : Nat} (hm₁ : 0 < m₁) (hm₂ : 0 < m₂)
    (hk : 53 + m₂.log2 ≤ m₁.log2 + k) : 2 ^ 52 ≤ m₁ <<< k / m₂ := by
  rw [Nat.le_div_iff_mul_le hm₂, Nat.shiftLeft_eq]
  calc 2 ^ 52 * m₂ ≤ 2 ^ 52 * 2 ^ (m₂.log2 + 1) :=
        Nat.mul_le_mul_left _ Nat.lt_log2_self.le
    _ = 2 ^ (53 + m₂.log2) := by rw [← Nat.pow_add]; congr 1; omega
    _ ≤ 2 ^ (m₁.log2 + k) := Nat.pow_le_pow_right two_pos hk
    _ = 2 ^ m₁.log2 * 2 ^ k := Nat.pow_add ..
    _ ≤ m₁ * 2 ^ k := Nat.mul_le_mul_right _ (Nat.log2_self_le hm₁.ne')

/-- A quotient is the rounding of a fraction that has all digits that are kept. -/
theorem exists_div_eq_round (s₁ s₂ : Sign) {m₁ m₂ : Nat} (e₁ e₂ : Int) (hm₁ : 0 < m₁)
    (hm₂ : 0 < m₂) : ∃ n t, t ≤ lastPlace (n / m₂) t ∧
      (n / m₂ : ℚ) * 2 ^ t = value m₁ e₁ / value m₂ e₂ ∧
      UnpackedFloat.div Format.binary64 (.finite s₁ m₁ e₁ hm₁) (.finite s₂ m₂ e₂ hm₂) =
        roundWithAccuracy Format.binary64 (s₁ / s₂) (n / m₂) t
          (accuracyOfFraction (n % m₂) m₂) := by
  -- The exponent of the fraction is chosen low enough for all digits that are kept.
  obtain ⟨t, ht⟩ : ∃ t, min (e₁ - e₂)
    (Format.binary64.targetExponent (totalExponent m₁ e₁ - totalExponent m₂ e₂)) = t := ⟨_, rfl⟩
  obtain ⟨k, hk⟩ : ∃ k, (e₁ - e₂ - t).toNat = k := ⟨_, rfl⟩
  have hdigits : (Format.binary64.mantissaBits : Int) = 53 := rfl
  have hlowest : Format.binary64.minExponent = -1074 := rfl
  refine ⟨m₁ <<< k, t, ?_, ?_, ?_⟩
  · rw [Format.targetExponent, totalExponent, totalExponent, hdigits, hlowest] at ht
    rw [lastPlace]
    -- Above the lowest exponent, the quotient has as many digits as a significand.
    by_cases hlow : t ≤ -1074
    · omega
    · have hfull := two_pow_le_shifted_div (k := k) hm₁ hm₂ (by omega)
      have hlog := (Nat.le_log2 (by omega)).2 hfull
      omega
  · have hexponent : e₁ = t + k + e₂ := by omega
    have hm₂' : (m₂ : ℚ) ≠ 0 := Nat.cast_ne_zero.2 hm₂.ne'
    have he₂ := (two_zpow_pos e₂).ne'
    rw [value, value, hexponent, Nat.shiftLeft_eq, Nat.cast_mul, Nat.cast_pow, Nat.cast_two,
      zpow_add₀ two_ne_zero, zpow_add₀ two_ne_zero, zpow_natCast]
    field_simp
  · rw [UnpackedFloat.div, divCore, ht, hk]

/-- The quotient of finite doubles is the rounded quotient of the values. -/
theorem div_rounds (s₁ s₂ : Sign) {m₁ m₂ : Nat} (e₁ e₂ : Int) (hm₁ : 0 < m₁) (hm₂ : 0 < m₂) :
    ∃ m e, Rounds (value m₁ e₁ / value m₂ e₂) m e ∧
      UnpackedFloat.div Format.binary64 (.finite s₁ m₁ e₁ hm₁) (.finite s₂ m₂ e₂ hm₂) =
        signed (s₁ / s₂) m e := by
  obtain ⟨n, t, hplace, hvalue, heq⟩ := exists_div_eq_round s₁ s₂ e₁ e₂ hm₁ hm₂
  rw [← hvalue, heq]
  exact roundWithAccuracy_rounds (s₁ / s₂) (extends_fraction hm₂) hplace

theorem normalize_natCast {d : Nat} (hd : 0 < d) (e : Int) (s : Sign) :
    UnpackedFloat.normalize Format.binary64 d e s =
      UnpackedFloat.round Format.binary64 .positive d e := by
  rw [UnpackedFloat.normalize, Int.compare_eq_gt.2 (by omega)]
  rfl

theorem normalize_neg_natCast {d : Nat} (hd : 0 < d) (e : Int) (s : Sign) :
    UnpackedFloat.normalize Format.binary64 (-d) e s =
      UnpackedFloat.round Format.binary64 .negative d e := by
  rw [UnpackedFloat.normalize, Int.compare_eq_lt.2 (by omega), Int.neg_neg]
  rfl

/-- The difference of two values is one of significands that are shifted to the lower exponent. -/
theorem exists_difference {m₁ m₂ : Nat} {e₁ e₂ : Int} (h : value m₂ e₂ < value m₁ e₁) :
    ∃ d : Nat, 0 < d ∧
      d + m₂ <<< (e₂ - min e₁ e₂).toNat = m₁ <<< (e₁ - min e₁ e₂).toNat ∧
      value m₁ e₁ - value m₂ e₂ = value d (min e₁ e₂) := by
  rw [value_eq_of_le m₁ (min_le_left e₁ e₂), value_eq_of_le m₂ (min_le_right e₁ e₂)] at h ⊢
  rw [← Nat.shiftLeft_eq, ← Nat.shiftLeft_eq] at h ⊢
  have hlt := value_lt_value.1 h
  refine ⟨_, Nat.sub_pos_of_lt hlt, Nat.sub_add_cancel hlt.le, ?_⟩
  rw [value, value, value, Nat.cast_sub hlt.le]
  ring

/-- The difference of positive doubles has the sign of the difference of their values, and is not
rounded to zero. -/
theorem sub_rounds {m₁ m₂ : Nat} {e₁ e₂ : Int} (hm₁ : 0 < m₁) (hm₂ : 0 < m₂) (h₁ : -1074 ≤ e₁)
    (h₂ : -1074 ≤ e₂) (h : value m₂ e₂ < value m₁ e₁) :
    (∃ m e, 0 < m ∧ Rounds (value m₁ e₁ - value m₂ e₂) m e ∧
      UnpackedFloat.sub Format.binary64 (.finite .positive m₁ e₁ hm₁)
        (.finite .positive m₂ e₂ hm₂) = signed .positive m e) ∧
    ∃ m e, 0 < m ∧ Rounds (value m₁ e₁ - value m₂ e₂) m e ∧
      UnpackedFloat.sub Format.binary64 (.finite .positive m₂ e₂ hm₂)
        (.finite .positive m₁ e₁ hm₁) = signed .negative m e := by
  obtain ⟨d, hpos, hd, hdiff⟩ := exists_difference h
  -- The exact difference is a multiple of the least positive double.
  have hleast : value 1 (-1074) ≤ value d (min e₁ e₂) := by
    rw [value_eq_of_le d (show -1074 ≤ min e₁ e₂ by omega)]
    exact value_le_value.2 (Nat.mul_pos hpos (by positivity))
  rw [hdiff]
  constructor
  · obtain ⟨m, e, hrounds, heq⟩ := round_rounds .positive hpos (min e₁ e₂)
    refine ⟨m, e, hrounds.pos hleast, hrounds, ?_⟩
    change UnpackedFloat.normalize _ (((m₁ <<< (e₁ - min e₁ e₂).toNat : Nat) : Int) -
      (m₂ <<< (e₂ - min e₁ e₂).toNat : Nat)) (min e₁ e₂) _ = _
    rw [show ((m₁ <<< (e₁ - min e₁ e₂).toNat : Nat) : Int) -
      (m₂ <<< (e₂ - min e₁ e₂).toNat : Nat) = d by omega, normalize_natCast hpos, heq]
  · obtain ⟨m, e, hrounds, heq⟩ := round_rounds .negative hpos (min e₁ e₂)
    refine ⟨m, e, hrounds.pos hleast, hrounds, ?_⟩
    change UnpackedFloat.normalize _ (((m₂ <<< (e₂ - min e₂ e₁).toNat : Nat) : Int) -
      (m₁ <<< (e₁ - min e₂ e₁).toNat : Nat)) (min e₂ e₁) _ = _
    rw [min_comm e₂ e₁, show ((m₂ <<< (e₂ - min e₁ e₂).toNat : Nat) : Int) -
      (m₁ <<< (e₁ - min e₁ e₂).toNat : Nat) = -d by omega, normalize_neg_natCast hpos, heq]

end CoordTransform.Double
