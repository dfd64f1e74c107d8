import Mathlib
import CoordTransform.Decimal.Binary
import CoordTransform.Proofs.Double.Rounding

/-!
# Rounding Intervals

The numbers that are rounded to a given double fill an interval: from half a last place below it to
half a last place above, where the lower half is a quarter below a power of two. The ends belong to
it when the significand is even. The main result is that rounding takes every number of the
interval to its double.
-/

namespace CoordTransform

open Double

/-! ## The interval -/

namespace Decimal.Binary

/-- The numbers between the ends of the interval of a double. -/
def Attracts (b : Binary) (q : ℚ) : Prop :=
  if b.endsIncluded then
    value b.lowerQuarters (b.exponent - 2) ≤ q ∧ q ≤ value b.upperQuarters (b.exponent - 2)
  else value b.lowerQuarters (b.exponent - 2) < q ∧ q < value b.upperQuarters (b.exponent - 2)

variable {b : Binary} {q : ℚ}

theorem Attracts.bounds (h : b.Attracts q) : value b.lowerQuarters (b.exponent - 2) ≤ q ∧
    q ≤ value b.upperQuarters (b.exponent - 2) := by
  unfold Attracts at h
  split at h
  · exact h
  · exact ⟨h.1.le, h.2.le⟩

theorem attracts_of_lt (hlow : value b.lowerQuarters (b.exponent - 2) < q)
    (hhigh : q < value b.upperQuarters (b.exponent - 2)) : b.Attracts q := by
  unfold Attracts
  split
  · exact ⟨hlow.le, hhigh.le⟩
  · exact ⟨hlow, hhigh⟩

/-- The ends belong to even significands. -/
theorem Attracts.even (h : b.Attracts q) (hend : q = value b.lowerQuarters (b.exponent - 2) ∨
    q = value b.upperQuarters (b.exponent - 2)) : b.significand % 2 = 0 := by
  unfold Attracts at h
  split at h
  · next hincluded => simpa [endsIncluded] using hincluded
  · exact (hend.elim h.1.ne' h.2.ne).elim

/-- The lower end is half a last place below the double, or less. -/
theorem le_lowerQuarters (b : Binary) : 4 * b.significand ≤ b.lowerQuarters + 2 := by
  unfold lowerQuarters quarters
  split <;> omega

/-- Below a power of two the lower end is a quarter away. -/
theorem lowerQuarters_of_eq (h : b.significand = 2 ^ 52) (he : -1074 < b.exponent) :
    b.lowerQuarters = 2 ^ 54 - 1 := by
  have hhidden : hiddenBit = 2 ^ 52 := rfl
  have hlowest : lowestExponent = -1074 := rfl
  rw [lowerQuarters, quarters, hhidden, hlowest, h, decide_eq_true he]
  rfl

end Decimal.Binary

namespace Double

open Float.Model (Format UnpackedFloat)
open Float.Model.UnpackedFloat (Sign Accuracy ExtendedMantissa roundWithAccuracy accuracyOfFraction)
open Decimal (Binary)

/-! ## The nearest whole number -/

/-- A whole number at most a half away, which is even when it is a half away. -/
structure NearestEven (x : ℚ) (r : Nat) : Prop where
  le : r ≤ x + 1 / 2
  ge : x ≤ r + 1 / 2
  even : r = x + 1 / 2 ∨ x = r + 1 / 2 → r % 2 = 0

/-- Two nearest numbers would be neighbours, and one of them odd. -/
theorem NearestEven.unique {x : ℚ} {r r' : Nat} (h : NearestEven x r) (h' : NearestEven x r') :
    r = r' := by
  -- The greater one would be one greater, and both of them a half away.
  have hlt : ∀ {r r' : Nat}, NearestEven x r → NearestEven x r' → ¬ r < r' := by
    intro r r' h h' hlt
    have hstep : (r : ℚ) + 1 ≤ r' := by exact_mod_cast hlt
    have hle := h'.le
    have hge := h.ge
    have heven := h.even (.inr (by linarith))
    have heven' := h'.even (.inl (by linarith))
    have hnext : r' = r + 1 := by
      have : (r' : ℚ) = (r + 1 : Nat) := by
        push_cast
        linarith
      exact_mod_cast this
    omega
  exact le_antisymm (not_lt.1 (hlt h' h)) (not_lt.1 (hlt h h'))

/-- An extended significand that also tells whether the rest is exactly a half. -/
structure Resolves (em : ExtendedMantissa) (x : ℚ) : Prop extends Extends em x where
  sticky : em.stickyBit = false ↔ x = em.mantissa ∨ x = em.mantissa + 1 / 2

theorem resolves_exact (m : Nat) : Resolves (.ofMantissaAndAccuracy m .exact) m :=
  ⟨extends_exact m, iff_of_true rfl (.inl rfl)⟩

theorem Resolves.shiftRightOne {em : ExtendedMantissa} {x : ℚ} (h : Resolves em x) :
    Resolves em.shiftRightOne (x / 2) := by
  refine ⟨h.toExtends.shiftRightOne, ?_⟩
  obtain ⟨⟨hle, hlt, hhalf, hwhole⟩, hsticky⟩ := h
  have hparity : (em.mantissa : ℚ) = 2 * (em.mantissa / 2 : Nat) + (em.mantissa % 2 : Nat) := by
    exact_mod_cast (Nat.div_add_mod em.mantissa 2).symm
  -- Nothing is left over exactly when the number was whole before.
  have hwhole' : (em.roundBit || em.stickyBit) = false ↔ x = em.mantissa := by
    rw [Bool.or_eq_false_iff]
    refine ⟨fun ⟨hround, hrest⟩ => (hsticky.1 hrest).resolve_right fun heq => ?_, hwhole⟩
    rw [hhalf.2 heq.ge] at hround
    cases hround
  change (em.roundBit || em.stickyBit) = false ↔
    x / 2 = ((em.mantissa / 2 : Nat) : ℚ) ∨ x / 2 = ((em.mantissa / 2 : Nat) : ℚ) + 1 / 2
  rw [hwhole']
  rcases Nat.mod_two_eq_zero_or_one em.mantissa with hdigit | hdigit <;> rw [hdigit] at hparity
  · refine ⟨fun heq => .inl ?_, ?_⟩
    · rw [heq, hparity]
      norm_num
    · rintro (heq | heq)
      · rw [hparity]
        norm_num
        linarith
      · norm_num at hparity
        linarith
  · refine ⟨fun heq => .inr ?_, ?_⟩
    · rw [heq, hparity]
      norm_num
      ring
    · norm_num at hparity
      rintro (heq | heq)
      · linarith
      · linarith

theorem Resolves.shiftRight {em : ExtendedMantissa} {x : ℚ} (h : Resolves em x) (k : Nat) :
    Resolves (em >>> k) (x / 2 ^ k) := by
  induction k with
  | zero =>
    rw [pow_zero, div_one]
    exact h
  | succ k ih =>
    have hstep := ih.shiftRightOne
    rwa [div_div, ← pow_succ] at hstep

theorem stickyBit_ofFraction (n : Nat) {r d : Nat} :
    (ExtendedMantissa.ofMantissaAndAccuracy n (accuracyOfFraction r d)).stickyBit = false ↔
      r = 0 ∨ 2 * r = d := by
  rw [accuracyOfFraction]
  split
  · next hr => simp [hr, ExtendedMantissa.ofMantissaAndAccuracy]
  · next hr =>
    -- The remainder is less than half of the divisor, half of it, or more.
    rcases lt_trichotomy (2 * r) d with hlt | heq | hgt
    · rw [Nat.compare_eq_lt.2 hlt]
      simp [ExtendedMantissa.ofMantissaAndAccuracy, hr, hlt.ne]
    · rw [Nat.compare_eq_eq.2 heq]
      simp [ExtendedMantissa.ofMantissaAndAccuracy, heq]
    · rw [Nat.compare_eq_gt.2 hgt]
      simp [ExtendedMantissa.ofMantissaAndAccuracy, hr, hgt.ne']

theorem resolves_fraction {n d : Nat} (hd : 0 < d) :
    Resolves (.ofMantissaAndAccuracy (n / d) (accuracyOfFraction (n % d) d)) (n / d : ℚ) := by
  refine ⟨extends_fraction hd, ?_⟩
  have hd' : (d : ℚ) ≠ 0 := Nat.cast_ne_zero.2 hd.ne'
  have hdiv : (n : ℚ) / d = (n / d : Nat) + (n % d : Nat) / d := by
    rw [div_eq_iff hd', add_mul, div_mul_cancel₀ _ hd', mul_comm]
    exact_mod_cast (Nat.div_add_mod n d).symm
  -- The quotient is in the middle of two whole numbers when the remainder is half of the divisor.
  have hhalf : ((n % d : Nat) : ℚ) / d = 1 / 2 ↔ 2 * (n % d) = d := by
    rw [div_eq_iff hd', ← Nat.cast_inj (R := ℚ), Nat.cast_mul, Nat.cast_two]
    constructor <;> intro <;> linarith
  rw [stickyBit_ofFraction, mantissa_ofMantissaAndAccuracy, hdiv, add_eq_left, div_eq_zero_iff,
    Nat.cast_eq_zero, add_right_inj, hhalf]
  simp [hd.ne']

/-- Rounding goes to the nearest whole number, a tie to the even one. -/
theorem Resolves.nearestEven {em : ExtendedMantissa} {x : ℚ} (h : Resolves em x) :
    NearestEven x em.roundedMantissa := by
  obtain ⟨⟨hle, hlt, hhalf, -⟩, hsticky⟩ := h
  obtain ⟨m, round, sticky⟩ := em
  dsimp only at hle hlt hhalf hsticky
  cases round with
  | false =>
    -- Less than a half is dropped.
    have hbelow : x < m + 1 / 2 := lt_of_not_ge fun hge => Bool.false_ne_true (hhalf.2 hge)
    have hrounded : (ExtendedMantissa.mk m false sticky).roundedMantissa = m := by
      cases sticky <;> rfl
    rw [hrounded]
    exact ⟨by linarith, hbelow.le, fun htie => by rcases htie with htie | htie <;> linarith⟩
  | true =>
    have habove := hhalf.1 rfl
    cases sticky with
    | false =>
      have hx : x = m + 1 / 2 := (hsticky.1 rfl).resolve_left (by linarith)
      have hrounded : (ExtendedMantissa.mk m true false).roundedMantissa = m + m % 2 := rfl
      rw [hrounded, hx]
      have hbit : ((m % 2 : Nat) : ℚ) ≤ 1 := by
        exact_mod_cast Nat.le_of_lt_succ (Nat.mod_lt m two_pos)
      have hnonneg : (0 : ℚ) ≤ (m % 2 : Nat) := Nat.cast_nonneg _
      refine ⟨?_, ?_, fun _ => by omega⟩
      · push_cast
        linarith
      · push_cast
        linarith
    | true =>
      have hne : x ≠ m + 1 / 2 := fun heq => absurd (hsticky.2 (.inr heq)) (by decide)
      have hstrict : m + 1 / 2 < x := lt_of_le_of_ne habove hne.symm
      have hrounded : (ExtendedMantissa.mk m true true).roundedMantissa = m + 1 := rfl
      rw [hrounded]
      refine ⟨?_, ?_, fun htie => ?_⟩
      · push_cast
        linarith
      · push_cast
        linarith
      · push_cast at htie
        rcases htie with htie | htie <;> linarith

/-! ## Rounding takes the interval to its double -/

section

variable {b : Binary} {y : ℚ} {p : Int}

/-- A last place has four quarters. -/
theorem four_quarters (e : Int) : (2 : ℚ) ^ e = 4 * 2 ^ (e - 2) := by
  rw [zpow_sub₀ two_ne_zero]
  norm_num
  ring

/-- In units of the last place, a double is the nearest whole number of its interval. -/
theorem nearestEven_of_attracts (h : b.Attracts (y * 2 ^ b.exponent)) :
    NearestEven y b.significand := by
  obtain ⟨hlow, hhigh⟩ := h.bounds
  have heven := h.even
  have hquarter : (4 * b.significand : ℚ) ≤ b.lowerQuarters + 2 := by
    exact_mod_cast b.le_lowerQuarters
  have hupper : (b.upperQuarters : ℚ) = 4 * b.significand + 2 := by
    exact_mod_cast (rfl : b.upperQuarters = 4 * b.significand + 2)
  -- In quarters, the ends of the interval are the two whole numbers next to `4 * y`.
  have hy : y * 2 ^ b.exponent = 4 * y * 2 ^ (b.exponent - 2) := by
    rw [four_quarters]
    ring
  have hunit := two_zpow_pos (b.exponent - 2)
  rw [hy, value, mul_le_mul_iff_left₀ hunit] at hlow hhigh
  rw [hy, value, value, mul_left_inj' hunit.ne', mul_left_inj' hunit.ne'] at heven
  refine ⟨by linarith, by linarith, fun htie => heven ?_⟩
  rcases htie with htie | htie
  · exact .inl (by linarith)
  · exact .inr (by linarith)

/-- A number of the interval that has a lower last place lies just below a power of two, in the
quarter that belongs to it. -/
theorem attracts_below (hb : Canonical b.significand b.exponent) (hlow : -1074 ≤ p)
    (hp : p < b.exponent) (hy : y < 2 ^ 53) (h : b.Attracts (y * 2 ^ p)) :
    b.exponent = p + 1 ∧ b.significand = 2 ^ 52 ∧ NearestEven y (2 ^ 53) := by
  have hfull : 2 ^ 52 ≤ b.significand := hb.full.resolve_right (by omega)
  have hexponent : -1074 < b.exponent := by omega
  have hunit := two_zpow_pos (b.exponent - 2)
  have hend : b.lowerQuarters * 2 ^ (b.exponent - 2) < (2 : ℚ) ^ 53 * 2 ^ p :=
    h.bounds.1.trans_lt (mul_lt_mul_of_pos_right hy (two_zpow_pos p))
  have hquarter := b.le_lowerQuarters
  -- Only half a last place below is left of the interval, so that one place is the difference.
  have hnext : b.exponent = p + 1 := by
    by_contra hne
    have hle : (2 : ℚ) ^ p ≤ 2 ^ (b.exponent - 2) := zpow_le_zpow_right₀ (by norm_num) (by omega)
    have hlower : b.lowerQuarters < 2 ^ 53 := by
      have : (b.lowerQuarters : ℚ) < 2 ^ 53 := lt_of_mul_lt_mul_right
        (hend.trans_le (mul_le_mul_of_nonneg_left hle (by positivity))) hunit.le
      exact_mod_cast this
    omega
  have hhalf : (2 : ℚ) ^ p = 2 * 2 ^ (b.exponent - 2) := by
    rw [← zpow_one_add₀ two_ne_zero]
    congr 1
    omega
  have hlower : b.lowerQuarters < 2 ^ 54 := by
    rw [hhalf, ← mul_assoc, mul_lt_mul_iff_left₀ hunit] at hend
    have : (b.lowerQuarters : ℚ) < 2 ^ 54 := by linarith
    exact_mod_cast this
  have hpower : b.significand = 2 ^ 52 := by omega
  refine ⟨hnext, hpower, ?_⟩
  have hquarters := h.bounds.1
  rw [b.lowerQuarters_of_eq hpower hexponent, hhalf, value, ← mul_assoc,
    mul_le_mul_iff_left₀ hunit] at hquarters
  push_cast at hquarters
  exact ⟨by push_cast; linarith, by push_cast; linarith, fun _ => by norm_num⟩

/-- No number of the interval has a higher last place. -/
theorem not_attracts_above (hb : Canonical b.significand b.exponent) (hp : b.exponent < p)
    (hy : 2 ^ 52 ≤ y) : ¬ b.Attracts (y * 2 ^ p) := by
  intro h
  -- A number with a higher last place begins where the interval has ended.
  have hunit := two_zpow_pos (b.exponent - 2)
  have hstep : 8 * (2 : ℚ) ^ (b.exponent - 2) ≤ 2 ^ p := by
    calc 8 * (2 : ℚ) ^ (b.exponent - 2) = 2 * 2 ^ b.exponent := by
          rw [four_quarters b.exponent]
          ring
      _ = 2 ^ (1 + b.exponent) := (zpow_one_add₀ two_ne_zero _).symm
      _ ≤ 2 ^ p := zpow_le_zpow_right₀ (by norm_num) (by omega)
  have hbeyond : (2 : ℚ) ^ 52 * (8 * 2 ^ (b.exponent - 2)) ≤
      b.upperQuarters * 2 ^ (b.exponent - 2) :=
    (mul_le_mul hy hstep (by positivity) (by linarith)).trans h.bounds.2
  rw [← mul_assoc, mul_le_mul_iff_left₀ hunit] at hbeyond
  have hupper : 2 ^ 55 ≤ b.upperQuarters := by
    have : (2 : ℚ) ^ 55 ≤ b.upperQuarters := by linarith
    exact_mod_cast this
  have hlt := hb.lt
  have hquarters : b.upperQuarters = 4 * b.significand + 2 := rfl
  omega

end

section

variable {m : Nat} {e : Int} {acc : Accuracy} {x : ℚ} {b : Binary}

/-- Rounding takes every number of the interval of a double to the double. -/
theorem roundWithAccuracy_of_attracts (s : Sign) (hx : Resolves (.ofMantissaAndAccuracy m acc) x)
    (he : e ≤ lastPlace m e) (hb : Canonical b.significand b.exponent)
    (h : b.Attracts (x * 2 ^ e)) :
    roundWithAccuracy Format.binary64 s m e acc = signed s b.significand b.exponent := by
  obtain ⟨k, hk⟩ := Int.le.dest he
  have hk' : lastPlace m e - e = k := by omega
  have hlowest : -1074 ≤ e + (k : Int) := hk ▸ le_max_right _ _
  have hscale : x * 2 ^ e = x / 2 ^ k * 2 ^ (e + k) := by
    rw [zpow_add₀ two_ne_zero, zpow_natCast]
    field_simp
  obtain ⟨hlow, hhigh⟩ := places_bounds hx.toExtends hk.symm
  have hnearest := (hx.shiftRight k).nearestEven
  rw [hscale] at h
  -- The place is that of the double, below it, or above it, where no number of the interval is.
  rcases lt_trichotomy (e + k) b.exponent with hplace | hplace | hplace
  · obtain ⟨hexponent, hsignificand, hcarry⟩ := attracts_below hb hlowest hplace hhigh h
    rw [hexponent, hsignificand]
    exact roundWithAccuracy_of_carry s hk' (hnearest.unique hcarry)
  · rw [hplace] at h
    rw [← hplace]
    exact roundWithAccuracy_of_lt s hk' (hnearest.unique (nearestEven_of_attracts h)) hb.lt
  · have hfull := hlow.resolve_right fun heq => by
      have := hb.lowest
      omega
    exact absurd h (not_attracts_above hb hplace hfull)

end

/-! ## Operations whose exact result lies in the interval -/

section

variable {m₁ m₂ : Nat} {e₁ e₂ : Int} {b : Binary}

theorem mul_of_attracts (s₁ s₂ : Sign) (hm₁ : 0 < m₁) (hm₂ : 0 < m₂)
    (hplace : e₁ + e₂ ≤ lastPlace (m₁ * m₂) (e₁ + e₂)) (hb : Canonical b.significand b.exponent)
    (h : b.Attracts (value m₁ e₁ * value m₂ e₂)) :
    UnpackedFloat.mul Format.binary64 (.finite s₁ m₁ e₁ hm₁) (.finite s₂ m₂ e₂ hm₂) =
      signed (s₁ * s₂) b.significand b.exponent := by
  rw [value_mul] at h
  exact roundWithAccuracy_of_attracts (s₁ * s₂) (resolves_exact _) hplace hb h

theorem round_of_attracts (s : Sign) (hm : 0 < m₁) (hb : Canonical b.significand b.exponent)
    (h : b.Attracts (value m₁ e₁)) :
    UnpackedFloat.round Format.binary64 s m₁ e₁ = signed s b.significand b.exponent := by
  obtain ⟨n, t, hplace, hvalue, heq⟩ := exists_round_eq s hm e₁
  rw [← hvalue] at h
  rw [heq]
  exact roundWithAccuracy_of_attracts s (resolves_exact n) hplace hb h

theorem div_of_attracts (s₁ s₂ : Sign) (hm₁ : 0 < m₁) (hm₂ : 0 < m₂)
    (hb : Canonical b.significand b.exponent) (h : b.Attracts (value m₁ e₁ / value m₂ e₂)) :
    UnpackedFloat.div Format.binary64 (.finite s₁ m₁ e₁ hm₁) (.finite s₂ m₂ e₂ hm₂) =
      signed (s₁ / s₂) b.significand b.exponent := by
  obtain ⟨n, t, hplace, hvalue, heq⟩ := exists_div_eq_round s₁ s₂ e₁ e₂ hm₁ hm₂
  rw [← hvalue] at h
  rw [heq]
  exact roundWithAccuracy_of_attracts (s₁ / s₂) (resolves_fraction hm₂) hplace hb h

end

end Double

end CoordTransform
