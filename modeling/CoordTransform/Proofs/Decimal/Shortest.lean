import Mathlib
import CoordTransform.Decimal.Shortest
import CoordTransform.Proofs.Double.Interval

/-!
# The Shortest Decimal Reads Back

The search tests decimals in integer arithmetic. The test is exact: it tells whether the decimal
lies in the rounding interval of the double. The last grid of the search is so fine that one of its
points lies in the interval, so that the search always ends in it.
-/

namespace CoordTransform.Decimal

open Double (value value_le_value value_lt_value two_zpow_pos Canonical)

/-! ## Values of decimals -/

namespace Fraction

/-- The exact value of a decimal fraction. -/
def toRat (d : Fraction) : ℚ := d.digits * 10 ^ d.exponent

theorem ten_zpow_pos (p : Int) : (0 : ℚ) < 10 ^ p := zpow_pos (by norm_num) p

/-- Moving zeros into the exponent keeps the value. -/
theorem toRat_stripZeros (n : Nat) (d : Fraction) : (stripZeros n d).toRat = d.toRat := by
  -- The decimal is generalized, since every round divides it.
  induction n generalizing d with
  | zero => rfl
  | succ n ih =>
    rw [stripZeros]
    split
    · next hdigit =>
      simp only [Bool.and_eq_true, bne_iff_ne, beq_iff_eq] at hdigit
      rw [ih]
      have hdigits : (d.digits : ℚ) = (d.digits / 10 : Nat) * 10 := by
        exact_mod_cast (Nat.div_mul_cancel (Nat.dvd_of_mod_eq_zero hdigit.2)).symm
      rw [toRat, toRat, hdigits, zpow_add_one₀ (by norm_num)]
      ring
    · rfl

end Fraction

/-! ## The exact test -/

namespace Binary

variable {b : Binary} {p : Int} {k : Nat}

theorem pow_toNat {a : ℚ} (ha : a ≠ 0) (z : Int) : a ^ z.toNat = a ^ z * a ^ (-z).toNat := by
  rw [← zpow_natCast, ← zpow_natCast, ← zpow_add₀ ha]
  congr 1
  omega

/-- The two units are a power of ten and a quarter of the double in one measure. -/
theorem exists_measure (b : Binary) (p : Int) : ∃ c : ℚ, 0 < c ∧
    ((b.commonUnits p).1 : ℚ) = 10 ^ p * c ∧
    ((b.commonUnits p).2 : ℚ) = 2 ^ (b.exponent - 2) * c := by
  have hten := pow_toNat (a := 10) (by norm_num) p
  have htwo := pow_toNat (a := 2) (by norm_num) (b.exponent - 2)
  -- The common factor makes both units whole: each denominator is multiplied into the other one.
  refine ⟨10 ^ (-p).toNat * 2 ^ (-(b.exponent - 2)).toNat, by positivity, ?_, ?_⟩
  · change ((10 ^ p.toNat <<< (-(b.exponent - 2)).toNat : Nat) : ℚ) = _
    rw [Nat.shiftLeft_eq]
    push_cast
    rw [hten]
    ring
  · change ((10 ^ (-p).toNat <<< (b.exponent - 2).toNat : Nat) : ℚ) = _
    rw [Nat.shiftLeft_eq]
    push_cast
    rw [htwo]
    ring

/-- A decimal passes the test when it lies in the rounding interval. -/
theorem readsBack_iff : b.readsBack p k = true ↔ b.Attracts (k * 10 ^ p) := by
  obtain ⟨c, hc, hunit, hquarter⟩ := b.exists_measure p
  unfold readsBack Attracts
  generalize b.commonUnits p = units at hunit hquarter
  obtain ⟨unit, quarter⟩ := units
  dsimp only at hunit hquarter ⊢
  -- Both sides of each comparison are measured in `c`.
  have hle : ∀ n : Nat, (n * quarter ≤ k * unit ↔ value n (b.exponent - 2) ≤ k * 10 ^ p) ∧
      (k * unit ≤ n * quarter ↔ (k * 10 ^ p : ℚ) ≤ value n (b.exponent - 2)) := by
    intro n
    have hleft : ((n * quarter : Nat) : ℚ) = value n (b.exponent - 2) * c := by
      rw [Nat.cast_mul, hquarter, value, mul_assoc]
    have hright : ((k * unit : Nat) : ℚ) = k * 10 ^ p * c := by
      rw [Nat.cast_mul, hunit, mul_assoc]
    rw [← Nat.cast_le (α := ℚ), ← Nat.cast_le (α := ℚ), hleft, hright,
      mul_le_mul_iff_left₀ hc, mul_le_mul_iff_left₀ hc]
    exact ⟨Iff.rfl, Iff.rfl⟩
  split
  · simp only [Bool.and_eq_true, decide_eq_true_eq, (hle _).1, (hle _).2]
  · simp only [Bool.and_eq_true, decide_eq_true_eq, ← not_le, (hle _).1, (hle _).2]

/-! ## The search -/

/-- What the search finds on a grid lies in the interval. -/
theorem attracts_of_nearestOn (h : b.nearestOn p = some k) : b.Attracts (k * 10 ^ p) := by
  rw [← readsBack_iff]
  unfold nearestOn at h
  dsimp only at h
  split at h
  · -- Both neighbours read back, and either is chosen; else it is the only one that does.
    next hbelow habove =>
    split at h <;> cases h
    · exact hbelow
    · exact habove
  · next hbelow _ =>
    cases h
    exact hbelow
  · next _ habove =>
    cases h
    exact habove
  · cases h

theorem lowerQuarters_lt (hb : 0 < b.significand) : b.lowerQuarters < 4 * b.significand := by
  unfold lowerQuarters quarters
  split <;> omega

/-- A grid as fine as a quarter of the last place has a point in the interval. -/
theorem exists_nearestOn (hb : 0 < b.significand) (hp : (10 : ℚ) ^ p ≤ 2 ^ (b.exponent - 2)) :
    ∃ k, b.nearestOn p = some k := by
  obtain ⟨c, hc, hunit, hquarter⟩ := b.exists_measure p
  have hpos : 0 < (b.commonUnits p).1 := by
    have : (0 : ℚ) < (b.commonUnits p).1 := hunit ▸ mul_pos (Fraction.ten_zpow_pos p) hc
    exact_mod_cast this
  have hvalue : ((b.quarters * (b.commonUnits p).2 : Nat) : ℚ) =
      value b.quarters (b.exponent - 2) * c := by
    rw [Nat.cast_mul, hquarter, value, mul_assoc]
  have hbelow := Nat.div_mul_le_self (b.quarters * (b.commonUnits p).2) (b.commonUnits p).1
  have habove := Nat.lt_mul_div_succ (b.quarters * (b.commonUnits p).2) hpos
  have hreads : b.readsBack p (b.quarters * (b.commonUnits p).2 / (b.commonUnits p).1) = true := by
    generalize b.quarters * (b.commonUnits p).2 / (b.commonUnits p).1 = below at hbelow habove ⊢
    -- The point below the value is less than a quarter away from it.
    rw [← Nat.cast_le (α := ℚ), hvalue, Nat.cast_mul, hunit, ← mul_assoc,
      mul_le_mul_iff_left₀ hc] at hbelow
    rw [← Nat.cast_lt (α := ℚ), hvalue, Nat.cast_mul, hunit, mul_right_comm,
      mul_lt_mul_iff_left₀ hc, Nat.cast_add, Nat.cast_one] at habove
    rw [readsBack_iff]
    refine attracts_of_lt ?_ (hbelow.trans_lt (value_lt_value.2 (Nat.lt_add_of_pos_right two_pos)))
    have hquarters : value b.lowerQuarters (b.exponent - 2) + 2 ^ (b.exponent - 2) ≤
        value b.quarters (b.exponent - 2) := by
      have hlt : b.lowerQuarters + 1 ≤ b.quarters := lowerQuarters_lt hb
      have hle := value_le_value (e := b.exponent - 2).2 hlt
      rw [value, Nat.cast_add, Nat.cast_one, add_mul, one_mul] at hle
      exact hle
    linarith
  unfold nearestOn
  dsimp only
  rw [hreads]
  split
  · split <;> exact ⟨_, rfl⟩
  · exact ⟨_, rfl⟩
  · next h _ => cases h
  · next h _ => cases h

/-- The last grid of a search is fine enough. -/
theorem attracts_firstHit (hb : 0 < b.significand) (n : Nat) (p : Int)
    (hp : (10 : ℚ) ^ (p - n) ≤ 2 ^ (b.exponent - 2)) : b.Attracts (b.firstHit n p).toRat := by
  -- The grid gets finer by one power of ten each round.
  induction n generalizing p with
  | zero =>
    rw [Nat.cast_zero, Int.sub_zero] at hp
    obtain ⟨k, hk⟩ := exists_nearestOn hb hp
    rw [firstHit, hk]
    exact attracts_of_nearestOn hk
  | succ n ih =>
    rw [firstHit]
    split
    · next k hk => exact attracts_of_nearestOn hk
    · refine ih (p - 1) ?_
      rwa [show p - 1 - (n : Int) = p - (n + 1 : Nat) by omega]

/-! ## The last grid -/

/-- Powers are compared through a power of both. -/
theorem ten_zpow_le_of_pow {t : Int} {k : Nat} (hk : k ≠ 0)
    (h : ((10 : ℚ) ^ k) ^ p ≤ 2 ^ (k * t)) : (10 : ℚ) ^ p ≤ 2 ^ t := by
  rw [← pow_le_pow_iff_left₀ (Fraction.ten_zpow_pos p).le (two_zpow_pos t).le hk]
  rwa [← zpow_natCast, ← zpow_natCast, ← zpow_mul, ← zpow_mul, mul_comm p, mul_comm t, zpow_mul,
    zpow_natCast]

theorem ten_zpow_le_of_nonneg {t : Int} (hp : 0 ≤ p) (h : 10 * p ≤ 3 * t) :
    (10 : ℚ) ^ p ≤ 2 ^ t := by
  -- `10 ^ 3` is less than `2 ^ 10`.
  refine ten_zpow_le_of_pow (k := 3) (by decide) ?_
  calc ((10 : ℚ) ^ 3) ^ p ≤ (2 ^ 10) ^ p := zpow_le_zpow_left₀ hp (by norm_num) (by norm_num)
    _ = 2 ^ (10 * p) := by rw [← zpow_natCast, ← zpow_mul]; norm_num
    _ ≤ 2 ^ ((3 : Nat) * t) := zpow_le_zpow_right₀ (by norm_num) (by omega)

theorem ten_zpow_le_of_nonpos {t : Int} (hp : p ≤ 0) (h : 93 * p ≤ 28 * t) :
    (10 : ℚ) ^ p ≤ 2 ^ t := by
  -- The powers are inverses of positive ones here, and `2 ^ 93` is less than `10 ^ 28`.
  refine ten_zpow_le_of_pow (k := 28) (by decide) ?_
  calc ((10 : ℚ) ^ 28) ^ p = (((10 : ℚ) ^ 28) ^ (-p))⁻¹ := by rw [zpow_neg, inv_inv]
    _ ≤ (((2 : ℚ) ^ 93) ^ (-p))⁻¹ :=
      inv_anti₀ (by positivity) (zpow_le_zpow_left₀ (by omega) (by norm_num) (by norm_num))
    _ = 2 ^ (93 * p) := by rw [zpow_neg, inv_inv, ← zpow_natCast, ← zpow_mul]; norm_num
    _ ≤ 2 ^ ((28 : Nat) * t) := zpow_le_zpow_right₀ (by norm_num) (by omega)

/-- Twenty grids below the coarsest one the points are less than a quarter of the last place
apart. -/
theorem last_grid (hb : Canonical b.significand b.exponent) (he : b.exponent ≤ 971) :
    (10 : ℚ) ^ (b.coarsestGrid - gridCount) ≤ 2 ^ (b.exponent - 2) := by
  have hlog : b.significand.log2 ≤ 52 := by
    rcases Nat.eq_zero_or_pos b.significand with hzero | hpos
    · rw [hzero, Nat.log2_zero]
      exact Nat.zero_le _
    · exact Nat.lt_succ_iff.1 ((Nat.log2_lt hpos.ne').2 hb.lt)
  have hcount : (gridCount : Int) = 20 := rfl
  have hlowest := hb.lowest
  rw [coarsestGrid, hcount]
  -- `30103 / 100000` is a little more than the logarithm of two; twenty grids outweigh the error
  -- over the whole range of exponents.
  rcases le_total 0 (((b.significand.log2 : Int) + b.exponent + 1) * 30103 / 100000 + 1 - 20) with
    hp | hp
  · exact ten_zpow_le_of_nonneg hp (by omega)
  · exact ten_zpow_le_of_nonpos hp (by omega)

/-- The shortest decimal lies in the rounding interval of the double. -/
theorem attracts_shortest (hpos : 0 < b.significand) (hb : Canonical b.significand b.exponent)
    (he : b.exponent ≤ 971) : b.Attracts b.shortest.toRat := by
  rw [shortest, if_neg (by simp [hpos.ne']), Fraction.toRat_stripZeros]
  exact attracts_firstHit hpos gridCount b.coarsestGrid (last_grid hb he)

end Binary

end CoordTransform.Decimal
