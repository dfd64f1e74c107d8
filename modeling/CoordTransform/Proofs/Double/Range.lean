import Mathlib
import CoordTransform.Proofs.Double.Magnitude

/-!
# The Range of Doubles

A finite double is a rational number, and the operations round the exact results for the numbers
that their operands are. So a result is finite exactly when the exact one is below `overflow`, and
it is exact when the exact one is a double. Operands that are not finite give no finite result,
except as a divisor.
-/

namespace CoordTransform.Double

open Float.Model (Format UnpackedFloat)
open Float.Model.UnpackedFloat (Sign)

/-! ## Rational values -/

/-- A magnitude with a sign. -/
def withSign : Sign → ℚ → ℚ
  | .positive, q => q
  | .negative, q => -q

/-- The number that a finite double is. -/
def rational? (x : Float) : Option ℚ := (magnitude? x).map fun p => withSign p.1 p.2

variable {x y : Float} {s t : Sign} {p q r : ℚ}

theorem abs_withSign (s : Sign) (hq : 0 ≤ q) : |withSign s q| = q := by
  cases s with
  | positive => exact abs_of_nonneg hq
  | negative => rw [withSign, abs_neg, abs_of_nonneg hq]

theorem withSign_zero (s : Sign) : withSign s 0 = 0 := by
  cases s with
  | positive => rfl
  | negative => exact neg_zero

theorem withSign_neg (s : Sign) (q : ℚ) : withSign (-s) q = -withSign s q := by
  cases s with
  | positive => rfl
  | negative => exact (neg_neg q).symm

theorem withSign_mul (s t : Sign) (p q : ℚ) :
    withSign (s * t) (p * q) = withSign s p * withSign t q := by
  cases s with
  | positive =>
    cases t with
    | positive => rfl
    | negative => exact (mul_neg p q).symm
  | negative =>
    cases t with
    | positive => exact (neg_mul p q).symm
    | negative => exact (neg_mul_neg p q).symm

theorem withSign_div (s t : Sign) (p q : ℚ) :
    withSign (s / t) (p / q) = withSign s p / withSign t q := by
  cases s with
  | positive =>
    cases t with
    | positive => rfl
    | negative => exact (div_neg p).symm
  | negative =>
    cases t with
    | positive => exact (neg_div q p).symm
    | negative => exact (neg_div_neg_eq p q).symm

theorem rational?_eq_some_iff :
    rational? x = some p ↔ ∃ s q, magnitude? x = some (s, q) ∧ withSign s q = p := by
  unfold rational?
  rw [Option.map_eq_some_iff]
  exact Prod.exists

theorem rational?_isSome : (rational? x).isSome = x.isFinite := by
  unfold rational?
  rw [Option.isSome_map, magnitude?_isSome]

theorem exists_rational (h : x.isFinite = true) : ∃ p, rational? x = some p :=
  Option.isSome_iff_exists.1 (rational?_isSome.trans h)

theorem isFinite_of_rational (h : rational? x = some p) : x.isFinite = true := by
  rw [← rational?_isSome, h]
  rfl

/-- The parts of a double by the number that it is. -/
theorem parts_of_rational (h : rational? x = some p) :
    (∃ s, unpack x = .zero s ∧ p = 0) ∨
      ∃ s m e hm, unpack x = .finite s m e hm ∧ p = withSign s (value m e) := by
  obtain ⟨s, q, hq, rfl⟩ := rational?_eq_some_iff.1 h
  obtain ⟨hparts, rfl⟩ | ⟨m, e, hm, hparts, rfl⟩ := magnitude?_eq_some_iff.1 hq
  · exact .inl ⟨s, hparts, withSign_zero s⟩
  · exact .inr ⟨s, m, e, hm, hparts, rfl⟩

theorem rational?_of_unpack {m : Nat} {e : Int} {hm : 0 < m}
    (h : unpack x = .finite s m e hm) (hvalue : withSign s (value m e) = p) :
    rational? x = some p :=
  rational?_eq_some_iff.2 ⟨s, _, magnitude?_eq_some_iff.2 (.inr ⟨m, e, hm, h, rfl⟩), hvalue⟩

theorem withSign_value_ne_zero (s : Sign) {m : Nat} (hm : 0 < m) (e : Int) :
    withSign s (value m e) ≠ 0 := by
  have hvalue := value_pos hm e
  rw [ne_eq, ← abs_eq_zero, abs_withSign s hvalue.le]
  exact hvalue.ne'

/-- A double is zero, of either sign, when its number is. -/
theorem beq_zero_iff_rational (h : rational? x = some p) : (x == 0) = true ↔ p = 0 := by
  rw [beq_zero_iff]
  obtain ⟨s, hparts, rfl⟩ | ⟨s, m, e, hm, hparts, rfl⟩ := parts_of_rational h
  · exact iff_of_true ⟨s, hparts⟩ rfl
  · simp [hparts, withSign_value_ne_zero s hm e]

theorem unpack_neg (x : Float) : unpack (-x) = (unpack x).neg := by
  change unpack (pack (unpack x).neg) = _
  cases hparts : unpack x with
  | notANumber => rfl
  | infinity s => exact unpack_pack_infinity (-s)
  | zero s => exact unpack_pack_zero (-s)
  | finite s m e hm =>
    obtain ⟨hcanonical, he⟩ := canonical_of_unpack hparts
    exact (unpack_pack_finite (-s) hm hcanonical).trans (if_pos he)

theorem rational?_neg (h : rational? x = some p) : rational? (-x) = some (-p) := by
  obtain ⟨s, q, hq, rfl⟩ := rational?_eq_some_iff.1 h
  exact rational?_eq_some_iff.2 ⟨-s, q, magnitude?_neg hq, withSign_neg s q⟩

theorem isFinite_neg (x : Float) : (-x).isFinite = x.isFinite := by
  change (unpack (-x)).isFinite = (unpack x).isFinite
  rw [unpack_neg]
  cases unpack x <;> rfl

/-! ## Rounded numbers -/

/-- The double that a number is rounded to, which is infinite from `overflow` on. -/
def IsRounded (x : Float) (r : ℚ) : Prop :=
  ∃ s m e, withSign s |r| = r ∧ Rounds |r| m e ∧ x = pack (signed s m e)

theorem IsRounded.of_withSign {m : Nat} {e : Int} (s : Sign) (hq : 0 ≤ q) (h : Rounds q m e) :
    IsRounded (pack (signed s m e)) (withSign s q) := by
  refine ⟨s, m, e, ?_, ?_, rfl⟩
  · rw [abs_withSign s hq]
  · rwa [abs_withSign s hq]

/-- A rounded number is finite when it is below `overflow`. -/
theorem IsRounded.isFinite_iff (h : IsRounded x r) : x.isFinite = true ↔ |r| < overflow := by
  obtain ⟨s, m, e, -, hrounds, rfl⟩ := h
  rw [← hrounds.range]
  change (unpack _).isFinite = true ↔ _
  rw [unpack_pack_signed s hrounds.canonical]
  split
  · next hm =>
    -- Zero has the lowest exponent.
    have hlowest := hrounds.canonical.full
    exact iff_of_true rfl (by omega)
  · next hm =>
    rw [signed_of_pos s (Nat.pos_of_ne_zero hm)]
    split
    · next he => exact iff_of_true rfl he
    · next he => exact iff_of_false Bool.false_ne_true he

/-- A number that is a double is not rounded. -/
theorem IsRounded.rational? (h : IsRounded x r) (hr : IsMagnitude |r|) :
    rational? x = some r := by
  obtain ⟨s, m, e, hsign, hrounds, rfl⟩ := h
  exact rational?_eq_some_iff.2 ⟨s, |r|, hrounds.magnitude? hr s, hsign⟩

theorem rounds_value {m : Nat} {e : Int} (h : Canonical m e) (he : e ≤ 971) :
    Rounds (value m e) m e := by
  refine ⟨h, fun _ hle => hle, fun _ hge => hge, iff_of_true he ?_⟩
  have hlt := h.lt
  calc value m e ≤ value m 971 := value_le_of_exponent_le m he
    _ = value (m * 2) 970 := value_eq_of_le m (show (970 : Int) ≤ 971 by decide)
    _ < overflow := value_lt_value.2 (by omega)

/-- Finite doubles do not overflow. -/
theorem abs_lt_overflow (h : Double.rational? x = some p) : |p| < overflow := by
  obtain ⟨s, -, rfl⟩ | ⟨s, m, e, hm, hparts, rfl⟩ := parts_of_rational h
  · rw [abs_zero]
    exact value_pos (by decide) _
  · obtain ⟨hcanonical, he⟩ := canonical_of_unpack hparts
    rw [abs_withSign s (value_pos hm e).le]
    exact (rounds_value hcanonical he).range.1 he

/-- A finite double is its own rounding. -/
theorem isRounded_finite {m : Nat} {e : Int} {hm : 0 < m} (h : unpack x = .finite s m e hm) :
    IsRounded (pack (.finite s m e hm)) (withSign s (value m e)) := by
  obtain ⟨hcanonical, he⟩ := canonical_of_unpack h
  rw [← signed_of_pos s hm]
  exact .of_withSign s (value_pos hm e).le (rounds_value hcanonical he)

theorem isRounded_zero (s : Sign) : IsRounded (pack (.zero s)) 0 := by
  have hzero : Rounds (value 0 (-1074)) 0 (-1074) :=
    rounds_value ⟨by decide, le_refl _, .inr rfl⟩ (by decide)
  rw [value, Nat.cast_zero, zero_mul] at hzero
  have hrounded := IsRounded.of_withSign s (le_refl 0) hzero
  rwa [withSign_zero] at hrounded

/-! ## Operations on finite doubles -/

theorem isRounded_mul (hx : rational? x = some p) (hy : rational? y = some q) :
    IsRounded (x * y) (p * q) := by
  rw [mul_eq_pack]
  obtain ⟨s, hparts, rfl⟩ | ⟨s, m, e, hm, hparts, rfl⟩ := parts_of_rational hx <;>
    obtain ⟨t, hparts', rfl⟩ | ⟨t, n, f, hn, hparts', rfl⟩ := parts_of_rational hy <;>
    rw [hparts, hparts']
  · -- A product with a zero is a zero, whose sign does not matter here.
    rw [zero_mul]
    exact isRounded_zero (s * t)
  · rw [zero_mul]
    exact isRounded_zero (s * t)
  · rw [mul_zero]
    exact isRounded_zero (s * t)
  · obtain ⟨k, g, hrounds, hmul⟩ := mul_rounds s t hm hn (canonical_of_unpack hparts).1
      (canonical_of_unpack hparts').1
    rw [hmul, ← withSign_mul]
    exact .of_withSign _ (mul_pos (value_pos hm e) (value_pos hn f)).le hrounds

theorem isRounded_div (hx : rational? x = some p) (hy : rational? y = some q) (hq : q ≠ 0) :
    IsRounded (x / y) (p / q) := by
  rw [div_eq_pack]
  -- The divisor is not zero; a dividend of zero gives a zero.
  obtain ⟨t, -, rfl⟩ | ⟨t, n, f, hn, hparts', rfl⟩ := parts_of_rational hy
  · exact absurd rfl hq
  obtain ⟨s, hparts, rfl⟩ | ⟨s, m, e, hm, hparts, rfl⟩ := parts_of_rational hx <;>
    rw [hparts, hparts']
  · rw [zero_div]
    exact isRounded_zero (s / t)
  · obtain ⟨k, g, hrounds, hdiv⟩ := div_rounds s t e f hm hn
    rw [hdiv, ← withSign_div]
    exact .of_withSign _ (div_pos (value_pos hm e) (value_pos hn f)).le hrounds

theorem isRounded_normalize (d e : Int) :
    IsRounded (pack (UnpackedFloat.normalize Format.binary64 d e .positive)) (d * 2 ^ e) := by
  -- A negative sum is normalized as its magnitude with the other sign.
  rcases lt_trichotomy d 0 with hd | rfl | hd
  · obtain ⟨n, hn⟩ := Int.eq_ofNat_of_zero_le (Int.neg_nonneg_of_nonpos hd.le)
    obtain rfl : d = -n := by omega
    obtain ⟨m, f, hrounds, hround⟩ := round_rounds .negative (show 0 < n by omega) e
    rw [normalize_neg_natCast (by omega), hround, Int.cast_neg, neg_mul]
    exact .of_withSign .negative (value_pos (by omega) e).le hrounds
  · rw [Int.cast_zero, zero_mul]
    exact isRounded_zero .positive
  · obtain ⟨n, rfl⟩ := Int.eq_ofNat_of_zero_le hd.le
    obtain ⟨m, f, hrounds, hround⟩ := round_rounds .positive (show 0 < n by omega) e
    rw [normalize_natCast (by omega), hround]
    exact .of_withSign .positive (value_pos (by omega) e).le hrounds

/-- A significand with its sign, shifted to a lower exponent. -/
theorem apply_shiftLeft (s : Sign) (m : Nat) {e f : Int} (h : f ≤ e) :
    (s.apply (m <<< (e - f).toNat : Nat) : ℚ) * 2 ^ f = withSign s (value m e) := by
  have hvalue : ((m <<< (e - f).toNat : Nat) : ℚ) * 2 ^ f = value m e := by
    rw [value_eq_of_le m h, Nat.shiftLeft_eq, value]
  cases s with
  | positive => exact hvalue
  | negative => rw [Sign.apply, Int.cast_neg, neg_mul, Int.cast_natCast, hvalue, withSign]

theorem isRounded_add (hx : rational? x = some p) (hy : rational? y = some q) :
    IsRounded (x + y) (p + q) := by
  change IsRounded (pack (UnpackedFloat.add Format.binary64 (unpack x) (unpack y))) _
  obtain ⟨s, hparts, rfl⟩ | ⟨s, m, e, hm, hparts, rfl⟩ := parts_of_rational hx <;>
    obtain ⟨t, hparts', rfl⟩ | ⟨t, n, f, hn, hparts', rfl⟩ := parts_of_rational hy
  · rw [hparts, hparts', add_zero]
    cases s <;> cases t <;> exact isRounded_zero _
  · rw [hparts, hparts', zero_add]
    exact isRounded_finite hparts'
  · rw [hparts, hparts', add_zero]
    exact isRounded_finite hparts
  · -- Both significands are shifted to the lower exponent, where they are added exactly.
    have hsum := isRounded_normalize (s.apply (m <<< (e - min e f).toNat : Nat) +
      t.apply (n <<< (f - min e f).toNat : Nat)) (min e f)
    rw [Int.cast_add, add_mul, apply_shiftLeft s m (min_le_left e f),
      apply_shiftLeft t n (min_le_right e f)] at hsum
    rw [hparts, hparts']
    exact hsum

/-- Subtraction is the addition of the number with the other sign. -/
theorem sub_eq_add (x y : Float) : x - y = x + -y := by
  change pack (UnpackedFloat.sub Format.binary64 (unpack x) (unpack y)) =
    pack (UnpackedFloat.add Format.binary64 (unpack x) (unpack (-y)))
  rw [unpack_neg]
  -- Only the parts of two finite numbers are combined; all other cases are decided by their forms.
  cases unpack x with
  | finite s m e hm =>
    cases unpack y with
    | finite t n f hn =>
      cases t with
      | positive => rfl
      | negative =>
        simp only [UnpackedFloat.sub, UnpackedFloat.add, UnpackedFloat.neg, Sign.apply,
          sub_neg_eq_add]
    | _ => rfl
  | _ => cases unpack y <;> rfl

theorem isRounded_sub (hx : rational? x = some p) (hy : rational? y = some q) :
    IsRounded (x - y) (p - q) := by
  rw [sub_eq_add, sub_eq_add_neg]
  exact isRounded_add hx (rational?_neg hy)

/-! ## Finite results -/

theorem isFinite_of_pack {u : UnpackedFloat} (h : (pack u).isFinite = true) :
    u.isFinite = true := by
  cases u with
  | notANumber => exact h
  | infinity s => cases s <;> exact h
  | zero s => rfl
  | finite s m e hm => rfl

/-- The factors of a finite product are finite. -/
theorem isFinite_of_mul (h : (x * y).isFinite = true) : x.isFinite = true ∧ y.isFinite = true := by
  rw [mul_eq_pack] at h
  have hparts := isFinite_of_pack h
  change (unpack x).isFinite = true ∧ (unpack y).isFinite = true
  revert hparts
  cases unpack x <;> cases unpack y <;>
    simp [UnpackedFloat.mul, UnpackedFloat.isFinite]

/-- The terms of a finite sum are finite. -/
theorem isFinite_of_add (h : (x + y).isFinite = true) : x.isFinite = true ∧ y.isFinite = true := by
  change (pack (UnpackedFloat.add Format.binary64 (unpack x) (unpack y))).isFinite = true at h
  have hparts := isFinite_of_pack h
  change (unpack x).isFinite = true ∧ (unpack y).isFinite = true
  revert hparts
  cases unpack x with
  | infinity s =>
    cases unpack y with
    | infinity t => cases s <;> cases t <;> simp [UnpackedFloat.add, UnpackedFloat.isFinite]
    | _ => simp [UnpackedFloat.add, UnpackedFloat.isFinite]
  | _ => cases unpack y <;> simp [UnpackedFloat.add, UnpackedFloat.isFinite]

/-- A finite quotient by a finite number has a finite dividend and a divisor that is not zero. -/
theorem isFinite_of_div (h : (x / y).isFinite = true) (hy : rational? y = some q) :
    x.isFinite = true ∧ q ≠ 0 := by
  rw [div_eq_pack] at h
  have hparts := isFinite_of_pack h
  change (unpack x).isFinite = true ∧ _
  revert hparts
  -- Every quotient by zero is infinite or no number.
  obtain ⟨t, hparts', rfl⟩ | ⟨t, n, f, hn, hparts', rfl⟩ := parts_of_rational hy
  · rw [hparts']
    cases unpack x <;> simp [UnpackedFloat.div, UnpackedFloat.isFinite]
  · rw [hparts']
    cases unpack x <;>
      simp [UnpackedFloat.div, UnpackedFloat.isFinite, withSign_value_ne_zero t hn f]

/-- Finite factors whose exact product does not overflow. -/
def FitsProduct (x y : Float) : Prop :=
  ∃ p q, rational? x = some p ∧ rational? y = some q ∧ |p * q| < overflow

/-- A finite dividend and a finite divisor, which is not zero, whose exact quotient does not
overflow. -/
def FitsQuotient (x y : Float) : Prop :=
  ∃ p q, rational? x = some p ∧ rational? y = some q ∧ |p| < overflow * |q|

theorem isFinite_mul_iff : (x * y).isFinite = true ↔ FitsProduct x y := by
  constructor
  · intro h
    obtain ⟨hx, hy⟩ := isFinite_of_mul h
    obtain ⟨p, hp⟩ := exists_rational hx
    obtain ⟨q, hq⟩ := exists_rational hy
    exact ⟨p, q, hp, hq, (isRounded_mul hp hq).isFinite_iff.1 h⟩
  · rintro ⟨p, q, hp, hq, hlt⟩
    exact (isRounded_mul hp hq).isFinite_iff.2 hlt

theorem isFinite_div_iff (hy : y.isFinite = true) : (x / y).isFinite = true ↔ FitsQuotient x y := by
  obtain ⟨q, hq⟩ := exists_rational hy
  constructor
  · -- The quotient is the rounded exact one, and so finite when that is below the threshold.
    intro h
    obtain ⟨hx, hne⟩ := isFinite_of_div h hq
    obtain ⟨p, hp⟩ := exists_rational hx
    have hlt := (isRounded_div hp hq hne).isFinite_iff.1 h
    rw [abs_div, div_lt_iff₀ (abs_pos.2 hne)] at hlt
    exact ⟨p, q, hp, hq, hlt⟩
  · rintro ⟨p, q, hp, hq, hlt⟩
    -- A quotient of zero would not fit, since nothing is less than zero in magnitude.
    have hne : q ≠ 0 := by
      rintro rfl
      rw [abs_zero, mul_zero] at hlt
      exact absurd hlt (not_lt_of_ge (abs_nonneg p))
    rw [(isRounded_div hp hq hne).isFinite_iff, abs_div, div_lt_iff₀ (abs_pos.2 hne)]
    exact hlt

theorem FitsProduct.isFinite (h : FitsProduct x y) : x.isFinite = true ∧ y.isFinite = true :=
  isFinite_of_mul (isFinite_mul_iff.2 h)

theorem FitsQuotient.isFinite (h : FitsQuotient x y) : x.isFinite = true ∧ y.isFinite = true := by
  obtain ⟨p, q, hp, hq, -⟩ := h
  exact ⟨isFinite_of_rational hp, isFinite_of_rational hq⟩

/-- The terms of a finite difference are finite. -/
theorem isFinite_of_sub (h : (x - y).isFinite = true) : x.isFinite = true ∧ y.isFinite = true := by
  rw [sub_eq_add] at h
  obtain ⟨hx, hy⟩ := isFinite_of_add h
  exact ⟨hx, (isFinite_neg y).symm.trans hy⟩

end CoordTransform.Double
