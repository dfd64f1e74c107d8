import Mathlib
import CoordTransform.Proofs.Double.WholeNumbers

/-!
# Signs and Magnitudes of Doubles

A finite double is a sign and a magnitude, and nothing else tells two of them apart: zero has both
signs, every other magnitude belongs to one significand and one exponent. Differences and sums
that are magnitudes of doubles are computed without rounding.
-/

namespace CoordTransform.Double

open Float.Model (Format UnpackedFloat)
open Float.Model.UnpackedFloat (Sign unpackSign)

/-! ## Magnitudes -/

/-- The sign and the magnitude of a finite double. -/
def magnitude? (x : Float) : Option (Sign × ℚ) :=
  match unpack x with
  | .zero s => some (s, 0)
  | .finite s m e _ => some (s, value m e)
  | _ => none

/-- The magnitudes that finite doubles have. -/
def IsMagnitude (q : ℚ) : Prop := ∃ m e, Canonical m e ∧ e ≤ 971 ∧ value m e = q

variable {x y : Float} {s : Sign} {p q : ℚ}

theorem magnitude?_eq_some_iff : magnitude? x = some (s, q) ↔
    (unpack x = .zero s ∧ q = 0) ∨ ∃ m e hm, unpack x = .finite s m e hm ∧ value m e = q := by
  unfold magnitude?
  cases unpack x with
  | notANumber => simp
  | infinity s => simp
  | zero s => simp [eq_comm]
  | finite s m e hm => simp [hm]

theorem magnitude?_isSome : (magnitude? x).isSome = x.isFinite := by
  change _ = (unpack x).isFinite
  unfold magnitude?
  cases unpack x <;> rfl

theorem exists_magnitude (h : x.isFinite = true) : ∃ s q, magnitude? x = some (s, q) := by
  obtain ⟨⟨s, q⟩, hq⟩ := Option.isSome_iff_exists.1 (magnitude?_isSome.trans h)
  exact ⟨s, q, hq⟩

theorem isFinite_of_magnitude (h : magnitude? x = some (s, q)) : x.isFinite = true := by
  rw [← magnitude?_isSome, h]
  rfl

theorem magnitude_nonneg (h : magnitude? x = some (s, q)) : 0 ≤ q := by
  obtain ⟨-, rfl⟩ | ⟨m, e, hm, -, rfl⟩ := magnitude?_eq_some_iff.1 h
  · exact le_refl _
  · exact (value_pos hm e).le

theorem unpack_inj (h : unpack x = unpack y) : x = y := by
  obtain ⟨⟨⟨bits⟩, valid⟩⟩ := x
  obtain ⟨⟨⟨bits'⟩, valid'⟩⟩ := y
  obtain rfl := (UnpackedFloat.unpack_inj_of_valid valid valid').1 h
  rfl

/-- A double is determined by its sign and its magnitude. -/
theorem magnitude?_inj (hx : magnitude? x = some (s, q)) (hy : magnitude? y = some (s, q)) :
    x = y := by
  refine unpack_inj ?_
  obtain ⟨hparts, rfl⟩ | ⟨m, e, hm, hparts, rfl⟩ := magnitude?_eq_some_iff.1 hx <;>
    obtain ⟨hparts', hq⟩ | ⟨n, f, hn, hparts', hq⟩ := magnitude?_eq_some_iff.1 hy
  · rw [hparts, hparts']
  · exact absurd hq (value_pos hn f).ne'
  · exact absurd hq (value_pos hm e).ne'
  · obtain ⟨rfl, rfl⟩ :=
      value_inj (canonical_of_unpack hparts').1 (canonical_of_unpack hparts).1 hq
    rw [hparts, hparts']

/-! ## Magnitudes of parts -/

theorem magnitude?_pack_zero (s : Sign) : magnitude? (pack (.zero s)) = some (s, 0) :=
  magnitude?_eq_some_iff.2 (.inl ⟨unpack_pack_zero s, rfl⟩)

theorem magnitude?_pack_signed (s : Sign) {m : Nat} {e : Int} (h : Canonical m e)
    (he : e ≤ 971) : magnitude? (pack (signed s m e)) = some (s, value m e) := by
  have hunpack := unpack_pack_signed s h
  rw [if_pos he] at hunpack
  rw [magnitude?_eq_some_iff]
  -- A significand of zero is the other form of a magnitude.
  split at hunpack
  · next hm =>
    rw [hm, value, Nat.cast_zero, zero_mul] at *
    exact .inl ⟨hunpack, rfl⟩
  · next hm =>
    rw [signed_of_pos s (Nat.pos_of_ne_zero hm)] at *
    exact .inr ⟨m, e, Nat.pos_of_ne_zero hm, hunpack, rfl⟩

theorem magnitude?_pack_finite (s : Sign) {m : Nat} {e : Int} (hm : 0 < m) (h : Canonical m e)
    (he : e ≤ 971) : magnitude? (pack (.finite s m e hm)) = some (s, value m e) := by
  rw [← signed_of_pos s hm]
  exact magnitude?_pack_signed s h he

theorem isMagnitude_value {m : Nat} {e : Int} (hm : m < 2 ^ 53) (hlow : -1074 ≤ e)
    (hhigh : e ≤ 971) : IsMagnitude (value m e) := by
  obtain ⟨n, f, hcanonical, hle, heq⟩ := exists_canonical hm hlow
  exact ⟨n, f, hcanonical, by omega, heq⟩

theorem isMagnitude_natCast {n : Nat} (hn : n < 2 ^ 53) : IsMagnitude n :=
  value_zero_exponent n ▸ isMagnitude_value hn (by decide) (by decide)

/-- What is a magnitude of a double is not rounded. -/
theorem Rounds.value_eq {m : Nat} {e : Int} (h : Rounds q m e) (hq : IsMagnitude q) :
    e ≤ 971 ∧ value m e = q := by
  obtain ⟨n, f, hcanonical, hf, rfl⟩ := hq
  obtain ⟨rfl, rfl⟩ := h.eq_of_canonical hcanonical
  exact ⟨hf, rfl⟩

theorem Rounds.magnitude? {m : Nat} {e : Int} (h : Rounds q m e) (hq : IsMagnitude q) (s : Sign) :
    magnitude? (pack (signed s m e)) = some (s, q) := by
  obtain ⟨he, rfl⟩ := h.value_eq hq
  exact magnitude?_pack_signed s h.canonical he

/-! ## Counts -/

theorem magnitude?_ofNat {n : Nat} (hpos : 0 < n) (hn : n < 2 ^ 53) :
    magnitude? (Float.ofNat n) = some (.positive, (n : ℚ)) := by
  obtain ⟨m, e, hm, hparts, -, hvalue⟩ := unpack_ofNat hpos hn
  exact magnitude?_eq_some_iff.2 (.inr ⟨m, e, hm, hparts, hvalue⟩)

/-- The only double that is recognised as a count is the count. -/
theorem toNat?_eq_some_iff_eq_ofNat {n : Nat} (hpos : 0 < n) (hn : n < 2 ^ 53) :
    toNat? x = some n ↔ x = Float.ofNat n := by
  rw [toNat?_eq_some_iff hpos]
  constructor
  · rintro ⟨m, e, hm, hparts, hvalue⟩
    have hx : magnitude? x = some (.positive, (n : ℚ)) :=
      magnitude?_eq_some_iff.2 (.inr ⟨m, e, hm, hparts, hvalue⟩)
    exact magnitude?_inj hx (magnitude?_ofNat hpos hn)
  · rintro rfl
    obtain ⟨m, e, hm, hparts, -, hvalue⟩ := unpack_ofNat hpos hn
    exact ⟨m, e, hm, hparts, hvalue⟩

/-! ## Signs -/

theorem unpack_abs (x : Float) : unpack x.abs = (unpack x).abs := by
  change unpack (pack (unpack x).abs) = _
  cases hparts : unpack x with
  | notANumber => rfl
  | infinity s => exact unpack_pack_infinity .positive
  | zero s => exact unpack_pack_zero .positive
  | finite s m e hm =>
    obtain ⟨hcanonical, he⟩ := canonical_of_unpack hparts
    exact (unpack_pack_finite .positive hm hcanonical).trans (if_pos he)

theorem magnitude?_abs (h : magnitude? x = some (s, q)) :
    magnitude? x.abs = some (.positive, q) := by
  rw [magnitude?_eq_some_iff, unpack_abs]
  obtain ⟨hparts, rfl⟩ | ⟨m, e, hm, hparts, rfl⟩ := magnitude?_eq_some_iff.1 h
  · rw [hparts]
    exact .inl ⟨rfl, rfl⟩
  · rw [hparts]
    exact .inr ⟨m, e, hm, rfl, rfl⟩

theorem magnitude?_neg (h : magnitude? x = some (s, q)) : magnitude? (-x) = some (-s, q) := by
  change magnitude? (pack (unpack x).neg) = _
  obtain ⟨hparts, rfl⟩ | ⟨m, e, hm, hparts, rfl⟩ := magnitude?_eq_some_iff.1 h
  · rw [hparts]
    exact magnitude?_pack_zero (-s)
  · have hcanonical := canonical_of_unpack hparts
    rw [hparts]
    exact magnitude?_pack_finite (-s) hm hcanonical.1 hcanonical.2

/-- The sign of a finite double is its first bit. -/
theorem sign_of_magnitude (h : magnitude? x = some (s, q)) :
    s = Sign.ofBitVec (@unpackSign Format.binary64 x.toBits.toBitVec) := by
  obtain ⟨hx, -⟩ | ⟨m, e, hm, hx, -⟩ := magnitude?_eq_some_iff.1 h
  · change UnpackedFloat.unpack Format.binary64 x.toBits.toBitVec = _ at hx
    unfold UnpackedFloat.unpack at hx
    dsimp only at hx
    split_ifs at hx
    cases hx
    rfl
  · exact (fields_of_unpack hx).1

theorem signBit_of_magnitude (h : magnitude? x = some (s, q)) :
    ((x.toBits.toNat >>> 63) % 2 == 1) = (s == .negative) := by
  have hsign := sign_of_magnitude h
  have hbit := toNat_unpackSign x.toBits.toBitVec
  change _ = (x.toBits.toNat >>> 63) % 2 at hbit
  rw [← hbit, hsign]
  generalize @unpackSign Format.binary64 x.toBits.toBitVec = b
  revert b
  decide

theorem magnitude?_withSignOf (hx : magnitude? x = some (s, q))
    (hy : magnitude? y = some (.positive, p)) : magnitude? (withSignOf x y) = some (s, p) := by
  rw [withSignOf, signBit_of_magnitude hx]
  cases s with
  | negative => exact magnitude?_neg hy
  | positive => exact hy

/-! ## Comparisons -/

theorem lt_iff_magnitude (hx : magnitude? x = some (.positive, p))
    (hy : magnitude? y = some (.positive, q)) : x < y ↔ p < q := by
  obtain ⟨hparts, rfl⟩ | ⟨m, e, hm, hparts, rfl⟩ := magnitude?_eq_some_iff.1 hx <;>
    obtain ⟨hparts', rfl⟩ | ⟨n, f, hn, hparts', rfl⟩ := magnitude?_eq_some_iff.1 hy
  · simp [lt_iff_compare, hparts, hparts', UnpackedFloat.compare]
  · simp [lt_iff_compare, hparts, hparts', UnpackedFloat.compare, value_pos hn f]
  · simp [lt_iff_compare, hparts, hparts', UnpackedFloat.compare, (value_pos hm e).le]
  · exact lt_iff_value hparts hparts'

theorem le_iff_magnitude (hx : magnitude? x = some (.positive, p))
    (hy : magnitude? y = some (.positive, q)) : x ≤ y ↔ p ≤ q := by
  obtain ⟨hparts, rfl⟩ | ⟨m, e, hm, hparts, rfl⟩ := magnitude?_eq_some_iff.1 hx <;>
    obtain ⟨hparts', rfl⟩ | ⟨n, f, hn, hparts', rfl⟩ := magnitude?_eq_some_iff.1 hy
  · simp [le_iff_compare, hparts, hparts', UnpackedFloat.compare]
  · simp [le_iff_compare, hparts, hparts', UnpackedFloat.compare, (value_pos hn f).le]
  · simp [le_iff_compare, hparts, hparts', UnpackedFloat.compare, value_pos hm e]
  · exact le_iff_value hparts hparts'

/-! ## Exact operations -/

/-- The difference of a double and itself is zero when it is finite, and undefined otherwise. -/
theorem unpack_sub_self (x : Float) :
    unpack (x - x) = if x.isFinite then .zero .positive else .notANumber := by
  change _ = if (unpack x).isFinite then _ else _
  rw [sub_eq_pack]
  cases unpack x with
  | notANumber => rfl
  | infinity s => cases s <;> rfl
  | zero s => cases s <;> rfl
  | finite s m e hm =>
    rw [sub_finite_self]
    rfl

/-- A difference that is a magnitude is not rounded. -/
theorem magnitude?_sub (hx : magnitude? x = some (.positive, p))
    (hy : magnitude? y = some (.positive, q)) (hle : q ≤ p) (h : IsMagnitude (p - q)) :
    magnitude? (x - y) = some (.positive, p - q) := by
  rw [sub_eq_pack]
  -- Either number is zero, or both are positive and the difference is rounded.
  obtain ⟨hparts', rfl⟩ | ⟨n, f, hn, hparts', rfl⟩ := magnitude?_eq_some_iff.1 hy <;>
    obtain ⟨hparts, rfl⟩ | ⟨m, e, hm, hparts, rfl⟩ := magnitude?_eq_some_iff.1 hx
  · rw [hparts, hparts', sub_zero]
    exact magnitude?_pack_zero .positive
  · have hcanonical := canonical_of_unpack hparts
    rw [hparts, hparts', sub_zero]
    exact magnitude?_pack_finite .positive hm hcanonical.1 hcanonical.2
  · exact absurd hle (not_le_of_gt (value_pos hn f))
  · have hcanonical := (canonical_of_unpack hparts).1
    have hcanonical' := (canonical_of_unpack hparts').1
    rw [hparts, hparts']
    rcases hle.lt_or_eq with hlt | heq
    · obtain ⟨⟨r, k, -, hrounds, hsub⟩, -⟩ :=
        sub_rounds hm hn hcanonical.lowest hcanonical'.lowest hlt
      rw [hsub]
      exact hrounds.magnitude? h .positive
    · -- The significands and the exponents agree, and nothing is left.
      obtain ⟨rfl, rfl⟩ := value_inj hcanonical' hcanonical heq
      rw [sub_finite_self, sub_self]
      exact magnitude?_pack_zero .positive

/-- The sum of positive doubles is the rounded sum of their values. -/
theorem add_rounds {m₁ m₂ : Nat} (hm₁ : 0 < m₁) (hm₂ : 0 < m₂) (e₁ e₂ : Int) :
    ∃ m e, Rounds (value m₁ e₁ + value m₂ e₂) m e ∧
      UnpackedFloat.add Format.binary64 (.finite .positive m₁ e₁ hm₁)
        (.finite .positive m₂ e₂ hm₂) = signed .positive m e := by
  -- Both significands are shifted to the lower exponent, where their sum is exact.
  obtain ⟨d, hd⟩ : ∃ d, m₁ <<< (e₁ - min e₁ e₂).toNat + m₂ <<< (e₂ - min e₁ e₂).toNat = d :=
    ⟨_, rfl⟩
  have hpos : 0 < d := by
    rw [← hd, Nat.shiftLeft_eq]
    positivity
  have hsum : value m₁ e₁ + value m₂ e₂ = value d (min e₁ e₂) := by
    rw [value_eq_of_le m₁ (min_le_left e₁ e₂), value_eq_of_le m₂ (min_le_right e₁ e₂),
      ← Nat.shiftLeft_eq, ← Nat.shiftLeft_eq, ← hd, value, value, value, Nat.cast_add]
    ring
  obtain ⟨m, e, hrounds, heq⟩ := round_rounds .positive hpos (min e₁ e₂)
  refine ⟨m, e, hsum ▸ hrounds, ?_⟩
  change UnpackedFloat.normalize _ (((m₁ <<< (e₁ - min e₁ e₂).toNat : Nat) : Int) +
    (m₂ <<< (e₂ - min e₁ e₂).toNat : Nat)) (min e₁ e₂) _ = _
  rw [← Nat.cast_add, hd, normalize_natCast hpos, heq]

/-- A sum that is a magnitude is not rounded. -/
theorem magnitude?_add (hx : magnitude? x = some (.positive, p))
    (hy : magnitude? y = some (.positive, q)) (h : IsMagnitude (p + q)) :
    magnitude? (x + y) = some (.positive, p + q) := by
  change magnitude? (pack (UnpackedFloat.add Format.binary64 (unpack x) (unpack y))) = _
  -- Either number is zero, or both are positive and the sum is rounded.
  obtain ⟨hparts, rfl⟩ | ⟨m, e, hm, hparts, rfl⟩ := magnitude?_eq_some_iff.1 hx <;>
    obtain ⟨hparts', rfl⟩ | ⟨n, f, hn, hparts', rfl⟩ := magnitude?_eq_some_iff.1 hy
  · rw [hparts, hparts', add_zero]
    exact magnitude?_pack_zero .positive
  · have hcanonical := canonical_of_unpack hparts'
    rw [hparts, hparts', zero_add]
    exact magnitude?_pack_finite .positive hn hcanonical.1 hcanonical.2
  · have hcanonical := canonical_of_unpack hparts
    rw [hparts, hparts', add_zero]
    exact magnitude?_pack_finite .positive hm hcanonical.1 hcanonical.2
  · obtain ⟨r, k, hrounds, hadd⟩ := add_rounds hm hn e f
    rw [hparts, hparts', hadd]
    exact hrounds.magnitude? h .positive

end CoordTransform.Double
