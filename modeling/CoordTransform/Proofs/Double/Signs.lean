import Mathlib
import CoordTransform.Proofs.Double.Rounding

/-!
# Signs of Rounded Results

What the operations of doubles say about the sign of their result, in spite of rounding: a
difference has the sign that the comparison of its operands has, and products and quotients have
the sign of their factors unless they are rounded to zero. The reciprocal of a positive number is
above one exactly when the number is below one.
-/

namespace CoordTransform.Double

open Float.Model (Format UnpackedFloat)
open Float.Model.UnpackedFloat (Sign)

/-! ## Comparisons of values -/

/-- Positive finite doubles are compared by their values. -/
theorem compare_eq_cmp {m n : Nat} {e f : Int} (hm : Canonical m e) (hn : Canonical n f) :
    (compare e f).then (compare m n) = cmp (value m e) (value n f) := by
  -- Canonical doubles are ordered by the exponent, and by the significand if that is equal.
  rcases lt_trichotomy e f with hlt | rfl | hlt
  · rw [Int.compare_eq_lt.2 hlt,
      (cmp_eq_lt_iff ..).2 (value_lt_of_exponent_lt hm.lt hn hm.lowest hlt)]
    rfl
  · rw [Int.compare_eq_eq.2 rfl, Ordering.eq_then]
    rcases lt_trichotomy m n with hlt | rfl | hlt
    · rw [Nat.compare_eq_lt.2 hlt, (cmp_eq_lt_iff ..).2 (value_lt_value.2 hlt)]
    · rw [Nat.compare_eq_eq.2 rfl, cmp_self_eq_eq]
    · rw [Nat.compare_eq_gt.2 hlt, (cmp_eq_gt_iff ..).2 (value_lt_value.2 hlt)]
  · rw [Int.compare_eq_gt.2 hlt,
      (cmp_eq_gt_iff ..).2 (value_lt_of_exponent_lt hn.lt hm hn.lowest hlt)]
    rfl

/-! ## Signs -/

/-- A double is positive when its parts are. -/
theorem pos_iff (x : Float) : 0 < x ↔
    unpack x = .infinity .positive ∨ ∃ m e hm, unpack x = .finite .positive m e hm := by
  rw [lt_iff_compare]
  change (UnpackedFloat.zero .positive).compare (unpack x) = _ ↔ _
  cases unpack x with
  | notANumber => simp [UnpackedFloat.compare]
  | infinity s => cases s <;> simp [UnpackedFloat.compare]
  | zero s => simp [UnpackedFloat.compare]
  | finite s m e hm => cases s <;> simp [UnpackedFloat.compare, hm]

/-- A double is negative when its parts are. -/
theorem neg_iff (x : Float) : x < 0 ↔
    unpack x = .infinity .negative ∨ ∃ m e hm, unpack x = .finite .negative m e hm := by
  rw [lt_iff_compare]
  change (unpack x).compare (UnpackedFloat.zero .positive) = _ ↔ _
  cases unpack x with
  | notANumber => simp [UnpackedFloat.compare]
  | infinity s => cases s <;> simp [UnpackedFloat.compare]
  | zero s => simp [UnpackedFloat.compare]
  | finite s m e hm => cases s <;> simp [UnpackedFloat.compare, hm]

theorem beq_zero_iff (x : Float) : (x == 0) = true ↔ ∃ s, unpack x = .zero s := by
  rw [beq_iff_compare]
  change (unpack x).compare (UnpackedFloat.zero .positive) = _ ↔ _
  cases unpack x with
  | notANumber => simp [UnpackedFloat.compare]
  | infinity s => cases s <;> simp [UnpackedFloat.compare]
  | zero s => simp [UnpackedFloat.compare]
  | finite s m e hm => cases s <;> simp [UnpackedFloat.compare]

theorem nonneg_iff (x : Float) : 0 ≤ x ↔ 0 < x ∨ (x == 0) = true := by
  rw [pos_iff, beq_zero_iff, le_iff_compare]
  change (∃ o, (UnpackedFloat.zero .positive).compare (unpack x) = _ ∧ _) ↔ _
  cases unpack x with
  | notANumber => simp [UnpackedFloat.compare]
  | infinity s => cases s <;> simp [UnpackedFloat.compare]
  | zero s => simp [UnpackedFloat.compare]
  | finite s m e hm => cases s <;> simp [UnpackedFloat.compare, hm]

/-- A number is positive, negative or zero. -/
theorem pos_of_not {x : Float} (hnumber : x.isNaN = false) (hneg : ¬ x < 0)
    (hzero : ¬ (x == 0) = true) : 0 < x := by
  change (unpack x).isNaN = false at hnumber
  rw [neg_iff] at hneg
  rw [beq_zero_iff] at hzero
  rw [pos_iff]
  -- What is neither zero nor negative nor no number is positive, finite or not.
  cases hparts : unpack x with
  | notANumber => rw [hparts] at hnumber; cases hnumber
  | zero s => exact absurd ⟨s, hparts⟩ hzero
  | infinity s =>
    cases s with
    | negative => exact absurd (.inl hparts) hneg
    | positive => exact .inl rfl
  | finite s m e hm =>
    cases s with
    | negative => exact absurd (.inr ⟨m, e, hm, hparts⟩) hneg
    | positive => exact .inr ⟨m, e, hm, rfl⟩

theorem isFinite_of_not {x : Float} (hnumber : x.isNaN = false) (hinfinite : x.isInf = false) :
    x.isFinite = true := by
  change (unpack x).isNaN = false at hnumber
  change (unpack x).isInf = false at hinfinite
  change (unpack x).isFinite = true
  cases hparts : unpack x with
  | notANumber => rw [hparts] at hnumber; cases hnumber
  | infinity s => rw [hparts] at hinfinite; cases hinfinite
  | zero s => rfl
  | finite s m e hm => rfl

/-- Positive infinity is above one. -/
theorem one_le_of_isInf {x : Float} (hinfinite : x.isInf = true) (hneg : ¬ x < 0) : 1 ≤ x := by
  change (unpack x).isInf = true at hinfinite
  cases hparts : unpack x with
  | infinity s =>
    cases s with
    | negative => exact absurd ((neg_iff x).2 (.inl hparts)) hneg
    | positive =>
      rw [le_iff_compare, hparts]
      exact ⟨.lt, rfl, rfl⟩
  | notANumber => rw [hparts] at hinfinite; cases hinfinite
  | zero s => rw [hparts] at hinfinite; cases hinfinite
  | finite s m e hm => rw [hparts] at hinfinite; cases hinfinite

/-- What is not below a positive number is positive. -/
theorem pos_of_le {x y : Float} (hx : 0 < x) (h : x ≤ y) : 0 < y := by
  obtain ⟨o, hcompare, hle⟩ := (le_iff_compare x y).1 h
  rw [pos_iff]
  -- No number, a zero and negative numbers compare otherwise with a positive number.
  rcases (pos_iff x).1 hx with hparts | ⟨m, e, hm, hparts⟩ <;> rw [hparts] at hcompare <;>
  · cases hparts' : unpack y with
    | notANumber => rw [hparts'] at hcompare; cases hcompare
    | zero s => rw [hparts'] at hcompare; cases hcompare; cases hle
    | infinity s =>
      cases s with
      | negative => rw [hparts'] at hcompare; cases hcompare; cases hle
      | positive => exact .inl rfl
    | finite s n f hn =>
      cases s with
      | negative => rw [hparts'] at hcompare; cases hcompare; cases hle
      | positive => exact .inr ⟨n, f, hn, rfl⟩

theorem le_of_lt {x y : Float} (h : x < y) : x ≤ y :=
  (le_iff_compare x y).2 ⟨.lt, (lt_iff_compare x y).1 h, rfl⟩

/-- A number that is not positive is not below zero only if it is zero. -/
theorem nonneg_iff_of_nonpos {x : Float} (h : x < 0 ∨ (x == 0) = true) :
    0 ≤ x ↔ (x == 0) = true := by
  rw [nonneg_iff]
  refine or_iff_right_of_imp fun hpos => h.resolve_left fun hneg => ?_
  rcases (pos_iff x).1 hpos with hparts | ⟨m, e, hm, hparts⟩
  · rw [neg_iff, hparts] at hneg
    simp at hneg
  · rw [neg_iff, hparts] at hneg
    simp at hneg

/-! ## Positive finite doubles -/

/-- The parts of a positive finite double. -/
theorem finite_of_pos {x : Float} (hx : 0 < x) (hfinite : x.isFinite = true) :
    ∃ m e hm, unpack x = .finite .positive m e hm := by
  change (unpack x).isFinite = true at hfinite
  rcases (pos_iff x).1 hx with hinfinite | hparts
  · rw [hinfinite] at hfinite
    cases hfinite
  · exact hparts

/-- Positive finite doubles in the order of their values. -/
theorem lt_iff_value {x y : Float} {m n : Nat} {e f : Int} {hm : 0 < m} {hn : 0 < n}
    (hx : unpack x = .finite .positive m e hm) (hy : unpack y = .finite .positive n f hn) :
    x < y ↔ value m e < value n f := by
  rw [lt_iff_compare, hx, hy]
  change some _ = _ ↔ _
  rw [compare_eq_cmp (canonical_of_unpack hx).1 (canonical_of_unpack hy).1, Option.some.injEq,
    cmp_eq_lt_iff]

theorem le_iff_value {x y : Float} {m n : Nat} {e f : Int} {hm : 0 < m} {hn : 0 < n}
    (hx : unpack x = .finite .positive m e hm) (hy : unpack y = .finite .positive n f hn) :
    x ≤ y ↔ value m e ≤ value n f := by
  rw [le_iff_compare, hx, hy]
  change (∃ o, some _ = some o ∧ _) ↔ _
  rw [compare_eq_cmp (canonical_of_unpack hx).1 (canonical_of_unpack hy).1,
    ← (cmp_compares _ _).ne_gt]
  simp only [Option.some.injEq, exists_eq_left', Ordering.isLE_iff_ne_gt]

theorem le_self {x : Float} (hx : 0 < x) (hfinite : x.isFinite = true) : x ≤ x := by
  obtain ⟨m, e, hm, hparts⟩ := finite_of_pos hx hfinite
  exact (le_iff_value hparts hparts).2 (le_refl _)

/-- Of two positive finite doubles, one is not above the other or it is greater. -/
theorem not_le_iff_lt {x y : Float} (hx : 0 < x) (hxf : x.isFinite = true) (hy : 0 < y)
    (hyf : y.isFinite = true) : ¬ x ≤ y ↔ y < x := by
  obtain ⟨m, e, hm, hparts⟩ := finite_of_pos hx hxf
  obtain ⟨n, f, hn, hparts'⟩ := finite_of_pos hy hyf
  rw [le_iff_value hparts hparts', lt_iff_value hparts' hparts, not_le]

theorem lt_of_le_of_not_beq {x y : Float} (hx : 0 < x) (hxf : x.isFinite = true) (hy : 0 < y)
    (hyf : y.isFinite = true) (hle : x ≤ y) (hne : ¬ (y == x) = true) : x < y := by
  obtain ⟨m, e, hm, hparts⟩ := finite_of_pos hx hxf
  obtain ⟨n, f, hn, hparts'⟩ := finite_of_pos hy hyf
  have hcanonical := (canonical_of_unpack hparts).1
  have hcanonical' := (canonical_of_unpack hparts').1
  rw [lt_iff_value hparts hparts']
  refine lt_of_le_of_ne ((le_iff_value hparts hparts').1 hle) fun heq => hne ?_
  rw [beq_iff_compare, hparts, hparts']
  change some _ = _
  rw [compare_eq_cmp hcanonical' hcanonical, heq, cmp_self_eq_eq]

/-! ## Rounded parts as doubles -/

section

variable {m : Nat} {e : Int}

theorem signed_of_pos (s : Sign) (hm : 0 < m) : signed s m e = .finite s m e hm :=
  dif_neg hm.ne'

/-- The parts of a rounded result, which may have become infinite or zero. -/
theorem unpack_pack_signed (s : Sign) (h : Canonical m e) :
    unpack (pack (signed s m e)) =
      if m = 0 then .zero s else if e ≤ 971 then signed s m e else .infinity s := by
  unfold signed
  split
  · exact unpack_pack_zero s
  · exact unpack_pack_finite s _ h

theorem pack_signed_pos (h : Canonical m e) (hm : 0 < m) : 0 < pack (signed .positive m e) := by
  rw [pos_iff, unpack_pack_signed _ h, if_neg hm.ne']
  split
  · exact .inr ⟨m, e, hm, signed_of_pos _ hm⟩
  · exact .inl rfl

theorem pack_signed_neg (h : Canonical m e) (hm : 0 < m) : pack (signed .negative m e) < 0 := by
  rw [neg_iff, unpack_pack_signed _ h, if_neg hm.ne']
  split
  · exact .inr ⟨m, e, hm, signed_of_pos _ hm⟩
  · exact .inl rfl

theorem pack_zero (s : Sign) : (pack (.zero s) == 0) = true :=
  (beq_zero_iff _).2 ⟨s, unpack_pack_zero s⟩

theorem pack_signed_nonneg (h : Canonical m e) : 0 ≤ pack (signed .positive m e) := by
  rw [nonneg_iff]
  rcases Nat.eq_zero_or_pos m with rfl | hm
  · exact .inr (pack_zero .positive)
  · exact .inl (pack_signed_pos h hm)

theorem pack_signed_nonpos (h : Canonical m e) :
    pack (signed .negative m e) < 0 ∨ (pack (signed .negative m e) == 0) = true := by
  rcases Nat.eq_zero_or_pos m with rfl | hm
  · exact .inr (pack_zero .negative)
  · exact .inl (pack_signed_neg h hm)

end

/-! ## Operations -/

theorem sub_eq_pack (x y : Float) :
    x - y = pack (UnpackedFloat.sub Format.binary64 (unpack x) (unpack y)) := rfl

theorem mul_eq_pack (x y : Float) :
    x * y = pack (UnpackedFloat.mul Format.binary64 (unpack x) (unpack y)) := rfl

theorem div_eq_pack (x y : Float) :
    x / y = pack (UnpackedFloat.div Format.binary64 (unpack x) (unpack y)) := rfl

/-- A finite double minus itself is the positive zero. -/
theorem sub_finite_self {m : Nat} {e : Int} (s : Sign) (hm hm' : 0 < m) :
    UnpackedFloat.sub Format.binary64 (.finite s m e hm) (.finite s m e hm') =
      .zero .positive := by
  simp only [UnpackedFloat.sub, Int.sub_self, UnpackedFloat.normalize]
  rfl

variable {x y : Float}

theorem sub_pos_of_lt (hx : 0 < x) (hfinite : x.isFinite = true) (hy : 0 ≤ y) (h : y < x) :
    0 < x - y := by
  obtain ⟨m, e, hm, hparts⟩ := finite_of_pos hx hfinite
  have hcanonical := (canonical_of_unpack hparts).1
  rw [sub_eq_pack, hparts]
  -- A zero leaves the number as it is; an infinite one is not less than a finite number.
  rcases (nonneg_iff y).1 hy with hpos | hzero
  · rcases (pos_iff y).1 hpos with hinfinite | ⟨n, f, hn, hparts'⟩
    · rw [lt_iff_compare, hinfinite, hparts] at h
      cases h
    · have hlowest := (canonical_of_unpack hparts').1.lowest
      obtain ⟨⟨r, p, hr, hrounds, heq⟩, -⟩ := sub_rounds hm hn hcanonical.lowest hlowest
        ((lt_iff_value hparts' hparts).1 h)
      rw [hparts', heq]
      exact pack_signed_pos hrounds.canonical hr
  · obtain ⟨s, hparts'⟩ := (beq_zero_iff y).1 hzero
    rw [hparts']
    change 0 < pack (.finite .positive m e hm)
    rw [← signed_of_pos]
    exact pack_signed_pos hcanonical hm

theorem sub_neg_of_lt (hx : 0 < x) (hfinite : x.isFinite = true) (h : x < y) : x - y < 0 := by
  obtain ⟨m, e, hm, hparts⟩ := finite_of_pos hx hfinite
  have hcanonical := (canonical_of_unpack hparts).1
  rw [sub_eq_pack, hparts]
  -- Infinity is subtracted, or a greater finite number.
  rcases (pos_iff y).1 (pos_of_le hx (le_of_lt h)) with hinfinite | ⟨n, f, hn, hparts'⟩
  · rw [hinfinite]
    change pack (.infinity .negative) < 0
    exact (neg_iff _).2 (.inl (unpack_pack_infinity _))
  · have hlowest := (canonical_of_unpack hparts').1.lowest
    obtain ⟨-, r, p, hr, hrounds, heq⟩ := sub_rounds hn hm hlowest hcanonical.lowest
      ((lt_iff_value hparts hparts').1 h)
    rw [hparts', heq]
    exact pack_signed_neg hrounds.canonical hr

theorem sub_nonneg_of_le (hx : 0 < x) (hfinite : x.isFinite = true) (hy : 0 ≤ y) (h : y ≤ x) :
    0 ≤ x - y := by
  obtain ⟨o, hcompare, hle⟩ := (le_iff_compare y x).1 h
  cases o with
  | lt =>
    have hlt := (lt_iff_compare y x).2 hcompare
    exact (nonneg_iff _).2 (.inl (sub_pos_of_lt hx hfinite hy hlt))
  | gt => cases hle
  | eq =>
    -- Equal doubles that are not zero have the same parts.
    obtain ⟨m, e, hm, hparts⟩ := finite_of_pos hx hfinite
    rw [hparts] at hcompare
    rcases (nonneg_iff y).1 hy with hpos | hzero
    · rcases (pos_iff y).1 hpos with hinfinite | ⟨n, f, hn, hparts'⟩
      · rw [hinfinite] at hcompare
        cases hcompare
      · have hcanonical := (canonical_of_unpack hparts).1
        have hcanonical' := (canonical_of_unpack hparts').1
        rw [hparts'] at hcompare
        change some _ = _ at hcompare
        rw [compare_eq_cmp hcanonical' hcanonical, Option.some.injEq, cmp_eq_eq_iff] at hcompare
        obtain ⟨rfl, rfl⟩ := value_inj hcanonical' hcanonical hcompare
        rw [sub_eq_pack, hparts, hparts', sub_finite_self]
        exact (nonneg_iff _).2 (.inr (pack_zero _))
    · obtain ⟨s, hparts'⟩ := (beq_zero_iff y).1 hzero
      rw [hparts'] at hcompare
      cases hcompare

/-- A quotient of positive numbers is not negative. -/
theorem div_nonneg (hx : 0 < x) (hfinite : x.isFinite = true) (hy : 0 < y) : 0 ≤ x / y := by
  obtain ⟨m, e, hm, hparts⟩ := finite_of_pos hx hfinite
  rw [div_eq_pack, hparts]
  rcases (pos_iff y).1 hy with hinfinite | ⟨n, f, hn, hparts'⟩
  · rw [hinfinite]
    change 0 ≤ pack (.zero (.positive / .positive))
    exact (nonneg_iff _).2 (.inr (pack_zero _))
  · obtain ⟨r, p, hrounds, heq⟩ := div_rounds .positive .positive e f hm hn
    rw [hparts', heq]
    exact pack_signed_nonneg hrounds.canonical

/-- A quotient of a positive and a negative number is negative or rounded to zero. -/
theorem div_nonpos (hx : 0 < x) (hfinite : x.isFinite = true) (hy : y < 0) :
    x / y < 0 ∨ (x / y == 0) = true := by
  obtain ⟨m, e, hm, hparts⟩ := finite_of_pos hx hfinite
  rw [div_eq_pack, hparts]
  -- The quotient by negative infinity is a zero.
  rcases (neg_iff y).1 hy with hinfinite | ⟨n, f, hn, hparts'⟩
  · rw [hinfinite]
    change pack (.zero (.positive / .negative)) < 0 ∨
      (pack (.zero (.positive / .negative)) == 0) = true
    exact .inr (pack_zero _)
  · obtain ⟨r, p, hrounds, heq⟩ := div_rounds .positive .negative e f hm hn
    rw [hparts', heq]
    exact pack_signed_nonpos hrounds.canonical

theorem mul_nonneg (hx : 0 < x) (hfinite : x.isFinite = true) (hy : 0 ≤ y) : 0 ≤ x * y := by
  obtain ⟨m, e, hm, hparts⟩ := finite_of_pos hx hfinite
  rw [mul_eq_pack, hparts]
  rcases (nonneg_iff y).1 hy with hpos | hzero
  · -- Infinity times a positive number is infinite, a zero gives a zero, and the rest is rounded.
    rcases (pos_iff y).1 hpos with hinfinite | ⟨n, f, hn, hparts'⟩
    · rw [hinfinite]
      exact (nonneg_iff _).2 (.inl ((pos_iff _).2 (.inl (unpack_pack_infinity .positive))))
    · obtain ⟨r, p, hrounds, heq⟩ := mul_rounds .positive .positive hm hn
        (canonical_of_unpack hparts).1 (canonical_of_unpack hparts').1
      rw [hparts', heq]
      exact pack_signed_nonneg hrounds.canonical
  · obtain ⟨s, hparts'⟩ := (beq_zero_iff y).1 hzero
    rw [hparts']
    change 0 ≤ pack (.zero (.positive * s))
    exact (nonneg_iff _).2 (.inr (pack_zero _))

/-- A product of a positive and a negative number is negative or rounded to zero. -/
theorem mul_nonpos (hx : 0 < x) (hfinite : x.isFinite = true) (hy : y < 0) :
    x * y < 0 ∨ (x * y == 0) = true := by
  obtain ⟨m, e, hm, hparts⟩ := finite_of_pos hx hfinite
  rw [mul_eq_pack, hparts]
  rcases (neg_iff y).1 hy with hinfinite | ⟨n, f, hn, hparts'⟩
  · rw [hinfinite]
    exact .inl ((neg_iff _).2 (.inl (unpack_pack_infinity .negative)))
  · obtain ⟨r, p, hrounds, heq⟩ := mul_rounds .positive .negative hm hn
      (canonical_of_unpack hparts).1 (canonical_of_unpack hparts').1
    rw [hparts', heq]
    exact pack_signed_nonpos hrounds.canonical

/-! ## Reciprocals -/

theorem unpack_one : unpack 1 = .finite .positive (2 ^ 52) (-52) (by decide) := rfl

theorem value_one : value (2 ^ 52) (-52) = 1 := by
  norm_num [value]

theorem canonical_one : Canonical (2 ^ 52) (-52) := ⟨by decide, by decide, .inl (le_refl _)⟩

/-- Doubles with the exponent of one or a greater one are not below one. -/
theorem one_le_value {m : Nat} {e : Int} (h : Canonical m e) (he : -52 ≤ e) :
    value (2 ^ 52) (-52) ≤ value m e := by
  rcases he.lt_or_eq with hlt | rfl
  · exact (value_lt_of_exponent_lt canonical_one.lt h canonical_one.lowest hlt).le
  · exact value_le_value.2 (h.full.resolve_right (by decide))

/-- The greatest double below one has a reciprocal that is rounded up. -/
theorem one_lt_one_div_predecessor :
    (unpack 1).compare (unpack (pack (UnpackedFloat.div Format.binary64 (unpack 1)
      (.finite .positive (2 ^ 53 - 1) (-53) (by decide))))) = some .lt := by
  decide +kernel

/-- The reciprocal of a number below one is above one. -/
theorem one_lt_one_div (hpos : 0 < x) (h : x < 1) : 1 < 1 / x := by
  rcases (pos_iff x).1 hpos with hinfinite | ⟨m, e, hm, hparts⟩
  · rw [lt_iff_compare, hinfinite] at h
    cases h
  have hcanonical := (canonical_of_unpack hparts).1
  have hbelow := (lt_iff_value hparts unpack_one).1 h
  -- The last double below one is the only one whose reciprocal is computed.
  by_cases hlast : m = 2 ^ 53 - 1 ∧ e = -53
  · obtain ⟨rfl, rfl⟩ := hlast
    rw [lt_iff_compare, div_eq_pack, hparts]
    exact one_lt_one_div_predecessor
  · -- Two places below one, the exact reciprocal is at least the next double above one.
    have hlow : value m e ≤ value (2 ^ 53 - 2) (-53) := by
      rcases lt_trichotomy e (-53) with hlt | rfl | hgt
      · exact (value_lt_of_exponent_lt hcanonical.lt ⟨by decide, by decide, .inl (by decide)⟩
          hcanonical.lowest hlt).le
      · have := hcanonical.lt
        exact value_le_value.2 (by omega)
      · exact absurd hbelow (not_lt_of_ge (one_le_value hcanonical (by omega)))
    have hquotient : value (2 ^ 52 + 1) (-52) ≤ value (2 ^ 52) (-52) / value m e := by
      rw [value_one, le_div_iff₀ (value_pos hm e)]
      calc value (2 ^ 52 + 1) (-52) * value m e
          ≤ value (2 ^ 52 + 1) (-52) * value (2 ^ 53 - 2) (-53) :=
            mul_le_mul_of_nonneg_left hlow (value_pos (by decide) _).le
        _ ≤ 1 := by norm_num [value]
    obtain ⟨n, f, hrounds, heq⟩ := div_rounds .positive .positive (-52) e
      (show 0 < 2 ^ 52 by decide) hm
    have hnext : Canonical (2 ^ 52 + 1) (-52) := ⟨by decide, by decide, .inl (by decide)⟩
    have habove : value (2 ^ 52) (-52) < value n f :=
      (value_lt_value.2 (by decide)).trans_le (hrounds.ge hnext hquotient)
    have hn : n ≠ 0 := by
      rintro rfl
      rw [value, value, Nat.cast_zero, zero_mul] at habove
      exact absurd habove (not_lt_of_gt (value_pos (by decide) _))
    have hunpack : unpack (1 / x) =
        if f ≤ 971 then signed .positive n f else .infinity .positive := by
      rw [div_eq_pack, hparts, unpack_one, heq]
      exact (unpack_pack_signed _ hrounds.canonical).trans (if_neg hn)
    -- The rounded reciprocal is a double above one, or overflows.
    split at hunpack
    · rw [signed_of_pos _ (Nat.pos_of_ne_zero hn)] at hunpack
      exact (lt_iff_value unpack_one hunpack).2 habove
    · rw [lt_iff_compare, hunpack]
      rfl

/-- The reciprocal of a number that is not below one is not above one. -/
theorem one_div_le_one (h : 1 ≤ x) : 0 ≤ 1 / x ∧ 1 / x ≤ 1 := by
  have hzero : ∀ s, unpack (1 / x) = .zero s → 1 / x ≤ 1 := fun s hs => by
    rw [le_iff_compare, hs]
    exact ⟨.lt, rfl, rfl⟩
  have hpos : 0 < x := pos_of_le (by decide +kernel) h
  refine ⟨div_nonneg (by decide +kernel) (by decide +kernel) hpos, ?_⟩
  rcases (pos_iff x).1 hpos with hinfinite | ⟨m, e, hm, hparts⟩
  · refine hzero .positive ?_
    rw [div_eq_pack, hinfinite, unpack_one]
    exact unpack_pack_zero _
  · -- The exact reciprocal is at most one, and one is a double that rounding does not pass.
    have hvalue := (le_iff_value unpack_one hparts).1 h
    obtain ⟨n, f, hrounds, heq⟩ := div_rounds .positive .positive (-52) e
      (show 0 < 2 ^ 52 by decide) hm
    have hbelow : value n f ≤ value (2 ^ 52) (-52) := by
      refine hrounds.le canonical_one ?_
      rw [value_one] at hvalue ⊢
      exact (div_le_one (value_pos hm e)).2 hvalue
    have hrange : f ≤ 971 := by
      by_contra hrange
      exact absurd hbelow (not_le_of_gt (value_lt_of_exponent_lt canonical_one.lt hrounds.canonical
        canonical_one.lowest (by omega)))
    have hunpack : unpack (1 / x) = if n = 0 then .zero .positive else signed .positive n f := by
      rw [div_eq_pack, hparts, unpack_one, heq, unpack_pack_signed _ hrounds.canonical,
        if_pos hrange]
      rfl
    -- A reciprocal may be rounded to zero, which is below one, too.
    split at hunpack
    · exact hzero _ hunpack
    · next hn =>
      rw [signed_of_pos _ (Nat.pos_of_ne_zero hn)] at hunpack
      exact (le_iff_value hunpack unpack_one).2 hbelow

end CoordTransform.Double
