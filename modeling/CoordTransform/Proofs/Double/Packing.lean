import Mathlib

/-!
# The Parts of a Double

A double is a zero, an infinity, no number, or has a sign, a significand and an exponent. The
significand of a finite double is below `2 ^ 53` and as great as its exponent allows. Such parts
are packed and unpacked again without loss, unless the exponent is above `971`: then an infinity
takes their place.
-/

namespace CoordTransform.Double

open Float.Model (Format UnpackedFloat)
open Float.Model.UnpackedFloat (Sign unpackSign unpackExponent unpackMantissa packComponents)

/-! ## Parts -/

/-- The parts of a double. -/
def unpack (x : Float) : UnpackedFloat := x.toModel.unpack

/-- The double with the given parts. -/
def pack (u : UnpackedFloat) : Float := .ofModel (.pack u)

/-- The significand and the exponent of a finite double: the significand has 53 binary digits,
or fewer at the lowest exponent. -/
structure Canonical (m : Nat) (e : Int) : Prop where
  lt : m < 2 ^ 53
  lowest : -1074 ≤ e
  full : 2 ^ 52 ≤ m ∨ e = -1074

theorem toNat_append_one (m : BitVec 52) : (1#1 ++ m).toNat = 2 ^ 52 + m.toNat := by
  rw [BitVec.toNat_append, ← Nat.shiftLeft_add_eq_or_of_lt m.isLt]
  rfl

@[simp] theorem ofBitVec_toBitVec (s : Sign) : Sign.ofBitVec s.toBitVec = s := by
  cases s <;> rfl

@[simp] theorem unpackSign_packComponents (s : Sign) (e : BitVec 11) (m : BitVec 52) :
    unpackSign (packComponents Format.binary64 s e m) = s.toBitVec := by
  change (s.toBitVec ++ e ++ m).extractLsb' 63 1 = _
  rw [BitVec.extractLsb'_append_eq_of_le (by decide),
    BitVec.extractLsb'_append_eq_of_le (by decide)]
  cases s <;> rfl

theorem unpack_pack (u : UnpackedFloat) :
    unpack (pack u) = UnpackedFloat.unpack Format.binary64 (UnpackedFloat.pack Format.binary64 u) :=
  rfl

@[simp] theorem unpack_pack_infinity (s : Sign) : unpack (pack (.infinity s)) = .infinity s := by
  cases s <;> rfl

@[simp] theorem unpack_pack_zero (s : Sign) : unpack (pack (.zero s)) = .zero s := by
  cases s <;> rfl

/-- Unpacking reads the three fields that were packed, unless the exponent is the greatest. -/
theorem unpack_packComponents (s : Sign) {e : Nat} (he : e < 2047) {f : Nat} (hf : f < 2 ^ 52) :
    UnpackedFloat.unpack Format.binary64
        (packComponents Format.binary64 s (BitVec.ofNat 11 e) (BitVec.ofNat 52 f)) =
      if e = 0 then if h : f = 0 then .zero s else .finite s f (-1074) (Nat.pos_of_ne_zero h)
      else .finite s (2 ^ 52 + f) (e - 1075) (by omega) := by
  -- None of the fields loses a digit, and no exponent field is the greatest.
  have hexponent : (BitVec.ofNat 11 e).toNat = e := Nat.mod_eq_of_lt (by omega)
  have hmantissa : (BitVec.ofNat 52 f).toNat = f := Nat.mod_eq_of_lt hf
  have hfinite : BitVec.ofNat 11 e ≠ -1#11 := fun heq => by
    have hgreatest : e = 2047 := hexponent.symm.trans (congrArg BitVec.toNat heq)
    omega
  have hnormal : BitVec.ofNat 11 e = 0#11 ↔ e = 0 := by
    rw [← BitVec.toNat_inj, hexponent]
    rfl
  have hzero : BitVec.ofNat 52 f = 0#52 ↔ f = 0 := by
    rw [← BitVec.toNat_inj, hmantissa]
    rfl
  have hbias : (Format.binary64.exponentBias : Int) + Format.binary64.mantissaBitsWithoutImplicit =
      1075 := rfl
  unfold UnpackedFloat.unpack
  simp only [Float.Model.UnpackedFloat.unpackMantissa_packComponents,
    Float.Model.UnpackedFloat.unpackExponent_packComponents, unpackSign_packComponents,
    ofBitVec_toBitVec, hfinite, hnormal, hzero, toNat_append_one, hmantissa, hexponent, hbias,
    if_false]
  -- The exponent field is zero for zero and for subnormal doubles only.
  split_ifs with h h'
  · rfl
  · simp only [h]; rfl
  · rfl

/-- Canonical parts are unpacked as they were packed, unless the exponent is too great. -/
theorem unpack_pack_finite (s : Sign) {m : Nat} {e : Int} (hm : 0 < m) (h : Canonical m e) :
    unpack (pack (.finite s m e hm)) = if e ≤ 971 then .finite s m e hm else .infinity s := by
  obtain ⟨hlt, hlowest, hfull⟩ := h
  have hbiased : (e + (Format.binary64.exponentBias : Int) +
      Format.binary64.mantissaBitsWithoutImplicit).toNat = (e + 1075).toNat := by
    rw [Int.add_assoc]; rfl
  rw [unpack_pack]
  unfold UnpackedFloat.pack
  simp only [hbiased]
  change UnpackedFloat.unpack _ (if 2048 ≤ _ then _ else if m.log2 + 1 = 53 then _ else _) = _
  by_cases hrange : e ≤ 971
  · rw [if_neg (by omega), if_pos hrange]
    by_cases hnormal : 2 ^ 52 ≤ m
    · -- The highest digit of a normal double is not packed.
      have hlog : m.log2 = 52 := (Nat.log2_eq_iff hm.ne').2 ⟨hnormal, hlt⟩
      have hfraction : BitVec.ofNat 52 m = BitVec.ofNat 52 (m - 2 ^ 52) := by
        apply BitVec.eq_of_toNat_eq
        rw [BitVec.toNat_ofNat, BitVec.toNat_ofNat]
        omega
      rw [if_pos (by omega), hfraction]
      refine (unpack_packComponents s (by omega) (by omega)).trans ?_
      rw [if_neg (by omega), UnpackedFloat.finite.injEq]
      exact ⟨rfl, by omega, by omega⟩
    · -- A subnormal double has zero as exponent field.
      have hlog : m.log2 < 52 := (Nat.log2_lt hm.ne').2 (by omega)
      rw [if_neg (by omega)]
      refine (unpack_packComponents s (e := 0) (by omega) (Nat.lt_of_not_le hnormal)).trans ?_
      rw [if_pos rfl, dif_neg hm.ne', UnpackedFloat.finite.injEq]
      exact ⟨rfl, rfl, (hfull.resolve_left hnormal).symm⟩
  · rw [if_pos (by omega), if_neg hrange]
    exact unpack_pack_infinity s

/-- The exponent and the significand of a finite double in terms of its fields. -/
theorem fields_of_unpack {b : BitVec Format.binary64.numBits} {s : Sign} {m : Nat} {e : Int}
    {hm : 0 < m} (h : UnpackedFloat.unpack Format.binary64 b = .finite s m e hm) :
    s = Sign.ofBitVec (unpackSign b) ∧
      ((unpackExponent b).toNat = 0 ∧ m = (unpackMantissa b).toNat ∧ e = -1074 ∨
        0 < (unpackExponent b).toNat ∧ (unpackExponent b).toNat < 2047 ∧
          m = 2 ^ 52 + (unpackMantissa b).toNat ∧ e = (unpackExponent b).toNat - 1075) := by
  have hbias : (Format.binary64.exponentBias : Int) + Format.binary64.mantissaBitsWithoutImplicit =
      1075 := rfl
  have hexponent := (unpackExponent b).isLt
  change _ < 2048 at hexponent
  unfold UnpackedFloat.unpack at h
  dsimp only at h
  -- The greatest exponent field belongs to infinities and values that are no numbers.
  split at h
  · split at h <;> cases h
  · next hinfinite =>
    have hbelow : (unpackExponent b).toNat ≠ 2047 :=
      fun heq => hinfinite (BitVec.eq_of_toNat_eq heq)
    -- A subnormal double has the lowest exponent, a normal one its highest digit in front.
    split at h
    · next hsubnormal =>
      split at h
      · cases h
      · rw [UnpackedFloat.finite.injEq, hsubnormal, hbias] at h
        obtain ⟨rfl, rfl, rfl⟩ := h
        exact ⟨rfl, .inl ⟨by rw [hsubnormal]; rfl, rfl, rfl⟩⟩
    · next hnormal =>
      have hpositive : (unpackExponent b).toNat ≠ 0 :=
        fun heq => hnormal (BitVec.eq_of_toNat_eq heq)
      rw [UnpackedFloat.finite.injEq, hbias] at h
      obtain ⟨rfl, rfl, rfl⟩ := h
      exact ⟨rfl, .inr ⟨Nat.pos_of_ne_zero hpositive, by omega, toNat_append_one _, rfl⟩⟩

/-- What is unpacked is canonical, and its exponent is not too great. -/
theorem canonical_of_unpack {x : Float} {s : Sign} {m : Nat} {e : Int} {hm : 0 < m}
    (h : unpack x = .finite s m e hm) : Canonical m e ∧ e ≤ 971 := by
  have hmantissa := (@unpackMantissa Format.binary64 x.toModel.toBits.toBitVec).isLt
  change _ < 2 ^ 52 at hmantissa
  obtain ⟨-, ⟨-, hm, he⟩ | ⟨hnormal, hbelow, hm, he⟩⟩ := fields_of_unpack h
  · exact ⟨⟨by omega, by omega, .inr he⟩, by omega⟩
  · exact ⟨⟨by omega, by omega, .inl (by omega)⟩, by omega⟩

/-! ## Comparisons -/

theorem lt_iff_compare (x y : Float) :
    x < y ↔ (unpack x).compare (unpack y) = some .lt := by
  change decide _ = true ↔ _
  rw [decide_eq_true_iff]
  exact beq_iff_eq

theorem le_iff_compare (x y : Float) :
    x ≤ y ↔ ∃ o, (unpack x).compare (unpack y) = some o ∧ o.isLE = true := by
  change decide _ = true ↔ _
  rw [decide_eq_true_iff]
  exact Option.any_eq_true ..

theorem beq_iff_compare (x y : Float) :
    (x == y) = true ↔ (unpack x).compare (unpack y) = some .eq := by
  change ((unpack x).compare (unpack y) == some .eq) = true ↔ _
  exact beq_iff_eq

end CoordTransform.Double
