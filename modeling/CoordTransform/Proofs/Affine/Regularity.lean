import Mathlib
import CoordTransform.Proofs.Affine.Rounding
import CoordTransform.Proofs.Builder.Reduction
import CoordTransform.Proofs.Double.Range

/-!
# Rounding and Invertibility

Rounding looks at each row of the linear part alone. Two rows that are not zero may still be
proportional, so that rounding can make an invertible map singular: `round_skewed`. This is the only
way in which it can. The rounded map is invertible unless whole coefficients took the place of the
old ones and these are not regular; below `2 ^ 26` their determinant is computed exactly, and they
are regular when their rows are not proportional.

Hence a builder, whatever its options and its pool, makes invertible transforms of matrices and of
products of matrices, with the same exception.
-/

namespace CoordTransform

open Double (rational?)

/-! ## Regular coefficients -/

/-- The determinant, as it is computed, is finite and not zero. -/
def AffineCoefficients.IsRegular (c : AffineCoefficients Float) : Prop :=
  c.determinant.isFinite = true ∧ ¬ (c.determinant == 0) = true

theorem AffineCoefficients.inverse?_isSome_iff {c : AffineCoefficients Float} :
    c.inverse?.isSome = true ↔ c.IsRegular := by
  unfold inverse? IsRegular
  change (if (c.determinant == 0) || !c.determinant.isFinite then none
    else some _).isSome = true ↔ _
  by_cases hzero : (c.determinant == 0) = true
  · simp [hzero]
  · cases hfinite : c.determinant.isFinite with
    | true => simp [hzero]
    | false => simp

namespace Affine

variable {a : Affine Float} {c r : AffineCoefficients Float} {tolerance : Float}

theorem isInvertible_of_isRegular (h : a.toAffineCoefficients.IsRegular) :
    a.isInvertible = true := by
  rw [isInvertible_eq]
  cases a.knownInverse with
  | some d => rfl
  | none => exact AffineCoefficients.inverse?_isSome_iff.2 h

/-- A map that knows no inverse is invertible when its coefficients are regular. -/
theorem isInvertible_ofCoefficients_iff :
    (ofCoefficients c).isInvertible = true ↔ c.IsRegular := by
  rw [isInvertible_eq]
  exact AffineCoefficients.inverse?_isSome_iff

/-- Rounding keeps a map invertible unless it goes to coefficients that are not regular. -/
theorem isInvertible_round_iff (ha : a.isInvertible = true) :
    (a.round tolerance).isInvertible = true ↔
      ∀ r, RoundsTo tolerance a.toAffineCoefficients r → r.IsRegular := by
  constructor
  · intro h r hr
    -- The only coefficients that rounding may go to are the ones it does go to.
    rw [round_of_roundsTo hr] at h
    exact isInvertible_ofCoefficients_iff.1 h
  · intro h
    rcases round_cases a tolerance with hsame | ⟨r, hr, hround⟩
    · rwa [hsame]
    · rw [hround]
      exact isInvertible_ofCoefficients_iff.2 (h r hr)

/-! ## Whole coefficients -/

/-- The linear part consists of the integers `i`, `j` in the first row and `k`, `l` in the second.
-/
structure HasLinearPart (c : AffineCoefficients Float) (i j k l : ℤ) : Prop where
  m00 : rational? c.m00 = some (i : ℚ)
  m01 : rational? c.m01 = some (j : ℚ)
  m10 : rational? c.m10 = some (k : ℚ)
  m11 : rational? c.m11 = some (l : ℚ)

theorem exists_rational_of_isWhole {x : Float} (h : Double.IsWhole x) :
    ∃ i : ℤ, rational? x = some (i : ℚ) := by
  obtain ⟨s, n, hn⟩ := h
  cases s with
  | positive => exact ⟨n, Double.rational?_eq_some_iff.2 ⟨_, _, hn, rfl⟩⟩
  | negative => exact ⟨-n, Double.rational?_eq_some_iff.2 ⟨_, _, hn, by simp [Double.withSign]⟩⟩

theorem RoundsTo.exists_linearPart (h : RoundsTo tolerance c r) :
    ∃ i j k l, HasLinearPart r i j k l := by
  have hnearest := h.nearest
  simp only [AffineCoefficients.toList, List.forall₂_cons] at hnearest
  obtain ⟨h00, h01, -, h10, h11, -⟩ := hnearest
  obtain ⟨i, hi⟩ := exists_rational_of_isWhole h00.isWhole
  obtain ⟨j, hj⟩ := exists_rational_of_isWhole h01.isWhole
  obtain ⟨k, hk⟩ := exists_rational_of_isWhole h10.isWhole
  obtain ⟨l, hl⟩ := exists_rational_of_isWhole h11.isWhole
  exact ⟨i, j, k, l, hi, hj, hk, hl⟩

theorem isMagnitude_abs_intCast {i : ℤ} (h : |i| < 2 ^ 53) : Double.IsMagnitude |(i : ℚ)| := by
  rw [Int.abs_eq_natAbs] at h
  rw [← Int.cast_abs, Int.abs_eq_natAbs, Int.cast_natCast]
  exact Double.isMagnitude_natCast (by omega)

/-- The determinant of small whole coefficients is not rounded. -/
theorem HasLinearPart.determinant {i j k l : ℤ} (h : HasLinearPart c i j k l)
    (hi : |i| < 2 ^ 26) (hj : |j| < 2 ^ 26) (hk : |k| < 2 ^ 26) (hl : |l| < 2 ^ 26) :
    rational? c.determinant = some ((i * l - j * k : ℤ) : ℚ) := by
  -- Both products are below `2 ^ 52`, so that each operation has an exact result.
  have hdiagonal : |i * l| < 2 ^ 52 := by
    rw [abs_mul]
    exact mul_lt_mul'' hi hl (abs_nonneg i) (abs_nonneg l)
  have hother : |j * k| < 2 ^ 52 := by
    rw [abs_mul]
    exact mul_lt_mul'' hj hk (abs_nonneg j) (abs_nonneg k)
  have hfirst : rational? (c.m00 * c.m11) = some ((i * l : ℤ) : ℚ) := by
    have hmul := Double.isRounded_mul h.m00 h.m11
    rw [← Int.cast_mul] at hmul
    exact hmul.rational? (isMagnitude_abs_intCast (by omega))
  have hsecond : rational? (c.m01 * c.m10) = some ((j * k : ℤ) : ℚ) := by
    have hmul := Double.isRounded_mul h.m01 h.m10
    rw [← Int.cast_mul] at hmul
    exact hmul.rational? (isMagnitude_abs_intCast (by omega))
  -- The difference is below `2 ^ 53`, and is a double as well.
  have hsub := Double.isRounded_sub hfirst hsecond
  rw [← Int.cast_sub] at hsub
  refine hsub.rational? (isMagnitude_abs_intCast ((abs_sub _ _).trans_lt ?_))
  omega

/-- Small whole coefficients are regular when their rows are not proportional. -/
theorem HasLinearPart.isRegular_iff {i j k l : ℤ} (h : HasLinearPart c i j k l)
    (hi : |i| < 2 ^ 26) (hj : |j| < 2 ^ 26) (hk : |k| < 2 ^ 26) (hl : |l| < 2 ^ 26) :
    c.IsRegular ↔ i * l ≠ j * k := by
  have hdeterminant := h.determinant hi hj hk hl
  unfold AffineCoefficients.IsRegular
  rw [Double.beq_zero_iff_rational hdeterminant, Int.cast_eq_zero, sub_eq_zero]
  exact and_iff_right (Double.isFinite_of_rational hdeterminant)

end Affine

/-! ## Regular transforms -/

namespace Transform

/-- An affine map with regular coefficients, within pass-throughs or on its own. -/
def IsRegular : Transform Float → Prop
  | affine a => a.toAffineCoefficients.IsRegular
  | passThrough _ inner _ => inner.IsRegular
  | _ => False

theorem IsRegular.isInvertible {t : Transform Float} (h : t.IsRegular) :
    t.isInvertible = true := by
  suffices hinverse : ∃ u, t.inverse = .ok u by
    obtain ⟨u, hu⟩ := hinverse
    rw [Transform.isInvertible, hu]
    rfl
  -- Of the forms of a transform, only affine maps and what copies components around them are
  -- regular.
  induction t with
  | affine a =>
    have ha := Affine.isInvertible_of_isRegular h
    rw [Affine.isInvertible_eq, Option.isSome_iff_exists] at ha
    obtain ⟨c, hc⟩ := ha
    unfold inverse
    split
    · -- An identity is its own inverse.
      exact ⟨_, rfl⟩
    · dsimp only
      rw [Affine.inverse_of_some hc]
      exact ⟨_, rfl⟩
  | passThrough leading inner trailing ih =>
    obtain ⟨u, hu⟩ := ih h
    unfold inverse
    split
    · exact ⟨_, rfl⟩
    · dsimp only
      rw [hu]
      exact ⟨_, rfl⟩
  | _ => exact h.elim

/-- A transform that is the same has the same coefficients. -/
theorem IsRegular.of_same {t u : Transform Float} (h : t.IsRegular) (hsame : u.same t = true) :
    u.IsRegular := by
  -- The induction is on the known transform; a transform of another form is not the same.
  induction t generalizing u with
  | affine a =>
    cases u with
    | affine b =>
      -- Being the same compares the coefficients, and they alone decide.
      change b.toAffineCoefficients.IsRegular
      rw [affine_eq_of_same hsame]
      exact h
    | _ => cases hsame
  | passThrough leading inner trailing ih =>
    cases u with
    | passThrough leading' inner' trailing' =>
      rw [same, Bool.and_eq_true] at hsame
      change inner'.IsRegular
      exact ih h hsame.2
    | _ => cases hsame
  | _ => exact h.elim

end Transform

/-! ## Builders -/

namespace Builder

variable {f : Builder Float} {a : Affine Float} {m : DenseMatrix Float}
  {t first second : Transform Float}

/-- The builder does not round a map to coefficients that are not regular. -/
def RoundsRegularly (f : Builder Float) (a : Affine Float) : Prop :=
  ∀ tolerance, f.options.rounding = some tolerance →
    ∀ r, Affine.RoundsTo tolerance a.toAffineCoefficients r → r.IsRegular

theorem rounded_regular (ha : a.toAffineCoefficients.IsRegular) (hf : f.RoundsRegularly a) :
    (f.rounded (.affine a)).IsRegular := by
  obtain hsame | ⟨tolerance, _, hrounding, ⟨⟩, hround⟩ := f.rounded_cases (.affine a)
  · rw [hsame]
    exact ha
  · rw [hround]
    -- Rounding leaves the map as it is, or goes to coefficients that are regular.
    rcases Affine.round_cases a tolerance with hkept | ⟨r, hr, hr'⟩
    · rwa [hkept]
    · rw [hr']
      exact hf tolerance hrounding r hr

theorem pooled_regular (ht : t.IsRegular) (pool : Pool Float) :
    ∃ u pool', f.pooled t pool = (.ok u, pool') ∧ u.IsRegular := by
  obtain ⟨member, -, -, hsame, hpooled⟩ | hpooled | hpooled := pooled_cases f t pool
  · exact ⟨member, pool, hpooled, ht.of_same hsame⟩
  · exact ⟨t, pool, hpooled, ht⟩
  · exact ⟨t, _, hpooled, ht⟩

/-- The affine map of a matrix knows no inverse. -/
theorem regular_of_affineOfMatrix (hm : Affine.ofMatrix m = .ok a) (ha : a.isInvertible = true) :
    a.toAffineCoefficients.IsRegular ∧ Transform.ofMatrix m = .ok (.affine a) := by
  unfold Affine.ofMatrix at hm
  split at hm
  · next hplane =>
    cases hm
    refine ⟨Affine.isInvertible_ofCoefficients_iff.1 ha, ?_⟩
    unfold Transform.ofMatrix Affine.ofMatrix
    rw [if_pos hplane, if_pos hplane]
    rfl
  · cases hm

theorem ofMatrix_regular (hm : Affine.ofMatrix m = .ok a) (ha : a.isInvertible = true)
    (hf : f.RoundsRegularly a) (pool : Pool Float) :
    ∃ u pool', f.ofMatrix m pool = (.ok u, pool') ∧ u.IsRegular := by
  obtain ⟨hregular, htransform⟩ := regular_of_affineOfMatrix hm ha
  obtain ⟨u, pool', hpooled, hu⟩ := pooled_regular (f := f) (rounded_regular hregular hf) pool
  exact ⟨u, pool', (stateBind_of_ok (lift_eq_ok htransform pool)).trans hpooled, hu⟩

theorem passThrough_regular (ht : t.IsRegular) (leading trailing : Nat) (pool : Pool Float) :
    ∃ u pool', f.passThrough leading t trailing pool = (.ok u, pool') ∧ u.IsRegular := by
  unfold Builder.passThrough
  split
  · exact ⟨t, pool, rfl, ht⟩
  · exact pooled_regular (t := .passThrough leading t trailing) ht pool

/-- Two transforms that a builder makes into one of a product of matrices, within pass-throughs of
the same components or on their own. -/
inductive Merges : Transform Float → Transform Float → DenseMatrix Float → Prop where
  | product {first second : Transform Float} {m n p : DenseMatrix Float} :
      first.targetDim = second.sourceDim → first.isIdentity = false → second.isIdentity = false →
      ownMatrix? first = some m → ownMatrix? second = some n → n.multiply m = .ok p →
      Merges first second p
  | passThrough (leading trailing : Nat) {a b : Transform Float} {p : DenseMatrix Float} :
      Merges a b p → Merges (.passThrough leading a trailing) (.passThrough leading b trailing) p

theorem Merges.connected (h : Merges first second m) : first.targetDim = second.sourceDim ∧
    first.isIdentity = false ∧ second.isIdentity = false := by
  induction h with
  | product hdims hfirst hsecond => exact ⟨hdims, hfirst, hsecond⟩
  | passThrough leading trailing _ ih =>
    obtain ⟨hdims, hfirst, hsecond⟩ := ih
    exact ⟨by rw [Transform.targetDim, Transform.sourceDim, hdims], hfirst, hsecond⟩

/-- A merged concatenation is regular when the affine map of the product is and stays so. -/
theorem Merges.concatenate_regular (h : Merges first second m) (hm : Affine.ofMatrix m = .ok a)
    (ha : a.isInvertible = true) (hf : f.RoundsRegularly a) (pool : Pool Float) :
    ∃ u pool', f.concatenate first second pool = (.ok u, pool') ∧ u.IsRegular := by
  -- The induction is on the merging, with the pool open: the inner transforms are merged first.
  induction h generalizing pool with
  | product hdims hfirst hsecond hm₁ hm₂ hp =>
    obtain ⟨u, pool', hu, hregular⟩ := ofMatrix_regular hm ha hf pool
    refine ⟨u, pool', ?_, hregular⟩
    rw [concatenate_of_connected f hdims hfirst hsecond, hm₁, hm₂]
    exact (stateBind_of_ok (lift_eq_ok hp pool)).trans hu
  | passThrough leading trailing hinner ih =>
    obtain ⟨inner, pool₁, hconcatenate, hregular⟩ := ih hm pool
    obtain ⟨u, pool', hu, hregular'⟩ := passThrough_regular hregular leading trailing pool₁
    refine ⟨u, pool', ?_, hregular'⟩
    -- What copies the components is concatenated through its inner transforms only.
    obtain ⟨hdims, hfirst, hsecond⟩ := (hinner.passThrough leading trailing).connected
    rw [concatenate_of_connected f hdims hfirst hsecond]
    dsimp only [ownMatrix?]
    rw [lastStep_passThrough hinner.connected.1]
    exact (stateBind_of_ok hconcatenate).trans hu

end Builder

namespace Affine

/-! ## Rounding as a whole -/

/-- Rounding keeps an invertible map invertible unless it goes to whole coefficients that are not
regular, which below `2 ^ 26` are those with proportional rows. With this exception every builder
makes an invertible transform of a matrix whose affine map is invertible, and of two transforms that
it merges into such a matrix, whatever its pool holds. -/
theorem round_invertible {a : Affine Float} (ha : a.isInvertible = true) :
    (∀ tolerance, (a.round tolerance).isInvertible = true ↔
      ∀ r, RoundsTo tolerance a.toAffineCoefficients r → r.IsRegular) ∧
    (∀ tolerance r, RoundsTo tolerance a.toAffineCoefficients r →
      ∃ i j k l : ℤ, HasLinearPart r i j k l ∧
        (|i| < 2 ^ 26 → |j| < 2 ^ 26 → |k| < 2 ^ 26 → |l| < 2 ^ 26 →
          (r.IsRegular ↔ i * l ≠ j * k))) ∧
    ∀ (f : Builder Float) (m : DenseMatrix Float) (pool : Pool Float),
      Affine.ofMatrix m = .ok a → f.RoundsRegularly a →
      (∃ u pool', f.ofMatrix m pool = (.ok u, pool') ∧ u.isInvertible = true) ∧
      ∀ first second, Builder.Merges first second m →
        ∃ u pool', f.concatenate first second pool = (.ok u, pool') ∧ u.isInvertible = true := by
  refine ⟨fun tolerance => isInvertible_round_iff ha, fun tolerance r hr => ?_,
    fun f m pool hm hf => ⟨?_, fun first second hmerges => ?_⟩⟩
  · -- Whole coefficients have a whole determinant, which tells regular ones apart.
    obtain ⟨i, j, k, l, hlinear⟩ := hr.exists_linearPart
    exact ⟨i, j, k, l, hlinear, hlinear.isRegular_iff⟩
  · obtain ⟨u, pool', hu, hregular⟩ := Builder.ofMatrix_regular hm ha hf pool
    exact ⟨u, pool', hu, hregular.isInvertible⟩
  · obtain ⟨u, pool', hu, hregular⟩ := hmerges.concatenate_regular hm ha hf pool
    exact ⟨u, pool', hu, hregular.isInvertible⟩

/-- Scaling by `4.1` and then by thirty, which is not quite scaling by `123`. -/
def driftedProduct : DenseMatrix Float := (scale 30 30).toMatrix.product (scale 4.1 4.1).toMatrix

def driftedScaling : Affine Float := scale 122.99999999999999 122.99999999999999

/-- A builder that rounds within a billionth. -/
def roundingBuilder : Builder Float := ⟨.empty, some 1e-9, true⟩

theorem ofMatrix_driftedProduct : ofMatrix driftedProduct = .ok driftedScaling := by
  have hplane : isPlaneMatrix driftedProduct = true := by decide +kernel
  unfold ofMatrix
  rw [if_pos hplane, Except.ok.injEq]
  decide +kernel

theorem roundsRegularly_driftedScaling : roundingBuilder.RoundsRegularly driftedScaling := by
  rintro tolerance ⟨⟩ r hr
  have hinvertible : (driftedScaling.round 1e-9).isInvertible = true := by decide +kernel
  rw [round_of_roundsTo hr] at hinvertible
  exact isInvertible_ofCoefficients_iff.1 hinvertible

/-- The two scalings are merged into one that is rounded to scaling by `123`, and is invertible. -/
theorem round_invertible_drifted : driftedScaling.isInvertible = true ∧
    ofMatrix driftedProduct = .ok driftedScaling ∧
    roundingBuilder.RoundsRegularly driftedScaling ∧
    Builder.Merges (.affine (scale 4.1 4.1)) (.affine (scale 30 30)) driftedProduct ∧
    ∃ u pool, roundingBuilder.concatenate (.affine (scale 4.1 4.1)) (.affine (scale 30 30)) [] =
      (.ok u, pool) ∧ u.isInvertible = true := by
  -- The conditions are evaluated on doubles, since the drift is a matter of bits.
  have hinvertible : driftedScaling.isInvertible = true := by decide +kernel
  have hmerges : Builder.Merges (.affine (scale 4.1 4.1)) (.affine (scale 30 30)) driftedProduct :=
    .product rfl (by decide +kernel) (by decide +kernel) rfl rfl rfl
  exact ⟨hinvertible, ofMatrix_driftedProduct, roundsRegularly_driftedScaling, hmerges,
    ((round_invertible hinvertible).2.2 roundingBuilder driftedProduct [] ofMatrix_driftedProduct
      roundsRegularly_driftedScaling).2 _ _ hmerges⟩

/-- Rows that are nearly proportional, and are so when they are rounded. -/
def skewed : Affine Float := ofCoefficients ⟨1, 1, 0, 1, 1.0000000001, 0⟩

/-- An invertible map that rounding makes singular, and whose matrix gives a singular transform. -/
theorem round_skewed : skewed.isInvertible = true ∧ (skewed.round 1e-9).isInvertible = false ∧
    ((roundingBuilder.ofMatrix skewed.toMatrix []).1.map Transform.isInvertible).toOption =
      some false := by
  decide +kernel

end Affine

end CoordTransform
