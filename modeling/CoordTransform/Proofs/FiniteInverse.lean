import Mathlib
import CoordTransform.Datum.BursaWolf
import CoordTransform.Proofs.Matrix.Finite
import CoordTransform.Proofs.Transform.WellFormed

/-!
# Inverses that Overflow

Affine maps and matrices are inverted when their determinant is finite and not zero, and a shift is
read from every affine matrix of the right shape. Nothing is tested after that, so that the last
division may still overflow or divide by zero: an inverse may have infinite or undefined
coefficients though everything that it was made of is finite. `inverse_unbounded` has one for each
kind. `inverse_finite` says exactly when the result is finite: when no last operation overflows.
-/

namespace CoordTransform

open Double (rational? overflow FitsProduct FitsQuotient)

/-! ## Affine maps -/

namespace AffineCoefficients

/-- All six coefficients are finite. -/
def IsFinite (c : AffineCoefficients Float) : Prop := ∀ x ∈ c.toList, x.isFinite = true

instance (c : AffineCoefficients Float) : Decidable c.IsFinite :=
  inferInstanceAs (Decidable (∀ x ∈ c.toList, x.isFinite = true))

/-- The numerators of the coefficients of the inverse. -/
def numerators {α : Type} [Scalar α] (c : AffineCoefficients α) : List α :=
  [c.m11, -c.m01, c.m01 * c.m12 - c.m02 * c.m11, -c.m10, c.m00, c.m02 * c.m10 - c.m00 * c.m12]

/-- No coefficient of the inverse overflows when it is divided by the determinant. -/
def InverseFits (c : AffineCoefficients Float) : Prop :=
  ∀ x ∈ c.numerators, FitsQuotient x c.determinant

variable {c d : AffineCoefficients Float}

theorem inverse?_eq_some (h : c.inverse? = some d) : c.determinant.isFinite = true ∧
    d.toList = c.numerators.map (· / c.determinant) := by
  unfold inverse? at h
  dsimp only at h
  split at h
  · cases h
  · next hregular =>
    simp only [Bool.or_eq_true, Bool.not_eq_true', not_or, Bool.not_eq_false] at hregular
    cases h
    exact ⟨hregular.2, rfl⟩

/-- Coefficients of an inverse are finite exactly when no division overflows. -/
theorem isFinite_inverse?_iff (h : c.inverse? = some d) : d.IsFinite ↔ c.InverseFits := by
  obtain ⟨hfinite, hlist⟩ := inverse?_eq_some h
  unfold IsFinite InverseFits
  rw [hlist, List.forall_mem_map]
  exact forall₂_congr fun x _ => Double.isFinite_div_iff hfinite

/-- Every coefficient goes into a numerator, so that none of them is infinite or undefined when the
inverse is finite. -/
theorem IsFinite.of_inverse? (h : c.inverse? = some d) (hd : d.IsFinite) : c.IsFinite := by
  have hfits := (isFinite_inverse?_iff h).1 hd
  have hnumerators : ∀ x ∈ c.numerators, x.isFinite = true := fun x hx => (hfits x hx).isFinite.1
  simp only [numerators, List.forall_mem_cons, Double.isFinite_neg] at hnumerators
  obtain ⟨h11, h01, hfirst, h10, h00, -⟩ := hnumerators
  obtain ⟨hleft, hright⟩ := Double.isFinite_of_sub hfirst
  have h12 := (Double.isFinite_of_mul hleft).2
  have h02 := (Double.isFinite_of_mul hright).1
  simp [IsFinite, toList, h00, h01, h02, h10, h11, h12]

end AffineCoefficients

namespace Affine

/-- Of a map and the inverse that it knows, one was computed from the other. -/
theorem Built.inverse?_of_known {α : Type} [Scalar α] {a : Affine α} (ha : a.Built)
    {c : AffineCoefficients α} (hc : a.knownInverse = some c) :
    c.inverse? = some a.toAffineCoefficients ∨ a.toAffineCoefficients.inverse? = some c := by
  induction ha generalizing c with
  -- Coefficients as such remember nothing.
  | ofCoefficients d => cases hc
  | @inverse a b _ hb ih =>
    -- The inverse remembers what it was computed from, which either was known or was computed as
    -- well.
    obtain ⟨d, hd, rfl⟩ := Affine.inverse_eq_ok hb
    cases hc
    cases hknown : a.knownInverse with
    | some e =>
      rw [hknown] at hd
      cases hd
      exact (ih hknown).symm
    | none =>
      rw [hknown] at hd
      exact .inl hd

variable {a b : Affine Float}

/-- The inverse of a map with finite coefficients is finite when no division overflows, or when the
map was made as the inverse of that map. -/
theorem isFinite_inverse_iff (ha : a.Built) (hfinite : a.toAffineCoefficients.IsFinite)
    (h : a.inverse = .ok b) : b.toAffineCoefficients.IsFinite ↔
      a.toAffineCoefficients.InverseFits ∨
        b.toAffineCoefficients.inverse? = some a.toAffineCoefficients := by
  obtain ⟨c, hc, rfl⟩ := inverse_eq_ok h
  change c.IsFinite ↔ _ ∨ c.inverse? = _
  -- The inverse was computed from the map, or the map from the inverse.
  have hcases : c.inverse? = some a.toAffineCoefficients ∨
      a.toAffineCoefficients.inverse? = some c := by
    cases hknown : a.knownInverse with
    | some e =>
      rw [hknown] at hc
      cases hc
      exact ha.inverse?_of_known hknown
    | none =>
      rw [hknown] at hc
      exact .inr hc
  rcases hcases with hmade | hcomputed
  · exact iff_of_true (hfinite.of_inverse? hmade) (.inr hmade)
  · rw [AffineCoefficients.isFinite_inverse?_iff hcomputed]
    constructor
    · exact .inl
    · rintro (hfits | hmade)
      · exact hfits
      · exact (AffineCoefficients.isFinite_inverse?_iff hcomputed).1 (hfinite.of_inverse? hmade)

end Affine

/-! ## Shifts -/

namespace BursaWolf

/-- All seven parameters are finite. -/
def IsFinite (p : BursaWolf Float) : Prop := ∀ x ∈ p.toList, x.isFinite = true

instance (p : BursaWolf Float) : Decidable p.IsFinite :=
  inferInstanceAs (Decidable (∀ x ∈ p.toList, x.isFinite = true))

/-- The scale of a matrix: the mean of its diagonal. -/
def scaleOf {α : Type} [Scalar α] (m : DenseMatrix α) : α :=
  (m.entry 0 0 + m.entry 1 1 + m.entry 2 2) / Scalar.ofNat 3

/-- Half the difference of an entry and the opposite one. -/
def skewOf {α : Type} [Scalar α] (m : DenseMatrix α) (r c : Nat) : α :=
  1 / Scalar.ofNat 2 * (m.entry r c - m.entry c r)

/-- No rotation and no scale difference of the shift overflows. -/
structure Fits (m : DenseMatrix Float) : Prop where
  ex : FitsQuotient (skewOf m 2 1) (Angular.arcSecond * scaleOf m)
  ey : FitsQuotient (skewOf m 0 2) (Angular.arcSecond * scaleOf m)
  ez : FitsQuotient (skewOf m 1 0) (Angular.arcSecond * scaleOf m)
  ppm : FitsProduct (scaleOf m - 1) million

variable {target : Nat} {m : DenseMatrix Float} {p : BursaWolf Float}

/-- An arc-second is less than one. -/
theorem isFinite_arcSecond_mul {x : Float} (h : x.isFinite = true) :
    (Angular.arcSecond * x).isFinite = true := by
  obtain ⟨p, hp⟩ := Double.exists_rational h
  obtain ⟨n, e, hn, hparts⟩ := Double.finite_of_pos
    (show (0 : Float) < Angular.arcSecond by decide +kernel) (by decide +kernel)
  -- The arc-second is between zero and one, so the product is not larger than the other factor.
  have hle : Double.value n e ≤ 1 := by
    rw [← Double.value_one]
    exact (Double.le_iff_value hparts Double.unpack_one).1 (by decide +kernel)
  have harc : rational? Angular.arcSecond = some (Double.value n e) :=
    Double.rational?_eq_some_iff.2
      ⟨.positive, _, Double.magnitude?_eq_some_iff.2 (.inr ⟨n, e, hn, hparts, rfl⟩), rfl⟩
  refine Double.isFinite_mul_iff.2 ⟨_, p, harc, hp, ?_⟩
  rw [abs_mul, abs_of_pos (Double.value_pos hn e)]
  exact (mul_le_of_le_one_left (abs_nonneg p) hle).trans_lt (Double.abs_lt_overflow hp)

theorem isFinite_ofMatrix?_iff (hm : m.IsFinite) (h : ofMatrix? target m = some p) :
    p.IsFinite ↔ Fits m := by
  unfold ofMatrix? at h
  split at h
  · next hshape =>
    simp only [Bool.and_eq_true, beq_iff_eq] at hshape
    obtain ⟨⟨hrows, hcols⟩, -⟩ := hshape
    have hentry : ∀ r < 3, (m.entry r 3).isFinite = true := fun r hr =>
      hm r (by omega) 3 (by omega)
    -- A scale that is not finite gives a scale difference that is not.
    have hquotient : ∀ {x : Float}, (scaleOf m - 1).isFinite = true →
        ((x / (Angular.arcSecond * scaleOf m)).isFinite = true ↔
          FitsQuotient x (Angular.arcSecond * scaleOf m)) := fun hs =>
      Double.isFinite_div_iff (isFinite_arcSecond_mul (Double.isFinite_of_sub hs).1)
    cases h
    change (∀ x ∈ [m.entry 0 3, m.entry 1 3, m.entry 2 3,
      skewOf m 2 1 / (Angular.arcSecond * scaleOf m),
      skewOf m 0 2 / (Angular.arcSecond * scaleOf m),
      skewOf m 1 0 / (Angular.arcSecond * scaleOf m),
      (scaleOf m - 1) * million], x.isFinite = true) ↔ _
    simp only [List.forall_mem_cons, hentry 0 (by decide), hentry 1 (by decide),
      hentry 2 (by decide), true_and]
    constructor
    · rintro ⟨hex, hey, hez, hppm, -⟩
      have hs := (Double.isFinite_of_mul hppm).1
      exact ⟨(hquotient hs).1 hex, (hquotient hs).1 hey, (hquotient hs).1 hez,
        Double.isFinite_mul_iff.1 hppm⟩
    · rintro ⟨hex, hey, hez, hppm⟩
      have hs := hppm.isFinite.1
      exact ⟨(hquotient hs).2 hex, (hquotient hs).2 hey, (hquotient hs).2 hez,
        Double.isFinite_mul_iff.2 hppm, by simp⟩
  · cases h

end BursaWolf

/-! ## Finite results -/

/-- What is inverted successfully is finite exactly when the operation that ends the computation of
a number overflows for none of them. An affine map that was made as an inverse gives back what it
was made from. -/
theorem inverse_finite (a b : Affine Float) (m n : DenseMatrix Float) (target : Nat)
    (p : BursaWolf Float) :
    (a.Built → a.toAffineCoefficients.IsFinite → a.inverse = .ok b →
      (b.toAffineCoefficients.IsFinite ↔ a.toAffineCoefficients.InverseFits ∨
        b.toAffineCoefficients.inverse? = some a.toAffineCoefficients)) ∧
    (m.inverse = .ok n → (n.IsFinite ↔ m.InverseFits)) ∧
    (m.IsFinite → BursaWolf.ofMatrix? target m = some p → (p.IsFinite ↔ BursaWolf.Fits m)) :=
  ⟨Affine.isFinite_inverse_iff, DenseMatrix.isFinite_inverse_iff,
    BursaWolf.isFinite_ofMatrix?_iff⟩

/-- The homogeneous matrix of a scaling of space and a displacement. -/
def scaledShift (x y z : Float) : DenseMatrix Float :=
  .ofFn 4 4 fun r c =>
    if c = 3 then if r = 0 then 10 else if r = 1 then 20 else if r = 2 then 30 else 1
    else if r = c then if r = 0 then x else if r = 1 then y else z
    else 0

theorem exists_of_map_toOption {ε β : Type} {x : Except ε β} {f : β → Bool}
    (h : (x.map f).toOption = some true) : ∃ b, x = .ok b ∧ f b = true := by
  cases x with
  | error e => cases h
  | ok b => exact ⟨b, rfl, Option.some.inj h⟩

/-- Scalings by small numbers are inverted without overflow. -/
theorem inverse_finite_scaled :
    (∃ b, (Affine.scale 2 4 : Affine Float).inverse = .ok b ∧ b.toAffineCoefficients.IsFinite ∧
      ((Affine.scale 2 4 : Affine Float).toAffineCoefficients.InverseFits ∨
        b.toAffineCoefficients.inverse? =
          some (Affine.scale 2 4 : Affine Float).toAffineCoefficients)) ∧
    (∃ n, (scaledShift 1 2 4).inverse = .ok n ∧ n.IsFinite ∧ (scaledShift 1 2 4).InverseFits) ∧
    ∃ p, BursaWolf.ofMatrix? 0 (scaledShift 2 2 2) = some p ∧ p.IsFinite ∧
      BursaWolf.Fits (scaledShift 2 2 2) := by
  -- Each of the three results is finite, which is found by looking at its numbers.
  obtain ⟨b, hb, hfinite⟩ := exists_of_map_toOption (x := (Affine.scale 2 4 : Affine Float).inverse)
    (f := fun b => decide b.toAffineCoefficients.IsFinite) (by decide +kernel)
  obtain ⟨n, hn, hfinite'⟩ := exists_of_map_toOption (x := (scaledShift 1 2 4).inverse)
    (f := fun n => decide n.IsFinite) (by decide +kernel)
  obtain ⟨p, hp, hfinite''⟩ := Option.map_eq_some_iff.1
    (show (BursaWolf.ofMatrix? 0 (scaledShift 2 2 2)).map (fun p => decide p.IsFinite) = some true
      by decide +kernel)
  rw [decide_eq_true_iff] at hfinite hfinite' hfinite''
  obtain ⟨haffine, hmatrix, -⟩ := inverse_finite (Affine.scale 2 4) b (scaledShift 1 2 4) n 0 p
  obtain ⟨-, -, hshift⟩ := inverse_finite (Affine.scale 2 4) b (scaledShift 2 2 2) n 0 p
  exact ⟨⟨b, hb, hfinite, (haffine (.ofCoefficients _) (by decide +kernel) hb).1 hfinite⟩,
    ⟨n, hn, hfinite', (hmatrix hn).1 hfinite'⟩,
    ⟨p, hp, hfinite'', (hshift (by decide +kernel) hp).1 hfinite''⟩⟩

/-- A shear with determinant one, but with products in its inverse that overflow. -/
def stretched : Affine Float := .ofCoefficients ⟨1e-200, 1e200, 1e200, 0, 1e200, 1e200⟩

/-- The least positive double, as a matrix. -/
def leastMatrix : DenseMatrix Float := .ofFn 1 1 fun _ _ => 5e-324

/-- From finite numbers come inverses and shifts with numbers that are infinite or undefined: no
failure is reported. -/
theorem inverse_unbounded :
    (stretched.toAffineCoefficients.IsFinite ∧
      (stretched.inverse.map fun b => decide b.toAffineCoefficients.IsFinite).toOption =
        some false) ∧
    (leastMatrix.IsFinite ∧
      (leastMatrix.inverse.map fun n => decide n.IsFinite).toOption = some false) ∧
    (scaledShift 1 1 (-2)).IsFinite ∧
      (BursaWolf.ofMatrix? 0 (scaledShift 1 1 (-2))).map (fun p => decide p.IsFinite) =
        some false := by
  decide +kernel

end CoordTransform
