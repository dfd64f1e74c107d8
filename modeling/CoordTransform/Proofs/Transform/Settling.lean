import CoordTransform.Proofs.Transform.Sameness

/-!
# Transforms with Settled Inverses

The inverse of an affine map is the one that it remembers, or else the computed one. `settle` puts
either of them into the memory. Two transforms that are alike once they are settled have inverses
that are alike, and so on for the inverses of these.

A transform is `Consistent` when what its affine maps remember is what would be computed. For
consistent transforms equality decides everything: those that are the same have the same inverses.
Without memory a transform is consistent. Its inverse remembers the map it came from; it is
consistent as well when computing the inverse of an inverse gives the first map back, which is so in
exact arithmetic, and not with rounding.
-/

namespace CoordTransform

variable {α : Type} [Scalar α]

/-! ## Affine maps -/

/-- Computing an inverse twice gives the coefficients back. -/
def AffineCoefficients.Reversible (α : Type) [Scalar α] : Prop :=
  ∀ c d : AffineCoefficients α, c.inverse? = some d → d.inverse? = some c

theorem AffineCoefficients.reversible_of_exact [Scalar.Exact α] :
    AffineCoefficients.Reversible α := by
  rintro ⟨a, b, e, f, g, k⟩ d h
  simp only [AffineCoefficients.inverse?] at h
  split at h
  · cases h
  · next hd =>
    rw [Scalar.isUsable_iff] at hd
    cases h
    simp only [AffineCoefficients.determinant] at hd ⊢
    generalize hdet : a * g - b * f = d at hd
    -- The determinant of the inverse is the reciprocal of the determinant.
    have hback : g / d * (a / d) - -b / d * (-f / d) = 1 / d := by
      field_simp
      linear_combination hdet
    rw [AffineCoefficients.inverse?]
    simp only [AffineCoefficients.determinant, hback]
    rw [if_neg (by rw [Scalar.isUsable_iff]; exact one_div_ne_zero hd)]
    simp only [Option.some.injEq, AffineCoefficients.mk.injEq]
    refine ⟨?_, ?_, ?_, ?_, ?_, ?_⟩
    · field_simp
    · field_simp
    · field_simp
      linear_combination e * hdet
    · field_simp
    · field_simp
    · field_simp
      linear_combination k * hdet

/-- The affine map with the inverse that it would give in its memory. -/
def Affine.settle (a : Affine α) : Affine α :=
  { a with knownInverse := a.knownInverse <|> a.toAffineCoefficients.inverse? }

theorem Affine.inverse_settle (a : Affine α) : a.settle.inverse = a.inverse := by
  obtain ⟨c, known⟩ := a
  unfold inverse inverseCoefficients settle
  cases known with
  | none => cases c.inverse? <;> simp
  | some d => rfl

namespace Transform

/-! ## Transforms -/

/-- The transform whose affine maps remember the inverses that they would give. -/
def settle : Transform α → Transform α
  | affine a => affine a.settle
  | linear m => linear m
  | concatenated first second => concatenated first.settle second.settle
  | passThrough leading inner trailing => passThrough leading inner.settle trailing
  | operation op => operation op
  | inverseOperation op => inverseOperation op

variable {t u : Transform α}

theorem forget_settle (t : Transform α) : t.settle.forget = t.forget := by
  induction t with
  | concatenated first second ihf ihs => rw [settle, forget, forget, ihf, ihs]
  | passThrough leading inner trailing ih => rw [settle, forget, forget, ih]
  | _ => rfl

/-- Settled transforms that are alike differ in memory at most. -/
theorem forget_eq_of_settle (h : t.settle = u.settle) : t.forget = u.forget := by
  rw [← forget_settle t, h, forget_settle]

theorem concatenate_of_settle {first second first' second' : Transform α}
    (hfirst : first.settle = first'.settle) (hsecond : second.settle = second'.settle) :
    ResultRel (fun t u => t.settle = u.settle) (concatenate first second)
      (concatenate first' second') := by
  have hrequire : requireConnected first second = requireConnected first' second' := by
    rw [requireConnected, requireConnected, targetDim_eq_of_forget (forget_eq_of_settle hfirst),
      sourceDim_eq_of_forget (forget_eq_of_settle hsecond)]
  unfold concatenate
  rw [hrequire]
  refine .bind (R := fun _ _ => True) (.refl fun _ _ => trivial) fun _ _ _ => .ok ?_
  rw [settle, settle, hfirst, hsecond]

/-- The inverses of transforms that are alike once settled are so, too. -/
theorem inverse_of_settle (h : t.settle = u.settle) :
    ResultRel (fun t' u' => t'.settle = u'.settle) t.inverse u.inverse := by
  induction t generalizing u with
  | affine a =>
    cases u with
    | affine b =>
      have hinverse : a.inverse = b.inverse := by
        rw [← a.inverse_settle, affine.inj h, b.inverse_settle]
      unfold inverse
      rw [isIdentity_eq_of_forget (forget_eq_of_settle h)]
      split
      · exact .ok h
      · dsimp only
        rw [hinverse]
        exact .refl fun _ _ => rfl
    | _ => cases h
  | concatenated first second ihf ihs =>
    cases u with
    | concatenated first' second' =>
      obtain ⟨hfirst, hsecond⟩ := concatenated.inj h
      unfold inverse
      rw [isIdentity_eq_of_forget (forget_eq_of_settle h)]
      split
      · exact .ok h
      · exact .mapError _ (.bind (ihs hsecond) fun s s' hs =>
          .bind (ihf hfirst) fun f f' hf => concatenate_of_settle hs hf)
    | _ => cases h
  | passThrough leading inner trailing ih =>
    cases u with
    | passThrough leading' inner' trailing' =>
      obtain ⟨rfl, hinner, rfl⟩ := passThrough.inj h
      unfold inverse
      rw [isIdentity_eq_of_forget (forget_eq_of_settle h)]
      split
      · exact .ok h
      · refine .mapError _ (.bind (ih hinner) fun i i' hi => .ok ?_)
        rw [settle, settle, hi]
    | _ => cases h
  | _ =>
    -- Without affine maps, there is nothing to settle.
    cases u <;> cases h
    exact .refl fun _ _ => rfl

/-! ## Consistent memory -/

/-- What the affine maps of a transform remember is what would be computed. -/
def Consistent (t : Transform α) : Prop := t.settle = t.forget.settle

theorem consistent_concatenated {first second : Transform α} :
    (concatenated first second).Consistent ↔ first.Consistent ∧ second.Consistent := by
  rw [Consistent, settle, forget, settle, concatenated.injEq]
  rfl

theorem consistent_passThrough {leading trailing : Nat} {inner : Transform α} :
    (passThrough leading inner trailing).Consistent ↔ inner.Consistent := by
  rw [Consistent, settle, forget, settle, passThrough.injEq]
  simp [Consistent]

/-- An affine map without memory is consistent. -/
theorem consistent_ofCoefficients (c : AffineCoefficients α) :
    (affine (.ofCoefficients c)).Consistent := rfl

/-- Consistent transforms that differ in memory at most are alike once settled. -/
theorem Consistent.settle_eq (ht : t.Consistent) (hu : u.Consistent)
    (h : t.forget = u.forget) : t.settle = u.settle := by
  rw [ht, hu, h]

theorem consistent_ofMatrix {m : DenseMatrix α} (h : ofMatrix m = .ok t) : t.Consistent := by
  obtain ⟨a, ha, rfl⟩ | ⟨rfl, -⟩ := ofMatrix_eq_ok h
  · unfold Affine.ofMatrix at ha
    split at ha
    · cases ha
      rfl
    · cases ha
  · rfl

/-- The inverse of a consistent transform remembers what computing it again would give. -/
theorem InverseOf.consistent (hreversible : AffineCoefficients.Reversible α)
    (hu : InverseOf t u) (ht : t.Consistent) : u.Consistent := by
  induction hu with
  | identity _ => exact ht
  | @affine a b hb =>
    obtain ⟨c, hc, rfl⟩ := Affine.inverse_eq_ok hb
    have hsettled : a.settle = a.forget.settle := affine.inj ht
    -- What is remembered is what computing it again gives.
    have hknown : (a.knownInverse <|> a.toAffineCoefficients.inverse?) =
        a.toAffineCoefficients.inverse? := congrArg Affine.knownInverse hsettled
    rw [hknown] at hc
    rw [Consistent, settle, forget, settle, affine.injEq]
    -- The inverse remembers the map, and computing it from the coefficients gives the map back.
    change (⟨c, some a.toAffineCoefficients⟩ : Affine α) = ⟨c, c.inverse?⟩
    rw [hreversible _ _ hc]
  | linear _ _ => rfl
  | concatenated _ _ _ ihf ihs =>
    obtain ⟨hfirst, hsecond⟩ := consistent_concatenated.1 ht
    exact consistent_concatenated.2 ⟨ihs hsecond, ihf hfirst⟩
  | passThrough _ ih => exact consistent_passThrough.2 (ih (consistent_passThrough.1 ht))
  | operation _ => rfl
  | inverseOperation => rfl

end Transform

end CoordTransform
