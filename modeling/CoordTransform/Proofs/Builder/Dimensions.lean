import CoordTransform.Proofs.Builder.Concatenation

/-!
# The Builder Keeps Dimensions

Whatever the options of a builder are, each of its steps gives a transform with the dimensions of
the plain one. Rounding an affine map changes neither of its dimensions, and a pooled member that
replaces a transform has those of the transform, as long as operations that are the same have the
same dimensions.
-/

namespace CoordTransform

variable {α : Type} [Scalar α]

namespace Transform

/-! ## Equal dimensions -/

/-- Two transforms between the same spaces. -/
structure SameDims (u t : Transform α) : Prop where
  source : u.sourceDim = t.sourceDim
  target : u.targetDim = t.targetDim

variable {t u v : Transform α}

omit [Scalar α] in
theorem SameDims.refl (t : Transform α) : t.SameDims t := ⟨rfl, rfl⟩

omit [Scalar α] in
theorem SameDims.trans (h : u.SameDims v) (h' : v.SameDims t) : u.SameDims t :=
  ⟨h.source.trans h'.source, h.target.trans h'.target⟩

omit [Scalar α] in
theorem SameDims.passThrough (leading trailing : Nat) (h : u.SameDims t) :
    (passThrough leading u trailing).SameDims (.passThrough leading t trailing) :=
  ⟨by rw [sourceDim, sourceDim, h.source], by rw [targetDim, targetDim, h.target]⟩

theorem Simplifies.sameDims (h : u.Simplifies t) : u.SameDims t :=
  ⟨h.sourceDim_eq, h.targetDim_eq⟩

/-- Operations that are the same have the same dimensions. -/
def DimsDetermined (ops : Operation α → Prop) : Prop :=
  ∀ o o', ops o → ops o' → o.same o' = true →
    o.sourceDim = o'.sourceDim ∧ o.targetDim = o'.targetDim

theorem sameDims_of_same {ops : Operation α → Prop} (hops : DimsDetermined ops)
    (hu : u.Sound ops) (ht : t.Sound ops) (h : u.same t = true) : u.SameDims t := by
  -- Transforms that are the same have the same form, so that their dimensions are made alike.
  induction u generalizing t with
  | affine a =>
    cases t with
    | affine b => exact ⟨rfl, rfl⟩
    | _ => cases h
  | linear m =>
    cases t with
    | linear n =>
      simp only [same, DenseMatrix.same, DenseMatrix.sameShape, Bool.and_eq_true, beq_iff_eq] at h
      exact ⟨congrArg (· - 1) h.1.2, congrArg (· - 1) h.1.1⟩
    | _ => cases h
  | concatenated first second ihf ihs =>
    cases t with
    | concatenated first' second' =>
      rw [same, Bool.and_eq_true] at h
      exact ⟨(ihf hu.1 ht.1 h.1).source, (ihs hu.2.1 ht.2.1 h.2).target⟩
    | _ => cases h
  | passThrough leading inner trailing ih =>
    cases t with
    | passThrough leading' inner' trailing' =>
      simp only [same, Bool.and_eq_true, beq_iff_eq] at h
      obtain ⟨⟨rfl, rfl⟩, hinner⟩ := h
      exact (ih (t := inner') hu ht hinner).passThrough _ _
    | _ => cases h
  | operation op =>
    cases t with
    | operation op' =>
      obtain ⟨hsource, htarget⟩ := hops op op' hu ht h
      exact ⟨hsource, htarget⟩
    | _ => cases h
  | inverseOperation op =>
    cases t with
    | inverseOperation op' =>
      obtain ⟨hsource, htarget⟩ := hops op op' hu.1 ht.1 h
      exact ⟨htarget, hsource⟩
    | _ => cases h

/-- An inverse goes the other way round. -/
theorem InverseOf.dims {ops : Operation α → Prop} (hu : InverseOf t u) (ht : t.Sound ops) :
    u.sourceDim = t.targetDim ∧ u.targetDim = t.sourceDim := by
  induction hu with
  | identity hid =>
    have hdims := WellFormed.dims_of_isIdentity ht hid
    exact ⟨hdims, hdims.symm⟩
  | affine _ => exact ⟨rfl, rfl⟩
  -- Only square matrices have an inverse, of the same size.
  | linear hn _ =>
    obtain ⟨hsquare, hrows, hcols⟩ := DenseMatrix.shape_inverse hn
    exact ⟨by rw [sourceDim, targetDim, hcols],
      by rw [sourceDim, targetDim, hrows, hsquare]⟩
  | concatenated _ _ _ ihf ihs => exact ⟨(ihs ht.2.1).1, (ihf ht.1).2⟩
  | passThrough _ ih =>
    exact ⟨by rw [sourceDim, targetDim, (ih ht).1], by rw [sourceDim, targetDim, (ih ht).2]⟩
  | operation _ => exact ⟨rfl, rfl⟩
  | inverseOperation => exact ⟨rfl, rfl⟩

end Transform

namespace Builder

open Transform

/-- What is the same has the same dimensions, as far as the builder pools at all. -/
def Measured (ops : Operation α → Prop) (f : Builder α) : Prop :=
  f.options.usePool = true → DimsDetermined ops

variable {ops : Operation α → Prop} {f : Builder α}

/-- Only affine maps are rounded, and to affine maps. -/
theorem sameDims_rounded (f : Builder α) (t : Transform α) : (f.rounded t).SameDims t := by
  obtain hsame | ⟨_, _, rfl, hround⟩ := f.rounded_eq_or t
  · rw [hsame]
    exact .refl t
  · rw [hround]
    exact ⟨rfl, rfl⟩

/-- No step of the builder changes dimensions. -/
theorem Measured.respects (hf : f.Measured ops) : Respects ops f Transform.SameDims where
  of_simplifies h := h.sameDims
  trans := .trans
  passThrough leading trailing h := h.passThrough leading trailing
  of_same huse _ _ hu ht hsame := sameDims_of_same (hf huse) hu ht hsame
  rounded := sameDims_rounded f

end Builder

end CoordTransform
