import CoordTransform.Builder
import CoordTransform.Element.OfTransform
import CoordTransform.Proofs.Method.Settings
import CoordTransform.Proofs.Transform.Simplification

/-!
# What Equality of Transforms Compares

Two transforms are the same when they differ in nothing but the inverses that their affine maps
remember. `forget` drops that memory; the rest is compared by representations. Whatever does not
invert a transform depends on it only up to `forget`: its dimensions, the test for an identity, its
matrix and its elements.
-/

namespace CoordTransform

variable {α : Type} [Scalar α]

/-! ## Parameters and operations -/

theorem ParameterValue.same_iff [Scalar.Discrete α] {v w : ParameterValue α} :
    v.same w = true ↔ v = w := by
  cases v <;> cases w <;> simp [ParameterValue.same]

theorem Parameters.same_iff [Scalar.Discrete α] {ps qs : Parameters α} :
    ps.same qs = true ↔ ps = qs := by
  have hentry : (fun e f : String × ParameterValue α => e.1 = f.1 ∧ e.2.Identical f.2) = Eq := by
    funext e f
    rw [← ParameterValue.same_iff_identical, ParameterValue.same_iff, ← Prod.ext_iff]
  obtain ⟨es⟩ := ps
  obtain ⟨fs⟩ := qs
  rw [same_iff_forall₂, hentry, List.forall₂_eq_eq_eq, Parameters.mk.injEq]

theorem Operation.same_refl [Scalar.Discrete α] (op : Operation α) : op.same op = true := by
  rw [Operation.same, Bool.and_eq_true, Parameters.same_iff]
  exact ⟨beq_self_eq_true _, rfl⟩

theorem Operation.same_symm [Scalar.Discrete α] {o p : Operation α} (h : o.same p = true) :
    p.same o = true := by
  rw [Operation.same, Bool.and_eq_true, Parameters.same_iff, beq_iff_eq] at h ⊢
  exact ⟨h.1.symm, h.2.symm⟩

/-! ## Matrices and affine maps -/

theorem DenseMatrix.same_refl [Scalar.Discrete α] (m : DenseMatrix α) : m.same m = true := by
  simp [DenseMatrix.same, DenseMatrix.sameShape, DenseMatrix.allPositions]

/-- The affine map without the inverse that it remembers. -/
def Affine.forget (a : Affine α) : Affine α := .ofCoefficients a.toAffineCoefficients

omit [Scalar α] in
theorem Affine.forget_eq_iff {a b : Affine α} :
    a.forget = b.forget ↔ a.toAffineCoefficients = b.toAffineCoefficients :=
  ⟨fun h => (Affine.mk.inj h).1, congrArg Affine.ofCoefficients⟩

theorem Affine.same_of_forget [Scalar.Discrete α] {a b : Affine α} (h : a.forget = b.forget) :
    a.same b = true := by
  rw [Affine.forget_eq_iff] at h
  simp [Affine.same, h, AffineCoefficients.toList]

namespace Transform

/-! ## Without memory -/

/-- The transform without the inverses that its affine maps remember. -/
def forget : Transform α → Transform α
  | affine a => affine a.forget
  | linear m => linear m
  | concatenated first second => concatenated first.forget second.forget
  | passThrough leading inner trailing => passThrough leading inner.forget trailing
  | operation op => operation op
  | inverseOperation op => inverseOperation op

variable {t u : Transform α}

omit [Scalar α] in
@[simp] theorem sourceDim_forget (t : Transform α) : t.forget.sourceDim = t.sourceDim := by
  induction t with
  | concatenated first second ihf ihs => exact ihf
  | passThrough leading inner trailing ih => simp only [forget, sourceDim, ih]
  | _ => rfl

omit [Scalar α] in
@[simp] theorem targetDim_forget (t : Transform α) : t.forget.targetDim = t.targetDim := by
  induction t with
  | concatenated first second ihf ihs => exact ihs
  | passThrough leading inner trailing ih => simp only [forget, targetDim, ih]
  | _ => rfl

@[simp] theorem isIdentity_forget (t : Transform α) : t.forget.isIdentity = t.isIdentity := by
  induction t with
  | concatenated first second ihf ihs => simp only [forget, isIdentity, ihf, ihs]
  | passThrough leading inner trailing ih => exact ih
  | _ => rfl

@[simp] theorem ownMatrix?_forget (t : Transform α) :
    Builder.ownMatrix? t.forget = Builder.ownMatrix? t := by
  cases t <;> rfl

/-- What is written of a transform is no memory. -/
@[simp] theorem stepElements_forget (implied : Option Nat) (t : Transform α) :
    t.forget.stepElements implied = t.stepElements implied := by
  induction t with
  | concatenated first second ihf ihs => simp only [forget, stepElements, ihf, ihs]
  | passThrough leading inner trailing ih => simp only [forget, stepElements, ih]
  | _ => rfl

/-! ## Transforms that differ in memory at most -/

omit [Scalar α] in
theorem sourceDim_eq_of_forget (h : t.forget = u.forget) : t.sourceDim = u.sourceDim := by
  rw [← sourceDim_forget t, h, sourceDim_forget]

omit [Scalar α] in
theorem targetDim_eq_of_forget (h : t.forget = u.forget) : t.targetDim = u.targetDim := by
  rw [← targetDim_forget t, h, targetDim_forget]

theorem isIdentity_eq_of_forget (h : t.forget = u.forget) : t.isIdentity = u.isIdentity := by
  rw [← isIdentity_forget t, h, isIdentity_forget]

theorem ownMatrix?_eq_of_forget (h : t.forget = u.forget) :
    Builder.ownMatrix? t = Builder.ownMatrix? u := by
  rw [← ownMatrix?_forget t, h, ownMatrix?_forget]

/-- They are written alike. -/
theorem toElement_eq_of_forget (h : t.forget = u.forget) (implied : Option Nat) :
    t.toElement implied = u.toElement implied := by
  rw [toElement, ← stepElements_forget, h, stepElements_forget, toElement]

omit [Scalar α] in
theorem eq_passThrough_of_forget {leading trailing : Nat} {a : Transform α}
    (h : (passThrough leading a trailing).forget = u.forget) :
    ∃ b, u = passThrough leading b trailing ∧ a.forget = b.forget := by
  cases u with
  | passThrough leading' b trailing' =>
    obtain ⟨rfl, hinner, rfl⟩ := passThrough.inj h
    exact ⟨b, rfl, hinner⟩
  | _ => cases h

/-! ## Equality -/

theorem same_of_forget [Scalar.Discrete α] (h : u.forget = t.forget) : u.same t = true := by
  induction u generalizing t with
  -- Both must have the same constructor, and memory is all that can differ.
  | affine a =>
    cases t with
    | affine b => exact Affine.same_of_forget (affine.inj h)
    | _ => cases h
  | linear m =>
    cases t with
    | linear n =>
      cases h
      exact m.same_refl
    | _ => cases h
  | concatenated first second ihf ihs =>
    cases t with
    | concatenated first' second' =>
      obtain ⟨hfirst, hsecond⟩ := concatenated.inj h
      rw [same, Bool.and_eq_true]
      exact ⟨ihf hfirst, ihs hsecond⟩
    | _ => cases h
  | passThrough leading inner trailing ih =>
    cases t with
    | passThrough leading' inner' trailing' =>
      obtain ⟨rfl, hinner, rfl⟩ := passThrough.inj h
      simp only [same, beq_self_eq_true, Bool.true_and]
      exact ih hinner
    | _ => cases h
  | operation op =>
    cases t with
    | operation op' =>
      cases h
      exact op.same_refl
    | _ => cases h
  | inverseOperation op =>
    cases t with
    | inverseOperation op' =>
      cases h
      exact op.same_refl
    | _ => cases h

/-- Equality sees everything but memory, when operations are determined by what it compares. -/
theorem forget_eq_of_same [Scalar.Discrete α] {ops : Operation α → Prop} (hops : Determined ops)
    (hu : u.Sound ops) (ht : t.Sound ops) (h : u.same t = true) : u.forget = t.forget := by
  induction u generalizing t with
  | affine a =>
    cases t with
    -- Coefficients are compared, and inverses that are known are not.
    | affine b => exact congrArg affine (Affine.forget_eq_iff.2 (affine_eq_of_same h))
    | _ => cases h
  | linear m =>
    cases t with
    | linear n => exact congrArg linear (matrix_eq_of_same h)
    | _ => cases h
  | concatenated first second ihf ihs =>
    cases t with
    | concatenated first' second' =>
      rw [same, Bool.and_eq_true] at h
      rw [forget, forget, ihf hu.1 ht.1 h.1, ihs hu.2.1 ht.2.1 h.2]
    | _ => cases h
  | passThrough leading inner trailing ih =>
    cases t with
    | passThrough leading' inner' trailing' =>
      simp only [same, Bool.and_eq_true, beq_iff_eq] at h
      obtain ⟨⟨rfl, rfl⟩, hinner⟩ := h
      rw [forget, forget, ih (t := inner') hu ht hinner]
    | _ => cases h
  | operation op =>
    -- Names and parameters are compared, which determine the operation.
    cases t with
    | operation op' => rw [hops op op' hu ht h]
    | _ => cases h
  | inverseOperation op =>
    cases t with
    | inverseOperation op' => rw [hops op op' hu.1 ht.1 h]
    | _ => cases h

end Transform

end CoordTransform
