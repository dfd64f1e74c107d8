import CoordTransform.Proofs.Projection
import CoordTransform.Proofs.Transform.WellFormed

/-!
# The Points a Transform Relates

A transform read as a relation between points. The relation follows the structure of the
transform and leaves open what its operations relate, so that one induction serves several
readings of them:

* `Reading.computed`: what the operation computes, in the direction in which it is applied;
* `Reading.paired`: what it computes there, where the opposite map takes the image back.

For every reading, related points are computed: `Relates.apply`.
-/

namespace CoordTransform

variable {α : Type}

/-! ## Readings of operations -/

/-- A choice of related points for the operations, applied forward and applied backward. Only
points that the operation computes are related. -/
structure Reading (α : Type) where
  direct : Operation α → List α → List α → Prop
  reverse : Operation α → List α → List α → Prop
  forward_of_direct : ∀ {op p q}, direct op p q → op.forward p = .ok q
  backward_of_reverse : ∀ {op p q}, reverse op p q → op.backward p = .ok q

namespace Reading

/-- An operation relates the points that it computes from each other. -/
def computed : Reading α where
  direct op p q := op.forward p = .ok q
  reverse op p q := op.backward p = .ok q
  forward_of_direct := id
  backward_of_reverse := id

/-- An operation relates the points that it computes from each other in both directions; one
without a backward map, those that it computes. -/
def paired : Reading α where
  direct op p q := op.forward p = .ok q ∧ (op.isInvertible = true → op.backward q = .ok p)
  reverse op p q := op.backward p = .ok q ∧ op.forward q = .ok p
  forward_of_direct := And.left
  backward_of_reverse := And.left

/-- A reading relates all points that operations with these properties compute. -/
structure Covers (ρ : Reading α) (direct reverse : Operation α → Prop) : Prop where
  direct : ∀ {op p q}, direct op → p.length = op.sourceDim → op.forward p = .ok q →
    ρ.direct op p q
  reverse : ∀ {op p q}, reverse op → p.length = op.targetDim → op.backward p = .ok q →
    ρ.reverse op p q

theorem Covers.mono {ρ : Reading α} {direct direct' reverse reverse' : Operation α → Prop}
    (h : ρ.Covers direct reverse) (hdirect : ∀ op, direct' op → direct op)
    (hreverse : ∀ op, reverse' op → reverse op) : ρ.Covers direct' reverse' :=
  ⟨fun hop => h.direct (hdirect _ hop), fun hop => h.reverse (hreverse _ hop)⟩

theorem computed_covers (direct reverse : Operation α → Prop) :
    computed.Covers direct reverse :=
  ⟨fun _ _ h => h, fun _ _ h => h⟩

theorem paired_covers :
    (paired (α := α)).Covers Operation.BackwardUndoes Operation.ForwardUndoes :=
  ⟨fun hop hp h => ⟨h, fun hinvertible => hop hinvertible _ _ hp h⟩,
    fun hop hp h => ⟨h, hop _ _ hp h⟩⟩

end Reading

namespace Transform

variable [Scalar α]

/-! ## The relation -/

/-- The points that a transform relates, under a reading of its operations. -/
def Relates (ρ : Reading α) : Transform α → List α → List α → Prop
  | affine a, p, q => ∃ x y, p = [x, y] ∧ q = [(a.apply ⟨x, y⟩).x, (a.apply ⟨x, y⟩).y]
  | linear m, p, q => p.length + 1 = m.cols ∧ applyMatrix m p = .ok q
  | concatenated first second, p, q => ∃ r, first.Relates ρ p r ∧ second.Relates ρ r q
  | passThrough leading inner trailing, p, q => ∃ before r s after,
      before.length = leading ∧ after.length = trailing ∧
      p = before ++ r ++ after ∧ q = before ++ s ++ after ∧ inner.Relates ρ r s
  | operation op, p, q => p.length = op.sourceDim ∧ q.length = op.targetDim ∧ ρ.direct op p q
  | inverseOperation op, p, q =>
    p.length = op.targetDim ∧ q.length = op.sourceDim ∧ ρ.reverse op p q

variable {ρ : Reading α} {t u : Transform α} {p q : List α}

theorem length_of_applyMatrix {m : DenseMatrix α} (h : applyMatrix m p = .ok q) :
    q.length = m.rows - 1 := by
  unfold applyMatrix at h
  simp only at h
  split at h
  · cases h
  · cases h
    rw [List.length_map, List.length_range]

/-- Related points have the dimensions of the transform. -/
theorem Relates.length (h : t.Relates ρ p q) :
    p.length = t.sourceDim ∧ q.length = t.targetDim := by
  induction t generalizing p q with
  | affine a =>
    obtain ⟨x, y, rfl, rfl⟩ := h
    exact ⟨rfl, rfl⟩
  | linear m =>
    obtain ⟨hp, hq⟩ := h
    exact ⟨Nat.eq_sub_of_add_eq hp, length_of_applyMatrix hq⟩
  -- The point in the middle is forgotten, its dimension is that of both steps.
  | concatenated first second ihf ihs =>
    obtain ⟨r, hf, hs⟩ := h
    exact ⟨(ihf hf).1, (ihs hs).2⟩
  | passThrough leading inner trailing ih =>
    -- What is copied has equal length on both sides.
    obtain ⟨before, r, s, after, rfl, rfl, rfl, rfl, hinner⟩ := h
    obtain ⟨hr, hs⟩ := ih hinner
    simp only [List.length_append, hr, hs]
    exact ⟨rfl, rfl⟩
  | operation op => exact ⟨h.1, h.2.1⟩
  | inverseOperation op => exact ⟨h.1, h.2.1⟩

/-! ## The relation and the computation -/

theorem Relates.image (h : t.Relates ρ p q) : t.image p = .ok q := by
  induction t generalizing p q with
  | affine a =>
    obtain ⟨x, y, rfl, rfl⟩ := h
    rfl
  | linear m => exact h.2
  | concatenated first second ihf ihs =>
    obtain ⟨r, hf, hs⟩ := h
    rw [Transform.image, ihf hf]
    exact ihs hs
  | passThrough leading inner trailing ih =>
    obtain ⟨before, r, s, after, rfl, rfl, rfl, rfl, hinner⟩ := h
    -- The parts of the point are cut out where they were put together.
    have hr : r.length = inner.sourceDim := hinner.length.1
    simp only [Transform.image, List.append_assoc, List.drop_left, List.take_left, ← hr]
    rw [ih hinner]
    rfl
  | operation op => exact ρ.forward_of_direct h.2.2
  | inverseOperation op => exact ρ.backward_of_reverse h.2.2

/-- Related points are computed. -/
theorem Relates.apply (h : t.Relates ρ p q) : t.apply p = .ok q := by
  unfold Transform.apply
  rw [if_pos (beq_iff_eq.2 h.length.1)]
  exact h.image

variable {direct reverse : Operation α → Prop}

/-- Computed points are related, where the operations fit and the reading covers them. -/
theorem relates_of_image (hρ : ρ.Covers direct reverse) (hdirect : ∀ op, direct op → op.Fits)
    (hreverse : ∀ op, reverse op → op.Fits) (ht : t.WellFormed direct reverse)
    (hp : p.length = t.sourceDim) (h : t.image p = .ok q) : t.Relates ρ p q := by
  induction t generalizing p q with
  | affine a =>
    obtain ⟨x, y, rfl⟩ := List.length_eq_two.1 hp
    cases h
    exact ⟨x, y, rfl, rfl⟩
  | linear m =>
    -- A matrix has at least two columns, so the subtraction in its dimension is exact.
    have hcols : p.length + 1 = m.cols := by
      change p.length = m.cols - 1 at hp
      have := ht.2
      omega
    exact ⟨hcols, h⟩
  | concatenated first second ihf ihs =>
    obtain ⟨hf, hs, hdims⟩ := ht
    obtain ⟨r, hr, hq⟩ := bind_eq_ok.1 h
    have hfirst := ihf hf hp hr
    exact ⟨r, hfirst, ihs hs (hfirst.length.2.trans hdims) hq⟩
  | passThrough leading inner trailing ih =>
    obtain ⟨s, hs, hq⟩ := bind_eq_ok.1 h
    cases hq
    change p.length = leading + inner.sourceDim + trailing at hp
    -- The point is cut where the computation cuts it.
    refine ⟨p.take leading, (p.drop leading).take inner.sourceDim, s,
      (p.drop leading).drop inner.sourceDim, ?_, ?_, ?_, rfl, ih ht ?_ hs⟩
    · rw [List.length_take]
      omega
    · rw [List.length_drop, List.length_drop]
      omega
    · rw [List.append_assoc, List.take_append_drop, List.take_append_drop]
    · rw [List.length_take, List.length_drop]
      omega
  | operation op => exact ⟨hp, (hdirect op ht).forward hp h, hρ.direct ht hp h⟩
  | inverseOperation op => exact ⟨hp, (hreverse op ht).backward hp h, hρ.reverse ht hp h⟩

theorem relates_of_apply (hρ : ρ.Covers direct reverse) (hdirect : ∀ op, direct op → op.Fits)
    (hreverse : ∀ op, reverse op → op.Fits) (ht : t.WellFormed direct reverse)
    (h : t.apply p = .ok q) : t.Relates ρ p q := by
  unfold Transform.apply at h
  split at h
  · next hp => exact relates_of_image hρ hdirect hreverse ht (beq_iff_eq.1 hp) h
  · cases h

/-! ## Identities -/

/-- The structure of an identity has equal dimensions. -/
theorem WellFormed.dims_of_isIdentity (ht : t.WellFormed direct reverse)
    (hid : t.isIdentity = true) : t.sourceDim = t.targetDim := by
  induction t with
  | affine a => rfl
  | linear m =>
    rw [isIdentity, Bool.and_eq_true] at hid
    -- The matrix of an identity is square.
    have hsquare : m.rows = m.cols := eq_of_beq hid.1
    rw [sourceDim, targetDim, hsquare]
  | concatenated first second ihf ihs =>
    rw [isIdentity, Bool.and_eq_true] at hid
    exact (ihf ht.1 hid.1).trans (ht.2.2.trans (ihs ht.2.1 hid.2))
  | passThrough leading inner trailing ih => rw [sourceDim, targetDim, ih ht hid]
  | operation op => cases hid
  | inverseOperation op => cases hid

section

variable [Scalar.Exact α]

theorem eq_identity_of_affineIsIdentity {a : Affine α} (h : a.isIdentity 0 = true) :
    a.toAffineCoefficients = .identity := by
  obtain ⟨⟨c00, c01, c02, c10, c11, c12⟩, known⟩ := a
  simp only [Affine.isIdentity, AffineCoefficients.toList, AffineCoefficients.identity,
    List.zip_cons_cons, List.zip_nil_right, List.all_cons, List.all_nil, Bool.and_true,
    Bool.and_eq_true, Scalar.within_zero_iff] at h
  obtain ⟨rfl, rfl, rfl, rfl, rfl, rfl⟩ := h
  rfl

/-- A matrix leaf relates the points that its matrix takes to each other. -/
theorem relates_linear_iff {m : DenseMatrix α} (hrows : 0 < m.rows) :
    (linear m).Relates ρ p q ↔ Projects m p q :=
  ⟨fun h => (applyMatrix_eq_ok_iff h.1 hrows).1 h.2,
    fun h => ⟨h.1, (applyMatrix_eq_ok_iff h.1 hrows).2 h⟩⟩

theorem relates_affine_iff {a : Affine α} :
    (affine a).Relates ρ p q ↔ Projects a.toMatrix p q :=
  (projects_toMatrix_iff a).symm

/-- The transform of a matrix relates the points that the matrix takes to each other. -/
theorem relates_ofMatrix_iff {m : DenseMatrix α} (h : ofMatrix m = .ok t) :
    t.Relates ρ p q ↔ Projects m p q := by
  obtain ⟨a, ha, rfl⟩ | ⟨rfl, hm⟩ := ofMatrix_eq_ok h
  · rw [relates_affine_iff, toMatrix_of_ofMatrix ha]
  · exact relates_linear_iff (by omega)

/-- An identity by structure moves no point. -/
theorem Relates.eq_of_isIdentity (h : t.Relates ρ p q) (hid : t.isIdentity = true) : p = q := by
  induction t generalizing p q with
  | affine a =>
    obtain ⟨x, y, rfl, rfl⟩ := h
    rw [Affine.apply, eq_identity_of_affineIsIdentity hid]
    simp [AffineCoefficients.apply, AffineCoefficients.identity]
  | linear m =>
    rw [isIdentity, Bool.and_eq_true] at hid
    -- A square matrix equal to the identity leaves the coordinates and divides by one.
    have hsquare : m.rows = m.cols := eq_of_beq hid.1
    have hrows : 0 < m.rows := by
      have := h.1
      omega
    have hprojects := (relates_linear_iff hrows).1 h
    rw [eq_identity_of_isIdentity hid.1 hid.2] at hprojects
    exact hprojects.eq_of_identity
  | concatenated first second ihf ihs =>
    rw [isIdentity, Bool.and_eq_true] at hid
    obtain ⟨r, hf, hs⟩ := h
    exact (ihf hf hid.1).trans (ihs hs hid.2)
  | passThrough leading inner trailing ih =>
    obtain ⟨before, r, s, after, -, -, rfl, rfl, hinner⟩ := h
    -- The inner part stays, and the outer ones are copied.
    rw [ih hinner hid]
  | operation op => cases hid
  | inverseOperation op => cases hid

end

end Transform

end CoordTransform
