import CoordTransform.Proofs.Transform.Relation

/-!
# Simplified Transforms

A transform simplifies another one when it has the same dimensions and relates, in exact
arithmetic, all points that the other one relates, under every reading of operations. It may
relate more: a product of two matrices has images where the first of two divisors is zero.

Each way in which the builder simplifies a concatenation is a lemma here, and so is the
replacement of a transform by one that is the same.
-/

namespace CoordTransform.Transform

variable {α : Type} [Scalar α]

/-! ## Simplification -/

/-- `u` simplifies `t`. -/
structure Simplifies (u t : Transform α) : Prop where
  sourceDim_eq : u.sourceDim = t.sourceDim
  targetDim_eq : u.targetDim = t.targetDim
  relates : ∀ [Scalar.Exact α] {ρ : Reading α} {p q : List α}, t.Relates ρ p q → u.Relates ρ p q

namespace Simplifies

variable {t u v first second first' second' : Transform α}

theorem refl (t : Transform α) : t.Simplifies t := ⟨rfl, rfl, id⟩

theorem trans (huv : u.Simplifies v) (hvt : v.Simplifies t) : u.Simplifies t where
  sourceDim_eq := huv.sourceDim_eq.trans hvt.sourceDim_eq
  targetDim_eq := huv.targetDim_eq.trans hvt.targetDim_eq
  relates h := huv.relates (hvt.relates h)

/-! ## Parts -/

theorem concatenated (hfirst : first'.Simplifies first) (hsecond : second'.Simplifies second) :
    (concatenated first' second').Simplifies (.concatenated first second) where
  sourceDim_eq := hfirst.sourceDim_eq
  targetDim_eq := hsecond.targetDim_eq
  relates := by
    intro _ ρ p q hpq
    rcases hpq with ⟨r, hf, hs⟩
    exact ⟨r, hfirst.relates hf, hsecond.relates hs⟩

theorem passThrough (leading trailing : Nat) (h : u.Simplifies t) :
    (passThrough leading u trailing).Simplifies (.passThrough leading t trailing) where
  sourceDim_eq := by rw [sourceDim, sourceDim, h.sourceDim_eq]
  targetDim_eq := by rw [targetDim, targetDim, h.targetDim_eq]
  relates := by
    intro _ ρ p q hpq
    rcases hpq with ⟨before, r, s, after, hbefore, hafter, hp, hq, hinner⟩
    exact ⟨before, r, s, after, hbefore, hafter, hp, hq, h.relates hinner⟩

/-! ## Simpler forms -/

/-- Concatenation may be nested to the left. -/
theorem assoc_left : (Transform.concatenated (.concatenated t u) v).Simplifies
    (.concatenated t (.concatenated u v)) where
  sourceDim_eq := rfl
  targetDim_eq := rfl
  relates := by
    intro _ ρ p q hpq
    rcases hpq with ⟨r, ht, s, hu, hv⟩
    exact ⟨s, ⟨r, ht, hu⟩, hv⟩

/-- Concatenation may be nested to the right. -/
theorem assoc_right : (Transform.concatenated t (.concatenated u v)).Simplifies
    (.concatenated (.concatenated t u) v) where
  sourceDim_eq := rfl
  targetDim_eq := rfl
  relates := by
    intro _ ρ p q hpq
    rcases hpq with ⟨s, ⟨r, ht, hu⟩, hv⟩
    exact ⟨r, ht, s, hu, hv⟩

variable {direct reverse : Operation α → Prop}

/-- An identity in front may be dropped. -/
theorem of_identity_first (hwf : first.WellFormed direct reverse)
    (hdims : first.targetDim = second.sourceDim) (hid : first.isIdentity = true) :
    second.Simplifies (.concatenated first second) where
  sourceDim_eq := hdims.symm.trans (hwf.dims_of_isIdentity hid).symm
  targetDim_eq := rfl
  relates := by
    intro _ ρ p q hpq
    rcases hpq with ⟨r, hf, hs⟩
    rwa [hf.eq_of_isIdentity hid]

/-- An identity behind may be dropped. -/
theorem of_identity_second (hwf : second.WellFormed direct reverse)
    (hdims : first.targetDim = second.sourceDim) (hid : second.isIdentity = true) :
    first.Simplifies (.concatenated first second) where
  sourceDim_eq := rfl
  targetDim_eq := hdims.trans (hwf.dims_of_isIdentity hid)
  relates := by
    intro _ ρ p q hpq
    rcases hpq with ⟨r, hf, hs⟩
    rwa [← hs.eq_of_isIdentity hid]

/-- Two pass-throughs around the same components are one around the two inner transforms. -/
theorem merge_passThrough (leading trailing : Nat) :
    (Transform.passThrough leading (.concatenated first second) trailing).Simplifies
      (.concatenated (.passThrough leading first trailing)
        (.passThrough leading second trailing)) where
  sourceDim_eq := rfl
  targetDim_eq := rfl
  relates := by
    intro _ ρ p q hpq
    rcases hpq with ⟨_, ⟨before, r, s, after, hbefore, hafter, rfl, rfl, hf⟩, before', s', w,
      after', hbefore', hafter', hmid, rfl, hs⟩
    -- The middle point is cut twice, both times between components of the same numbers.
    obtain ⟨hleft, rfl⟩ := List.append_inj' hmid (hafter.trans hafter'.symm)
    obtain ⟨rfl, rfl⟩ := List.append_inj hleft (hbefore.trans hbefore'.symm)
    exact ⟨before, r, w, after, hbefore, hafter, rfl, rfl, s, hf, hs⟩

/-- A pass-through of no components is its inner transform. -/
theorem of_passThrough_nothing : t.Simplifies (.passThrough 0 t 0) where
  sourceDim_eq := by rw [sourceDim, Nat.zero_add, Nat.add_zero]
  targetDim_eq := by rw [targetDim, Nat.zero_add, Nat.add_zero]
  relates := by
    intro _ ρ p q hpq
    rcases hpq with ⟨before, r, s, after, hbefore, hafter, rfl, rfl, hinner⟩
    rw [List.length_eq_zero_iff] at hbefore hafter
    subst hbefore hafter
    simpa using hinner

end Simplifies

/-! ## Matrices -/

/-- A matrix leaf with its homogeneous matrix. -/
inductive HasMatrix : Transform α → DenseMatrix α → Prop where
  | affine (a : Affine α) : HasMatrix (.affine a) a.toMatrix
  | linear {m : DenseMatrix α} : 2 ≤ m.rows ∧ 2 ≤ m.cols → HasMatrix (.linear m) m

namespace HasMatrix

variable {t u v : Transform α} {m n : DenseMatrix α}

theorem sourceDim_eq (h : t.HasMatrix m) : m.cols = t.sourceDim + 1 := by
  cases h with
  | affine a => rfl
  | linear hm => exact (Nat.sub_add_cancel (by omega)).symm

theorem targetDim_eq (h : t.HasMatrix m) : m.rows = t.targetDim + 1 := by
  cases h with
  | affine a => rfl
  | linear hm => exact (Nat.sub_add_cancel (by omega)).symm

theorem two_le (h : t.HasMatrix m) : 2 ≤ m.rows ∧ 2 ≤ m.cols := by
  cases h with
  | affine a => exact ⟨(by decide : 2 ≤ 3), (by decide : 2 ≤ 3)⟩
  | linear hm => exact hm

theorem relates_iff [Scalar.Exact α] {ρ : Reading α} {p q : List α} (h : t.HasMatrix m) :
    t.Relates ρ p q ↔ Projects m p q := by
  cases h with
  | affine a => exact relates_affine_iff
  | linear hm => exact relates_linear_iff (by omega)

end HasMatrix

/-- A matrix with room for a last row and column is one of a transform. -/
theorem exists_ofMatrix {m : DenseMatrix α} (h : 2 ≤ m.rows ∧ 2 ≤ m.cols) :
    ∃ t, ofMatrix m = .ok t := by
  unfold ofMatrix
  split
  · next hplane => exact ⟨_, by rw [Affine.ofMatrix, if_pos hplane]; rfl⟩
  · refine ⟨linear m, ?_⟩
    rw [linear?, if_neg (by simp only [Bool.or_eq_true, decide_eq_true_eq]; omega)]

theorem ofMatrix_dims {m : DenseMatrix α} {t : Transform α} (h : ofMatrix m = .ok t) :
    m.cols = t.sourceDim + 1 ∧ m.rows = t.targetDim + 1 := by
  obtain ⟨a, ha, rfl⟩ | ⟨rfl, hm⟩ := ofMatrix_eq_ok h
  · -- An affine map of the plane is made of a matrix of three rows and columns only.
    unfold Affine.ofMatrix at ha
    split at ha
    · next hplane =>
      simp only [Affine.isPlaneMatrix, Bool.and_eq_true, beq_iff_eq] at hplane
      exact ⟨hplane.1.2, hplane.1.1⟩
    · cases ha
  · exact ⟨(HasMatrix.linear hm).sourceDim_eq, (HasMatrix.linear hm).targetDim_eq⟩

/-- Two matrices may be multiplied, the second one from the left. -/
theorem Simplifies.product {first second t : Transform α} {m n : DenseMatrix α}
    (hm : first.HasMatrix m) (hn : second.HasMatrix n) (ht : ofMatrix (n.product m) = .ok t) :
    t.Simplifies (.concatenated first second) where
  sourceDim_eq := Nat.add_right_cancel ((ofMatrix_dims ht).1.symm.trans hm.sourceDim_eq)
  targetDim_eq := Nat.add_right_cancel ((ofMatrix_dims ht).2.symm.trans hn.targetDim_eq)
  relates := by
    -- Homogeneous products pass the point between the two maps without dividing there.
    intro _ ρ p q hpq
    rcases hpq with ⟨r, hf, hs⟩
    exact (relates_ofMatrix_iff ht).2 ((hm.relates_iff.1 hf).product (hn.relates_iff.1 hs))

/-! ## Equal transforms -/

/-- Operations of one method with the same parameters are the same map. -/
def Determined (ops : Operation α → Prop) : Prop :=
  ∀ o o', ops o → ops o' → o.same o' = true → o = o'

theorem affine_eq_of_same [Scalar.Discrete α] {a b : Affine α} (h : a.same b = true) :
    a.toAffineCoefficients = b.toAffineCoefficients := by
  obtain ⟨⟨a00, a01, a02, a10, a11, a12⟩, known⟩ := a
  obtain ⟨⟨b00, b01, b02, b10, b11, b12⟩, known'⟩ := b
  simp only [Affine.same, AffineCoefficients.toList, List.zip_cons_cons, List.zip_nil_right,
    List.all_cons, List.all_nil, Bool.and_true, Bool.and_eq_true, Scalar.same_iff_eq] at h
  obtain ⟨rfl, rfl, rfl, rfl, rfl, rfl⟩ := h
  rfl

theorem matrix_eq_of_same [Scalar.Discrete α] {m n : DenseMatrix α} (h : m.same n = true) :
    m = n := by
  simp only [DenseMatrix.same, DenseMatrix.sameShape, DenseMatrix.allPositions, Bool.and_eq_true,
    beq_iff_eq, List.all_eq_true, List.mem_range, Scalar.same_iff_eq] at h
  exact DenseMatrix.ext_entry h.1.1 h.1.2 fun r c hr hc => h.2 r hr c hc

/-- A transform may be replaced by one that is the same. -/
theorem Simplifies.of_same {ops : Operation α → Prop} (hops : Determined ops)
    {t u : Transform α} (hu : u.Sound ops) (ht : t.Sound ops) (h : u.same t = true) :
    u.Simplifies t := by
  -- Transforms that are the same have the same form, all the way down to the leaves.
  induction u generalizing t with
  | affine a =>
    cases t with
    | affine b =>
      refine ⟨rfl, rfl, ?_⟩
      intro _ ρ p q hpq
      rcases hpq with ⟨x, y, rfl, rfl⟩
      refine ⟨x, y, rfl, ?_⟩
      rw [Affine.apply, Affine.apply, affine_eq_of_same h]
    | _ => cases h
  | linear m =>
    cases t with
    | linear n =>
      have hshape : m.rows = n.rows ∧ m.cols = n.cols := by
        simp only [same, DenseMatrix.same, DenseMatrix.sameShape, Bool.and_eq_true,
          beq_iff_eq] at h
        exact h.1
      refine ⟨congrArg (· - 1) hshape.2, congrArg (· - 1) hshape.1, ?_⟩
      intro _ ρ p q hq
      rwa [matrix_eq_of_same h]
    | _ => cases h
  | concatenated first second ihf ihs =>
    cases t with
    | concatenated first' second' =>
      rw [same, Bool.and_eq_true] at h
      exact (ihf hu.1 ht.1 h.1).concatenated (ihs hu.2.1 ht.2.1 h.2)
    | _ => cases h
  | passThrough leading inner trailing ih =>
    cases t with
    | passThrough leading' inner' trailing' =>
      simp only [same, Bool.and_eq_true, beq_iff_eq] at h
      obtain ⟨⟨rfl, rfl⟩, hinner⟩ := h
      exact (ih (t := inner') hu ht hinner).passThrough _ _
    | _ => cases h
  | operation op =>
    cases t with
    | operation op' =>
      rw [hops op op' hu ht h]
      exact .refl _
    | _ => cases h
  | inverseOperation op =>
    cases t with
    | inverseOperation op' =>
      rw [hops op op' hu.1 ht.1 h]
      exact .refl _
    | _ => cases h

/-! ## Images -/

/-- A simplified transform has the images of the transform. -/
theorem Simplifies.apply [Scalar.Exact α] {ops : Operation α → Prop}
    (hfits : ∀ op, ops op → op.Fits) {t u : Transform α} (h : u.Simplifies t)
    (ht : t.Sound ops) {p q : List α} (hq : t.apply p = .ok q) : u.apply p = .ok q :=
  (h.relates (relates_of_apply (Reading.computed_covers _ _) hfits (fun op hop => hfits op hop.1)
    ht hq)).apply

end CoordTransform.Transform
