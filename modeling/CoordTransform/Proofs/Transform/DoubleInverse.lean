import CoordTransform.Proofs.Double
import CoordTransform.Proofs.Shift
import CoordTransform.Proofs.Transform.Settling

/-!
# Inverting Twice

The inverse of the inverse of a transform is the transform, with exactly its coefficients. No
arithmetic has this property. It comes from memory alone: the inverse of an affine map remembers the
coefficients it came from, and gives them back when it is inverted.

Two things could spoil it. A matrix has no memory, so there must be none. And identities are their
own inverses: an inverse that passes for an identity would be given back in place of the
transform, so no affine map but an identity may have such an inverse.

Affine maps also remember inverses that were computed for earlier calls. A call `Teaches` a
transform at most that. Since a remembered inverse is the one that would be computed, no number of
calls in between makes a difference.
-/

namespace CoordTransform

variable {α : Type} [Scalar α]

namespace Affine

theorem settle_settle (a : Affine α) : a.settle.settle = a.settle := by
  obtain ⟨c, known⟩ := a
  cases known with
  | none => cases h : c.inverse? <;> simp [settle, h]
  | some d => rfl

/-- The inverse of an affine map gives the coefficients of the map back. -/
theorem inverse_inverse {a b : Affine α} (h : a.inverse = .ok b) :
    b.inverse = .ok { a.toAffineCoefficients with
      knownInverse := some b.toAffineCoefficients } := by
  obtain ⟨c, -, rfl⟩ := inverse_eq_ok h
  rfl

end Affine

namespace Transform

/-! ## Calls in between -/

/-- After a call, an affine map somewhere in the transform may remember the inverse that was
computed for it. -/
inductive Teaches : Transform α → Transform α → Prop where
  | affine (a : Affine α) : Teaches (.affine a) (.affine a.settle)
  | first {t t' second : Transform α} : Teaches t t' →
      Teaches (.concatenated t second) (.concatenated t' second)
  | second {first t t' : Transform α} : Teaches t t' →
      Teaches (.concatenated first t) (.concatenated first t')
  | inner {leading trailing : Nat} {t t' : Transform α} : Teaches t t' →
      Teaches (.passThrough leading t trailing) (.passThrough leading t' trailing)

variable {t t' u first second : Transform α}

theorem Teaches.settle_eq (h : Teaches t t') : t.settle = t'.settle := by
  induction h with
  | affine a => rw [settle, settle, a.settle_settle]
  | first _ ih => rw [settle, settle, ih]
  | second _ ih => rw [settle, settle, ih]
  | inner _ ih => rw [settle, settle, ih]

/-- Any number of calls leaves the settled transform alone. -/
theorem settle_eq_of_calls (h : Relation.ReflTransGen Teaches t t') : t.settle = t'.settle := by
  induction h with
  | refl => rfl
  | tail _ hstep ih => exact ih.trans hstep.settle_eq

/-! ## Inverses, form by form -/

theorem inverse_of_isIdentity (h : t.isIdentity = true) : t.inverse = .ok t := by
  unfold inverse
  exact if_pos h

theorem inverse_affine_eq_ok {a : Affine α} (hid : (affine a).isIdentity = false) :
    (affine a).inverse = .ok u ↔ ∃ b, a.inverse = .ok b ∧ affine b = u := by
  unfold inverse
  rw [hid, if_neg (by decide), mapError_eq_ok, bind_eq_ok]
  simp only [pure, Except.pure, Except.ok.injEq]

theorem inverse_concatenated_eq_ok (hid : (concatenated first second).isIdentity = false) :
    (concatenated first second).inverse = .ok u ↔ ∃ s f, second.inverse = .ok s ∧
      first.inverse = .ok f ∧ s.targetDim = f.sourceDim ∧ u = concatenated s f := by
  rw [inverse.eq_def, hid, if_neg (by decide), mapError_eq_ok]
  simp only [bind_eq_ok, concatenate_eq_ok]
  constructor
  · rintro ⟨s, hs, f, hf, h⟩
    exact ⟨s, f, hs, hf, h⟩
  · rintro ⟨s, f, hs, hf, h⟩
    exact ⟨s, hs, f, hf, h⟩

theorem inverse_passThrough_eq_ok {leading trailing : Nat} {inner : Transform α}
    (hid : (passThrough leading inner trailing).isIdentity = false) :
    (passThrough leading inner trailing).inverse = .ok u ↔
      ∃ i, inner.inverse = .ok i ∧ passThrough leading i trailing = u := by
  rw [inverse.eq_def, hid, if_neg (by decide), mapError_eq_ok, bind_eq_ok]
  simp only [pure, Except.pure, Except.ok.injEq]

theorem inverse_operation_eq_ok {op : Operation α} :
    (operation op).inverse = .ok u ↔ op.isInvertible = true ∧ inverseOperation op = u := by
  unfold inverse
  rw [isIdentity, if_neg (by decide), mapError_eq_ok]
  dsimp only
  split
  · next h => simp [h]
  · next h => simp [h]

theorem inverse_inverseOperation (op : Operation α) :
    (inverseOperation op).inverse = .ok (operation op) := rfl

/-! ## Inverses give the transform back -/

/-- No leaf is a matrix. -/
def MatrixFree : Transform α → Prop
  | linear _ => False
  | concatenated first second => first.MatrixFree ∧ second.MatrixFree
  | passThrough _ inner _ => inner.MatrixFree
  | _ => True

/-- The affine maps in the leaves. -/
def affineLeaves : Transform α → List (Affine α)
  | affine a => [a]
  | concatenated first second => first.affineLeaves ++ second.affineLeaves
  | passThrough _ inner _ => inner.affineLeaves
  | _ => []

/-- No affine leaf but an identity has an inverse that passes for an identity. -/
def KeepsIdentities (t : Transform α) : Prop :=
  ∀ a ∈ t.affineLeaves, a.isIdentity 0 = false → ∀ b, a.inverse = .ok b → b.isIdentity 0 = false

theorem keepsIdentities_concatenated :
    (concatenated first second).KeepsIdentities ↔
      first.KeepsIdentities ∧ second.KeepsIdentities := by
  unfold KeepsIdentities
  rw [affineLeaves, List.forall_mem_append]

/-- The inverse has the identities of the transform and differs from it in memory at most when it
is inverted. -/
theorem forget_inverse_inverse {ops : Operation α → Prop} (ht : t.Sound ops)
    (hfree : t.MatrixFree) (hkeeps : t.KeepsIdentities) (h : t.inverse = .ok u) :
    u.isIdentity = t.isIdentity ∧ ∃ v, u.inverse = .ok v ∧ v.forget = t.forget := by
  induction t generalizing u with
  | linear m => exact hfree.elim
  | operation op =>
    obtain ⟨-, rfl⟩ := inverse_operation_eq_ok.1 h
    exact ⟨rfl, _, inverse_inverseOperation op, rfl⟩
  | inverseOperation op =>
    cases h
    exact ⟨rfl, _, inverse_operation_eq_ok.2 ⟨ht.2, rfl⟩, rfl⟩
  | affine a =>
    cases hid : (affine a).isIdentity with
    | true =>
      cases (inverse_of_isIdentity hid).symm.trans h
      exact ⟨hid, _, h, rfl⟩
    | false =>
      obtain ⟨b, hb, rfl⟩ := (inverse_affine_eq_ok hid).1 h
      have hb_id : (affine b).isIdentity = false := hkeeps a (by simp [affineLeaves]) hid b hb
      exact ⟨hb_id, _, (inverse_affine_eq_ok hb_id).2 ⟨_, Affine.inverse_inverse hb, rfl⟩, rfl⟩
  | concatenated first second ihf ihs =>
    cases hid : (concatenated first second).isIdentity with
    | true =>
      cases (inverse_of_isIdentity hid).symm.trans h
      exact ⟨hid, _, h, rfl⟩
    | false =>
      obtain ⟨s, f, hs, hf, -, rfl⟩ := (inverse_concatenated_eq_ok hid).1 h
      obtain ⟨hkeepsFirst, hkeepsSecond⟩ := keepsIdentities_concatenated.1 hkeeps
      obtain ⟨hsid, vs, hvs, hvs_forget⟩ := ihs ht.2.1 hfree.2 hkeepsSecond hs
      obtain ⟨hfid, vf, hvf, hvf_forget⟩ := ihf ht.1 hfree.1 hkeepsFirst hf
      have hid' : (concatenated s f).isIdentity = false := by
        rw [isIdentity, hsid, hfid, Bool.and_comm]
        exact hid
      -- The order is turned round twice, and the parts meet where those of the transform do.
      have hdims : vf.targetDim = vs.sourceDim :=
        (targetDim_eq_of_forget hvf_forget).trans
          (ht.2.2.trans (sourceDim_eq_of_forget hvs_forget).symm)
      refine ⟨hid', concatenated vf vs, (inverse_concatenated_eq_ok hid').2
        ⟨vf, vs, hvf, hvs, hdims, rfl⟩, ?_⟩
      rw [forget, forget, hvf_forget, hvs_forget]
  | passThrough leading inner trailing ih =>
    cases hid : (passThrough leading inner trailing).isIdentity with
    | true =>
      cases (inverse_of_isIdentity hid).symm.trans h
      exact ⟨hid, _, h, rfl⟩
    | false =>
      obtain ⟨i, hi, rfl⟩ := (inverse_passThrough_eq_ok hid).1 h
      obtain ⟨hiid, v, hv, hv_forget⟩ := ih ht hfree hkeeps hi
      have hid' : (passThrough leading i trailing).isIdentity = false := hiid.trans hid
      refine ⟨hid', passThrough leading v trailing,
        (inverse_passThrough_eq_ok hid').2 ⟨v, hv, rfl⟩, ?_⟩
      rw [forget, forget, hv_forget]

/-- When a transform without matrices has an inverse, the inverse has an inverse, which is the
transform again with all of its coefficients, whatever was asked of both before. -/
theorem inverse_inverse_restores [Scalar.Discrete α] {ops : Operation α → Prop} (ht : t.Built ops)
    (hfree : t.MatrixFree) (hkeeps : t.KeepsIdentities) {u₀ : Transform α}
    (h : t.inverse = .ok u₀) (hcalls : Relation.ReflTransGen Teaches t t') :
    ∃ u, t'.inverse = .ok u ∧ ∀ u', Relation.ReflTransGen Teaches u u' →
      ∃ v, u'.inverse = .ok v ∧ v.forget = t.forget ∧ v.same t = true := by
  obtain ⟨-, v₀, hv₀, hv₀_forget⟩ := forget_inverse_inverse ht.sound hfree hkeeps h
  obtain ⟨u, hu, hsettle⟩ := (inverse_of_settle (settle_eq_of_calls hcalls)).exists_of_ok h
  refine ⟨u, hu, fun u' hcalls' => ?_⟩
  -- Both inverses are settled like those that are taken without any calls.
  obtain ⟨v, hv, hvsettle⟩ := (inverse_of_settle
    (hsettle.trans (settle_eq_of_calls hcalls'))).exists_of_ok hv₀
  have hforget : v.forget = t.forget := (forget_eq_of_settle hvsettle).symm.trans hv₀_forget
  exact ⟨v, hv, hforget, same_of_forget hforget⟩

end Transform

namespace Double

/-- A map with negative zeros. -/
def scaling : Affine Float := .ofCoefficients ⟨49, -0, 3, 0, 0.1, -0⟩

-- Without memory, inverting twice would not restore the coefficients.
example : (scaling.toAffineCoefficients.inverse?.bind (·.inverse?)) ≠
    some scaling.toAffineCoefficients := by decide +kernel

/-- The map of the first two components, and a shift of the third one. -/
def scaledAndShifted : Transform Float :=
  .concatenated (.passThrough 0 (.affine scaling) 1)
    (.passThrough 2 (.operation (Shift.operation 1)) 0)

theorem scaledAndShifted_built : scaledAndShifted.Built fun op => op.isInvertible = true :=
  .concatenate (.passThrough 0 1 (.affine (.ofCoefficients _)))
    (.passThrough 2 0 (.operation (by rfl))) (Transform.concatenate_eq_ok.2 ⟨rfl, rfl⟩)

theorem scaledAndShifted_keepsIdentities : scaledAndShifted.KeepsIdentities := by
  intro a ha _ b hb
  obtain rfl : a = scaling := by simpa [scaledAndShifted, Transform.affineLeaves] using ha
  have h : scaling.inverse.toOption.map (·.isIdentity 0) = some false := by decide +kernel
  rw [hb] at h
  exact Option.some.inj h

/-- The inverse of the map was asked for before. -/
theorem inverse_inverse_restores_scaled :
    ∃ u v, (Transform.concatenated (.passThrough 0 (.affine scaling.settle) 1)
        (.passThrough 2 (.operation (Shift.operation 1)) 0)).inverse = .ok u ∧
      u.inverse = .ok v ∧ v.forget = scaledAndShifted.forget := by
  -- The map has an inverse, since its factors and the operation inside of it have one.
  have hinvertible : scaledAndShifted.inverse.toBool = true := by decide +kernel
  cases h : scaledAndShifted.inverse with
  | error e =>
    rw [h] at hinvertible
    cases hinvertible
  | ok u₀ =>
    obtain ⟨u, hu, hback⟩ := Transform.inverse_inverse_restores scaledAndShifted_built
      ⟨trivial, trivial⟩ scaledAndShifted_keepsIdentities h
      (.single (.first (.inner (.affine scaling))))
    obtain ⟨v, hv, hforget, -⟩ := hback u .refl
    exact ⟨u, v, hu, hv, hforget⟩

end Double

end CoordTransform
