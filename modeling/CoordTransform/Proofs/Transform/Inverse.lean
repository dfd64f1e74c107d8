import CoordTransform.Proofs.Rational
import CoordTransform.Proofs.Shift
import CoordTransform.Proofs.Transform.Relation

/-!
# Inverses Undo Transforms

The inverse of a transform relates the points of the transform the other way round, under the
paired reading of operations. The proof follows the forms of an inverse: it reverses the steps of
a concatenation, keeps the place of an inner transform, and inverts matrices, where the divisor of
the way back is the reciprocal of the divisor of the way there.
-/

namespace CoordTransform.Transform

variable {α : Type} [Scalar α] [Scalar.Exact α] {t u : Transform α} {p q : List α}

/-- The inverse of a transform relates its points the other way round. -/
theorem InverseOf.relates {direct reverse : Operation α → Prop} (hu : InverseOf t u)
    (ht : t.WellFormed direct reverse) (h : t.Relates .paired p q) : u.Relates .paired q p := by
  induction hu generalizing p q with
  | identity hid =>
    have heq := h.eq_of_isIdentity hid
    subst heq
    exact h
  | affine hb =>
    obtain ⟨x, y, rfl, rfl⟩ := h
    refine ⟨_, _, rfl, ?_⟩
    rw [Affine.Built.apply_inverse ht hb]
  | linear hn hshape =>
    have hm : 2 ≤ _ ∧ 2 ≤ _ := ht
    exact (relates_linear_iff (by omega)).2 (((relates_linear_iff (by omega)).1 h).inverse hn)
  -- The way back passes through the same point between the steps.
  | concatenated _ _ _ ihf ihs =>
    obtain ⟨r, hf, hs⟩ := h
    exact ⟨r, ihs ht.2.1 hs, ihf ht.1 hf⟩
  | passThrough _ ih =>
    obtain ⟨before, r, s, after, hbefore, hafter, rfl, rfl, hinner⟩ := h
    exact ⟨before, s, r, after, hbefore, hafter, rfl, rfl, ih ht hinner⟩
  -- The paired reading holds both directions ready.
  | operation hinvertible =>
    obtain ⟨hp, hq, hforward, hbackward⟩ := h
    exact ⟨hq, hp, hbackward hinvertible, hforward⟩
  | inverseOperation =>
    obtain ⟨hp, hq, hbackward, hforward⟩ := h
    exact ⟨hq, hp, hforward, fun _ => hbackward⟩

variable {ops : Operation α → Prop}

/-- The inverse of a built transform takes every image back, when the maps of its operations take
their images back. -/
theorem apply_inverse_of_apply (hfits : ∀ op, ops op → op.Fits)
    (hundo : ∀ op, ops op → op.BackwardUndoes ∧ op.ForwardUndoes) (ht : t.Built ops)
    (hu : t.inverse = .ok u) (h : t.apply p = .ok q) : u.apply q = .ok p := by
  have hlaws : t.WellFormed (fun op => op.Fits ∧ op.BackwardUndoes)
      (fun op => op.Fits ∧ op.ForwardUndoes) :=
    ht.sound.mono (fun op hop => ⟨hfits op hop, (hundo op hop).1⟩)
      (fun op hop => ⟨hfits op hop.1, (hundo op hop.1).2⟩)
  have hrelated : t.Relates .paired p q :=
    relates_of_apply (Reading.paired_covers.mono (fun _ => And.right) (fun _ => And.right))
      (fun _ => And.left) (fun _ => And.left) hlaws h
  exact ((inverseOf_of_inverse hu).relates ht.sound hrelated).apply

/-- The map `x ↦ (2 x + 1) / (x + 1)` of the line and its inverse. -/
def mapOfLine : DenseMatrix ℚ := .ofFn 2 2 fun r c => if r + c = 0 then 2 else 1

def inverseOfLine : DenseMatrix ℚ :=
  .ofFn 2 2 fun r c => if r + c = 2 then 2 else if r + c = 1 then -1 else 1

/-- The map of the line and a shift after it, with a component before them and one behind. -/
def steppedMap : Transform ℚ :=
  .passThrough 1 (.concatenated (.linear mapOfLine) (.operation (Shift.operation 1))) 1

def inverseOfStepped : Transform ℚ :=
  .passThrough 1 (.concatenated (.inverseOperation (Shift.operation 1)) (.linear inverseOfLine)) 1

theorem steppedMap_built : steppedMap.Built Shift.IsShift :=
  .passThrough 1 1 (.concatenate (.ofMatrix (m := mapOfLine) (by with_unfolding_all rfl))
    (.operation ⟨1, rfl⟩) rfl)

theorem apply_inverse_of_apply_stepped :
    steppedMap.inverse = .ok inverseOfStepped ∧
      steppedMap.apply [5, 1, 7] = .ok [5, 5 / 2, 7] ∧
      inverseOfStepped.apply [5, 5 / 2, 7] = .ok [5, 1, 7] := by
  have hinverse : steppedMap.inverse = .ok inverseOfStepped := by with_unfolding_all rfl
  have himage : steppedMap.apply [5, 1, 7] = .ok [5, 5 / 2, 7] := by with_unfolding_all rfl
  exact ⟨hinverse, himage, apply_inverse_of_apply (fun _ => Shift.IsShift.fits)
    (fun _ hop => ⟨hop.backwardUndoes, hop.forwardUndoes⟩) steppedMap_built hinverse himage⟩

end CoordTransform.Transform
