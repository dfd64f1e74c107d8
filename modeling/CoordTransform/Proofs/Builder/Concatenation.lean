import CoordTransform.Proofs.Builder.Pool
import CoordTransform.Proofs.Namesake
import CoordTransform.Proofs.Transform.Inverse
import CoordTransform.Proofs.Transform.Simplification

/-!
# The Builder Simplifies

Every step of the builder `Gives` a transform that compares to the plain one: the pooled member
that replaces a transform, the matrix of two matrices, the pass-through around a concatenation, and
the concatenation of two transforms in whatever simplified form. The pool stays sound. What is
compared is left open; it has to hold of simplified transforms and to survive pooling and rounding.

Without rounding, transforms simplify the plain ones: every step `Yields` such a transform.
Concatenation fails only on transforms whose dimensions do not meet.
-/

namespace CoordTransform

variable {α : Type} [Scalar α]

namespace Builder

/-! ## Comparing results -/

/-- A way of comparing what a builder makes with what it was asked for. It holds of simplified
transforms, and of whatever the builder takes from its pool or rounds. -/
structure Respects (ops : Operation α → Prop) (f : Builder α)
    (R : Transform α → Transform α → Prop) : Prop where
  of_simplifies : ∀ {u t}, u.Simplifies t → R u t
  trans : ∀ {u v t}, R u v → R v t → R u t
  passThrough : ∀ {u t} (leading trailing : Nat), R u t →
    R (.passThrough leading u trailing) (.passThrough leading t trailing)
  of_same : f.options.usePool = true → ∀ {u t}, u.Sound ops → t.Sound ops → u.same t = true → R u t
  rounded : ∀ t, R (f.rounded t) t

/-- A computation succeeds on a pool, with a sound transform that compares to `t`, and leaves a
sound pool. -/
def Gives (R : Transform α → Transform α → Prop) (ops : Operation α → Prop)
    (x : Build α (Transform α)) (pool : Pool α) (t : Transform α) : Prop :=
  ∃ u pool', x pool = (.ok u, pool') ∧ R u t ∧ u.Sound ops ∧ Pool.Sound ops pool'

variable {ops : Operation α → Prop} {f : Builder α} {pool : Pool α} {t u : Transform α}
  {x : Build α (Transform α)} {R : Transform α → Transform α → Prop}

theorem Gives.trans (hR : Respects ops f R) (h : Gives R ops x pool u) (hut : R u t) :
    Gives R ops x pool t := by
  obtain ⟨v, pool', hx, hvu, hv, hpool'⟩ := h
  exact ⟨v, pool', hx, hR.trans hvu hut, hv, hpool'⟩

theorem Gives.pure (ht : t.Sound ops) (hpool : Pool.Sound ops pool) (hut : R t u) :
    Gives R ops (Pure.pure t) pool u :=
  ⟨t, pool, rfl, hut, ht, hpool⟩

/-- After a first step that succeeds, the second step decides. -/
theorem Gives.bind {β : Type} {y : Build α β} {g : β → Build α (Transform α)} {b : β}
    {pool' : Pool α} (hy : y pool = (.ok b, pool')) (h : Gives R ops (g b) pool' t) :
    Gives R ops (y >>= g) pool t := by
  unfold Gives
  rw [stateBind_of_ok hy]
  exact h

/-- What a computation has in fact given. -/
theorem Gives.result (h : Gives R ops x pool t) {pool' : Pool α} (hx : x pool = (.ok u, pool')) :
    R u t ∧ u.Sound ops ∧ Pool.Sound ops pool' := by
  obtain ⟨v, rest, hv, hvt, hsound, hrest⟩ := h
  rw [hx] at hv
  cases hv
  exact ⟨hvt, hsound, hrest⟩

omit [Scalar α] in
theorem lift_eq_ok {β : Type} {r : Except (TransformError α) β} {b : β} (h : r = .ok b)
    (pool : Pool α) : (ExceptT.mk (Pure.pure r) : Build α β) pool = (.ok b, pool) := by
  rw [h]
  rfl

/-! ## Single steps -/

theorem gives_pooled (hR : Respects ops f R) (hpool : Pool.Sound ops pool) (ht : t.Sound ops) :
    Gives R ops (f.pooled t) pool t := by
  obtain ⟨member, hmember, huse, hsame, h⟩ | h | h := pooled_cases f t pool
  · exact ⟨member, pool, h, hR.of_same huse (hpool member hmember) ht hsame,
      hpool member hmember, hpool⟩
  · exact ⟨t, pool, h, hR.of_simplifies (.refl t), ht, hpool⟩
  · exact ⟨t, pool ++ [t], h, hR.of_simplifies (.refl t), ht, hpool.append ht⟩

theorem gives_rounded (hR : Respects ops f R) (hpool : Pool.Sound ops pool) (ht : t.Sound ops) :
    Gives R ops (f.pooled (f.rounded t)) pool t :=
  (gives_pooled hR hpool (sound_rounded ht)).trans hR (hR.rounded t)

theorem gives_ofMatrix (hR : Respects ops f R) (hpool : Pool.Sound ops pool) {m : DenseMatrix α}
    (ht : Transform.ofMatrix m = .ok t) : Gives R ops (f.ofMatrix m) pool t :=
  .bind (lift_eq_ok ht pool) (gives_rounded hR hpool (.ofMatrix ht))

/-- A method is found under a name and makes a transform, which is then pooled. -/
theorem create_eq_ok {name : String} {ps : Parameters α} {pool' : Pool α}
    (h : f.create name ps pool = (.ok t, pool')) : ∃ method u,
      f.registry.get? name = some method ∧ method.create ps = .ok u ∧
      f.pooled (f.rounded u) pool = (.ok t, pool') := by
  unfold create at h
  -- The name has to be known, and the method has to make a transform before anything is pooled.
  cases hmethod : f.registry.get? name with
  | none =>
    rw [hmethod] at h
    cases h
  | some method =>
    rw [hmethod] at h
    obtain ⟨u, pool₁, hu, ht⟩ := stateBind_eq_ok h
    cases hcreate : method.create ps with
    | error e =>
      rw [hcreate] at hu
      cases hu
    | ok v =>
      rw [hcreate] at hu
      cases hu
      exact ⟨method, u, rfl, hcreate, ht⟩

theorem gives_create (hR : Respects ops f R) (hpool : Pool.Sound ops pool) {name : String}
    {ps : Parameters α} {method : Method α} (hmethod : f.registry.get? name = some method)
    (hcreate : method.create ps = .ok t) (ht : t.Sound ops) :
    Gives R ops (f.create name ps) pool t := by
  unfold create
  rw [hmethod]
  exact .bind (lift_eq_ok hcreate pool) (gives_rounded hR hpool ht)

theorem gives_passThrough (hR : Respects ops f R) (hpool : Pool.Sound ops pool) (leading : Nat)
    (ht : t.Sound ops) (trailing : Nat) :
    Gives R ops (f.passThrough leading t trailing) pool (.passThrough leading t trailing) := by
  unfold Builder.passThrough
  split
  · next hnothing =>
    simp only [Bool.and_eq_true, beq_iff_eq] at hnothing
    obtain ⟨rfl, rfl⟩ := hnothing
    exact .pure ht hpool (hR.of_simplifies .of_passThrough_nothing)
  · exact gives_pooled hR hpool ht

theorem hasMatrix_of_ownMatrix? {direct reverse : Operation α → Prop} {m : DenseMatrix α}
    (ht : t.WellFormed direct reverse) (h : ownMatrix? t = some m) : t.HasMatrix m := by
  cases t with
  | affine a =>
    cases h
    exact .affine a
  | linear n =>
    cases h
    exact .linear ht
  | _ => cases h

/-! ## Concatenation -/

theorem concatenate_of_disconnected {first second : Transform α}
    (hdims : first.targetDim ≠ second.sourceDim) (pool : Pool α) :
    f.concatenate first second pool =
      (.error (.dimensionMismatch .concatenation first.targetDim second.sourceDim), pool) := by
  have hrequire : Transform.requireConnected first second =
      .error (.dimensionMismatch .concatenation first.targetDim second.sourceDim) := by
    rw [Transform.requireConnected, if_neg (by rwa [beq_iff_eq])]
  rw [concatenate_eq]
  exact stateBind_of_error (by rw [hrequire]; rfl)

theorem gives_leadingSteps (hR : Respects ops f R) {first second : Transform α}
    (hfirst : first.Sound ops) (hsecond : second.Sound ops)
    (hdims : first.targetDim = second.sourceDim) (hpool : Pool.Sound ops pool)
    {rest : Build α (Transform α)} (hrest : Gives R ops rest pool (.concatenated first second)) :
    Gives R ops (f.leadingSteps first second rest) pool (.concatenated first second) := by
  have hrequire : Transform.requireConnected first second = .ok () :=
    if_pos (beq_iff_eq.2 hdims)
  refine .bind (lift_eq_ok hrequire pool) ?_
  split
  · next hid =>
    exact .pure hsecond hpool (hR.of_simplifies (.of_identity_first hfirst hdims hid))
  split
  · next hid =>
    exact .pure hfirst hpool (hR.of_simplifies (.of_identity_second hsecond hdims hid))
  split
  · next m n hm hn =>
    have hm' := hasMatrix_of_ownMatrix? hfirst hm
    have hn' := hasMatrix_of_ownMatrix? hsecond hn
    -- The second matrix stands on the left: it is applied to the images of the first.
    have hshape : n.cols = m.rows := by
      rw [hn'.sourceDim_eq, hm'.targetDim_eq, hdims]
    obtain ⟨t, ht⟩ := Transform.exists_ofMatrix (m := n.product m)
      ⟨hn'.two_le.1, hm'.two_le.2⟩
    refine .bind (lift_eq_ok (DenseMatrix.multiply_eq_ok hshape) pool) ?_
    exact (gives_ofMatrix hR hpool ht).trans hR (hR.of_simplifies (.product hm' hn' ht))
  · exact hrest

/-- Concatenation succeeds on connected transforms and compares to their plain concatenation. -/
theorem gives_concatenate (hR : Respects ops f R) {first second : Transform α}
    (hfirst : first.Sound ops) (hsecond : second.Sound ops)
    (hdims : first.targetDim = second.sourceDim) (hpool : Pool.Sound ops pool) :
    Gives R ops (f.concatenate first second) pool (.concatenated first second) := by
  -- The recursion goes into the inner transforms of two pass-throughs and nowhere else.
  induction first generalizing second pool with
  | passThrough leading a trailing ih =>
    rw [concatenate_eq]
    refine gives_leadingSteps hR hfirst hsecond hdims hpool ?_
    obtain ⟨_, _, b, _, ⟨⟩, rfl, hinner, hmerged⟩ | hplain :=
      lastStep_cases f (.passThrough leading a trailing) second
    · rw [hmerged]
      obtain ⟨u, pool', hu, hinside, hsound, hpool'⟩ :=
        ih hfirst (show Transform.Sound ops b from hsecond) hinner hpool
      refine .bind hu ((gives_passThrough hR hpool' leading hsound trailing).trans hR ?_)
      exact hR.trans (hR.passThrough leading trailing hinside)
        (hR.of_simplifies (.merge_passThrough leading trailing))
    · rw [hplain]
      exact gives_pooled hR hpool ⟨hfirst, hsecond, hdims⟩
  | _ =>
    rw [concatenate_eq]
    exact gives_leadingSteps hR hfirst hsecond hdims hpool
      (gives_pooled hR hpool ⟨hfirst, hsecond, hdims⟩)

/-! ## Results that simplify -/

/-- A builder that does not round, and pools transforms only when operations are determined by
their method and their parameters. -/
structure Faithful (ops : Operation α → Prop) (f : Builder α) : Prop where
  rounding_eq : f.options.rounding = none
  determined : f.options.usePool = true → Transform.Determined ops

theorem rounded_eq (hf : f.Faithful ops) (t : Transform α) : f.rounded t = t := by
  rw [rounded, hf.rounding_eq]

theorem Faithful.respects (hf : f.Faithful ops) : Respects ops f Transform.Simplifies where
  of_simplifies := id
  trans := .trans
  passThrough leading trailing h := h.passThrough leading trailing
  of_same huse _ _ hu ht hsame := .of_same (hf.determined huse) hu ht hsame
  rounded t := by
    rw [rounded_eq hf]
    exact .refl t

/-- A computation succeeds on a pool, with a sound transform that simplifies `t`. -/
def Yields (ops : Operation α → Prop) (x : Build α (Transform α)) (pool : Pool α)
    (t : Transform α) : Prop :=
  ∃ u pool', x pool = (.ok u, pool') ∧ u.Simplifies t ∧ u.Sound ops ∧ Pool.Sound ops pool'

/-- What a computation has in fact given. -/
theorem Yields.result (h : Yields ops x pool t) {pool' : Pool α} (hx : x pool = (.ok u, pool')) :
    u.Simplifies t ∧ u.Sound ops ∧ Pool.Sound ops pool' :=
  Gives.result h hx

theorem Yields.of_simplifies (h : Yields ops x pool u) (hut : u.Simplifies t) :
    Yields ops x pool t := by
  obtain ⟨v, pool', hx, hvu, hv, hpool'⟩ := h
  exact ⟨v, pool', hx, hvu.trans hut, hv, hpool'⟩

/-- After a first step that succeeds, the second step decides. -/
theorem Yields.bind {β : Type} {y : Build α β} {g : β → Build α (Transform α)} {b : β}
    {pool' : Pool α} (hy : y pool = (.ok b, pool')) (h : Yields ops (g b) pool' t) :
    Yields ops (y >>= g) pool t :=
  Gives.bind hy h

/-- Pooling leaves an operation as it is. -/
theorem pooled_operation (hf : f.Faithful ops) (hpool : Pool.Sound ops pool) {op : Operation α}
    (hop : ops op) : ∃ pool', f.pooled (.operation op) pool = (.ok (.operation op), pool') ∧
      Pool.Sound ops pool' := by
  obtain ⟨member, hmember, huse, hsame, h⟩ | h | h := pooled_cases f (.operation op) pool
  -- A member that is the same as an operation is an operation, hence this one.
  · cases member with
    | operation op' =>
      have heq : op' = op := hf.determined huse op' op (hpool _ hmember) hop hsame
      exact ⟨pool, heq ▸ h, hpool⟩
    | _ => cases hsame
  · exact ⟨pool, h, hpool⟩
  · exact ⟨_, h, hpool.append hop⟩

theorem yields_create (hf : f.Faithful ops) (hpool : Pool.Sound ops pool) {name : String}
    {ps : Parameters α} {method : Method α} (hmethod : f.registry.get? name = some method)
    (hcreate : method.create ps = .ok t) (ht : t.Sound ops) :
    Yields ops (f.create name ps) pool t :=
  gives_create hf.respects hpool hmethod hcreate ht

theorem yields_passThrough (hf : f.Faithful ops) (hpool : Pool.Sound ops pool) (leading : Nat)
    (ht : t.Sound ops) (trailing : Nat) :
    Yields ops (f.passThrough leading t trailing) pool (.passThrough leading t trailing) :=
  gives_passThrough hf.respects hpool leading ht trailing

/-- Concatenation succeeds on connected transforms and simplifies their plain concatenation. -/
theorem yields_concatenate (hf : f.Faithful ops) {first second : Transform α}
    (hfirst : first.Sound ops) (hsecond : second.Sound ops)
    (hdims : first.targetDim = second.sourceDim) (hpool : Pool.Sound ops pool) :
    Yields ops (f.concatenate first second) pool (.concatenated first second) :=
  gives_concatenate hf.respects hfirst hsecond hdims hpool

/-- Three transforms one after the other, nested to the left. -/
theorem yields_concatenate_left (hf : f.Faithful ops) {first second third : Transform α}
    (hfirst : first.Sound ops) (hsecond : second.Sound ops) (hthird : third.Sound ops)
    (hdims : first.targetDim = second.sourceDim) (hdims' : second.targetDim = third.sourceDim)
    (hpool : Pool.Sound ops pool) :
    Yields ops (f.concatenate first second >>= fun both => f.concatenate both third) pool
      (.concatenated (.concatenated first second) third) := by
  -- The concatenation of the first two simplifies the plain one, and meets the third as that does.
  obtain ⟨u, pool', hu, hsimplifies, hsound, hpool'⟩ :=
    yields_concatenate hf hfirst hsecond hdims hpool
  refine .bind hu ?_
  have hu' : u.targetDim = third.sourceDim := hsimplifies.targetDim_eq.trans hdims'
  exact (yields_concatenate hf hsound hthird hu' hpool').of_simplifies
    (hsimplifies.concatenated (.refl third))

/-- Three transforms one after the other, nested to the right. -/
theorem yields_concatenate_right (hf : f.Faithful ops) {first second third : Transform α}
    (hfirst : first.Sound ops) (hsecond : second.Sound ops) (hthird : third.Sound ops)
    (hdims : first.targetDim = second.sourceDim) (hdims' : second.targetDim = third.sourceDim)
    (hpool : Pool.Sound ops pool) :
    Yields ops (f.concatenate second third >>= fun both => f.concatenate first both) pool
      (.concatenated (.concatenated first second) third) := by
  -- Here the last two are simplified first, and the plain concatenation is nested anew.
  obtain ⟨u, pool', hu, hsimplifies, hsound, hpool'⟩ :=
    yields_concatenate hf hsecond hthird hdims' hpool
  refine .bind hu ?_
  have hu' : first.targetDim = u.sourceDim := hdims.trans hsimplifies.sourceDim_eq.symm
  exact (yields_concatenate hf hfirst hsound hu' hpool').of_simplifies
    ((Transform.Simplifies.concatenated (.refl first) hsimplifies).trans .assoc_right)

/-- Concatenation fails exactly on transforms whose dimensions do not meet. Else the result has
the dimensions and, in exact arithmetic, the images of the plain concatenation, and so have both
ways of concatenating three transforms. -/
theorem concatenate_agrees (hfits : ∀ op, ops op → op.Fits) (hf : f.Faithful ops)
    {first second third : Transform α} (hfirst : first.Built ops) (hsecond : second.Built ops)
    (hthird : third.Built ops) {pool' : Pool α} (hpool : Pool.Sound ops pool)
    (hpool' : Pool.Sound ops pool') :
    (first.targetDim ≠ second.sourceDim → f.concatenate first second pool =
      (.error (.dimensionMismatch .concatenation first.targetDim second.sourceDim), pool)) ∧
    (first.targetDim = second.sourceDim → ∃ u rest,
      f.concatenate first second pool = (.ok u, rest) ∧
      u.sourceDim = first.sourceDim ∧ u.targetDim = second.targetDim ∧
      (Scalar.Exact α → ∀ p q,
        (Transform.concatenate first second >>= fun t => t.apply p) = .ok q →
        u.apply p = .ok q)) ∧
    (first.targetDim = second.sourceDim → second.targetDim = third.sourceDim → ∃ u v rest rest',
      (f.concatenate first second >>= fun both => f.concatenate both third) pool =
        (.ok u, rest) ∧
      (f.concatenate second third >>= fun both => f.concatenate first both) pool' =
        (.ok v, rest') ∧
      (Scalar.Exact α → ∀ p q,
        (Transform.concatenate first second >>= fun both =>
          Transform.concatenate both third >>= fun t => t.apply p) = .ok q →
        u.apply p = .ok q ∧ v.apply p = .ok q)) := by
  refine ⟨fun hdims => concatenate_of_disconnected hdims pool, fun hdims => ?_,
    fun hdims hdims' => ?_⟩
  · obtain ⟨u, rest, hu, hsimplifies, -⟩ :=
      yields_concatenate hf hfirst.sound hsecond.sound hdims hpool
    refine ⟨u, rest, hu, hsimplifies.sourceDim_eq, hsimplifies.targetDim_eq, fun _ p q hq => ?_⟩
    obtain ⟨plain, hplain, hq'⟩ := bind_eq_ok.1 hq
    obtain ⟨-, rfl⟩ := Transform.concatenate_eq_ok.1 hplain
    exact hsimplifies.apply hfits ⟨hfirst.sound, hsecond.sound, hdims⟩ hq'
  -- Both orders simplify one and the same plain concatenation.
  · obtain ⟨u, rest, hu, hleft, -⟩ := yields_concatenate_left hf hfirst.sound hsecond.sound
      hthird.sound hdims hdims' hpool
    obtain ⟨v, rest', hv, hright, -⟩ := yields_concatenate_right hf hfirst.sound hsecond.sound
      hthird.sound hdims hdims' hpool'
    refine ⟨u, v, rest, rest', hu, hv, fun _ p q hq => ?_⟩
    obtain ⟨both, hboth, hq'⟩ := bind_eq_ok.1 hq
    obtain ⟨plain, hplain, hq''⟩ := bind_eq_ok.1 hq'
    obtain ⟨-, rfl⟩ := Transform.concatenate_eq_ok.1 hboth
    obtain ⟨-, rfl⟩ := Transform.concatenate_eq_ok.1 hplain
    have hsound : (Transform.concatenated (.concatenated first second) third).Sound ops :=
      ⟨⟨hfirst.sound, hsecond.sound, hdims⟩, hthird.sound, hdims'⟩
    exact ⟨hleft.apply hfits hsound hq'', hright.apply hfits hsound hq''⟩

/-- A builder of rational transforms that pools them. -/
def rationalBuilder : Builder ℚ := ⟨.empty, {}⟩

theorem rationalBuilder_faithful : rationalBuilder.Faithful Shift.IsShift where
  rounding_eq := rfl
  determined _ _ _ ho ho' hsame := ho.eq_of_same ho' hsame

/-- Two projective pass-throughs are merged, and the identity after them is dropped. -/
theorem concatenate_agrees_projective :
    ∃ u v rest rest',
      (rationalBuilder.concatenate (.passThrough 1 (.linear Transform.mapOfLine) 0)
          (.passThrough 1 (.operation (Shift.operation 1)) 0) >>= fun both =>
        rationalBuilder.concatenate both (.affine .identity)) [] = (.ok u, rest) ∧
      (rationalBuilder.concatenate (.passThrough 1 (.operation (Shift.operation 1)) 0)
          (.affine .identity) >>= fun both =>
        rationalBuilder.concatenate (.passThrough 1 (.linear Transform.mapOfLine) 0) both) [] =
          (.ok v, rest') ∧
      u.apply [5, 1] = .ok [5, 5 / 2] ∧ v.apply [5, 1] = .ok [5, 5 / 2] := by
  -- All three leaves are built, the projection from a matrix of two rows.
  have hmap : (Transform.passThrough 1 (.linear Transform.mapOfLine) 0).Built Shift.IsShift :=
    .passThrough 1 0 (.ofMatrix (m := Transform.mapOfLine) (by with_unfolding_all rfl))
  have hshift : (Transform.passThrough 1 (.operation (Shift.operation (1 : ℚ))) 0).Built
      Shift.IsShift := .passThrough 1 0 (.operation ⟨1, rfl⟩)
  have hidentity : (Transform.affine (.identity : Affine ℚ)).Built Shift.IsShift :=
    .affine (.ofCoefficients _)
  obtain ⟨u, v, rest, rest', hu, hv, himages⟩ :=
    (concatenate_agrees (fun _ => Shift.IsShift.fits) rationalBuilder_faithful hmap hshift
      hidentity (Pool.sound_nil _) (Pool.sound_nil _)).2.2 rfl rfl
  obtain ⟨hu', hv'⟩ := himages inferInstance [5, 1] [5, 5 / 2] (by with_unfolding_all rfl)
  exact ⟨u, v, rest, rest', hu, hv, hu', hv'⟩

/-- Operations that are the same and yet differ are mistaken for each other: two steps of pairs are
concatenated, and what comes out of the pool are the two steps of single numbers made before. -/
theorem concatenate_namesakes :
    (Namesake.step 1 (1 : ℚ)).Built Namesake.IsStep ∧
    (Namesake.step 2 (2 : ℚ)).Built Namesake.IsStep ∧
    ∃ u rest error,
      (rationalBuilder.concatenate (Namesake.step 1 1) (Namesake.step 1 1) >>= fun _ =>
        rationalBuilder.concatenate (Namesake.step 2 2) (Namesake.step 2 2)) [] = (.ok u, rest) ∧
      u.sourceDim = 1 ∧ u.targetDim = 1 ∧ u.apply [0, 0] = .error error ∧
      (Transform.concatenate (Namesake.step 2 2) (Namesake.step 2 2) >>= fun t =>
        t.apply [0, 0]) = .ok [(4 : ℚ), 4] :=
  -- The pool holds the concatenation of the short steps when the long ones are asked for.
  ⟨.operation ⟨1, 1, .empty, rfl⟩, .operation ⟨2, 2, .empty, rfl⟩,
    .concatenated (Namesake.step 1 1) (Namesake.step 1 1), _, _, by with_unfolding_all rfl, rfl,
    rfl, by with_unfolding_all rfl, by with_unfolding_all rfl⟩

end Builder

end CoordTransform
