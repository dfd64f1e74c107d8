import CoordTransform.Builder
import CoordTransform.Proofs.Transform.WellFormed

/-!
# Sound Pools

The pool of a builder holds transforms of earlier computations, which later ones hand out again.
So whatever is proved of a builder has to hold of its pool as well.

Here it is shown what pools keep. A computation `Keeps` a property of transforms when it leaves a
pool with this property behind every pool that has it, also when it fails, and gives values with a
property of one's choice. The steps of the builder keep every property that is `Closed` under
simplification. Being sound is one of them, with any options.
-/

namespace CoordTransform

variable {α : Type}

/-! ## Computations that keep a property -/

/-- From a pool whose members satisfy `P`, the computation comes to such a pool, and its value
satisfies `post`. -/
def Keeps (P : Transform α → Prop) {ε β : Type} (x : ExceptT ε (StateM (Pool α)) β)
    (post : β → Prop) : Prop :=
  ∀ ⦃pool result pool'⦄, (∀ t ∈ pool, P t) → x pool = (result, pool') →
    (∀ t ∈ pool', P t) ∧ ∀ b, result = .ok b → post b

namespace Keeps

variable {P : Transform α → Prop} {ε β γ : Type}

theorem pure {post : β → Prop} {b : β} (hb : post b) :
    Keeps P (Pure.pure b : ExceptT ε (StateM (Pool α)) β) post := by
  intro pool result pool' hpool h
  cases h
  exact ⟨hpool, fun c hc => by cases hc; exact hb⟩

theorem throw {post : β → Prop} (e : ε) :
    Keeps P (MonadExcept.throw e : ExceptT ε (StateM (Pool α)) β) post := by
  intro pool result pool' hpool h
  cases h
  exact ⟨hpool, fun c hc => nomatch hc⟩

/-- A step that leaves the pool alone. -/
theorem lift {post : β → Prop} {r : Except ε β} (hr : ∀ b, r = .ok b → post b) :
    Keeps P (ExceptT.mk (Pure.pure r) : ExceptT ε (StateM (Pool α)) β) post := by
  intro pool result pool' hpool h
  cases h
  exact ⟨hpool, hr⟩

/-- The second step may rely on what the first one gives. -/
theorem bind {x : ExceptT ε (StateM (Pool α)) β} {g : β → ExceptT ε (StateM (Pool α)) γ}
    {mid : β → Prop} {post : γ → Prop} (hx : Keeps P x mid)
    (hg : ∀ b, mid b → Keeps P (g b) post) : Keeps P (x >>= g) post := by
  intro pool result pool' hpool h
  obtain ⟨e, hfirst, rfl⟩ | ⟨b, pool₁, hfirst, hsecond⟩ := stateBind_cases h
  -- The pool of the first step survives its error.
  · exact ⟨(hx hpool hfirst).1, fun c hc => nomatch hc⟩
  · obtain ⟨hpool₁, hmid⟩ := hx hpool hfirst
    exact hg b (hmid b rfl) hpool₁ hsecond

/-- A step that leaves the pool alone in front of others. -/
theorem lift_bind {r : Except ε β} {g : β → ExceptT ε (StateM (Pool α)) γ} {post : γ → Prop}
    (hg : ∀ b, r = .ok b → Keeps P (g b) post) :
    Keeps P (ExceptT.mk (Pure.pure r) >>= g) post :=
  bind (.lift fun _ => id) hg

end Keeps

variable [Scalar α]

/-! ## Sound pools -/

/-- Every member of the pool is sound. -/
def Pool.Sound (ops : Operation α → Prop) (pool : Pool α) : Prop := ∀ t ∈ pool, t.Sound ops

theorem Pool.sound_nil (ops : Operation α → Prop) : Pool.Sound ops [] :=
  fun _ h => nomatch h

theorem Pool.Sound.append {ops : Operation α → Prop} {pool : Pool α} {t : Transform α}
    (hpool : Pool.Sound ops pool) (ht : t.Sound ops) : Pool.Sound ops (pool ++ [t]) :=
  List.forall_mem_append.2 ⟨hpool, List.forall_mem_singleton.2 ht⟩

/-! ## The builder -/

/-- The methods of a registry make sound transforms. -/
def Registry.Sound (ops : Operation α → Prop) (registry : Registry α) : Prop :=
  ∀ ⦃name method ps t⦄, registry.get? name = some method → method.create ps = .ok t → t.Sound ops

/-- Rounding leaves a map as it is, or gives one by its coefficients. -/
theorem Affine.round_eq_or (a : Affine α) (tolerance : α) :
    a.round tolerance = a ∨ ∃ c, a.round tolerance = .ofCoefficients c := by
  unfold Affine.round
  split
  · next c _ =>
    split
    · exact .inl rfl
    · exact .inr ⟨c, rfl⟩
  · exact .inl rfl

namespace Builder

variable {P : Transform α → Prop} {ops : Operation α → Prop} {f : Builder α}
  {t first second : Transform α}

/-- Pooling gives a member of the pool that is the same, or the transform itself, which may become
the last member. -/
theorem pooled_cases (f : Builder α) (t : Transform α) (pool : Pool α) :
    (∃ member ∈ pool, f.options.usePool = true ∧ member.same t = true ∧
      f.pooled t pool = (.ok member, pool)) ∨
    f.pooled t pool = (.ok t, pool) ∨ f.pooled t pool = (.ok t, pool ++ [t]) := by
  by_cases huse : f.options.usePool = true
  · -- A pool either has a member that is the same, or takes the transform in.
    cases hfind : pool.find? (·.same t) with
    | some member =>
      refine .inl ⟨member, List.mem_of_find?_eq_some hfind, huse, ?_, ?_⟩
      · simpa only using List.find?_some hfind
      · simp only [pooled, intern, huse, hfind, if_true]
    | none => exact .inr (.inr (by simp only [pooled, intern, huse, hfind, if_true]))
  · exact .inr (.inl (if_neg huse))

theorem keeps_pooled (ht : P t) : Keeps P (f.pooled t) P := by
  intro pool result pool' hpool h
  obtain ⟨member, hmember, -, -, hpooled⟩ | hpooled | hpooled := pooled_cases f t pool
  · cases hpooled.symm.trans h
    exact ⟨hpool, fun u hu => by cases hu; exact hpool member hmember⟩
  · cases hpooled.symm.trans h
    exact ⟨hpool, fun u hu => by cases hu; exact ht⟩
  · cases hpooled.symm.trans h
    exact ⟨List.forall_mem_append.2 ⟨hpool, List.forall_mem_singleton.2 ht⟩,
      fun u hu => by cases hu; exact ht⟩

/-- A property of transforms that survives each way in which the builder rounds and simplifies. -/
structure Closed (f : Builder α) (P : Transform α → Prop) : Prop where
  rounded : ∀ {t}, P t → P (f.rounded t)
  product : ∀ {first second m n p t}, P first → P second → ownMatrix? first = some m →
    ownMatrix? second = some n → n.multiply m = .ok p → Transform.ofMatrix p = .ok t → P t
  concatenated : ∀ {first second}, P first → P second → first.targetDim = second.sourceDim →
    P (.concatenated first second)
  inside : ∀ {leading a trailing}, P (.passThrough leading a trailing) → P a
  replace : ∀ {leading a trailing b}, P (.passThrough leading a trailing) → P b →
    P (.passThrough leading b trailing)

/-- Nothing but an affine map is rounded, and with the tolerance of the options. -/
theorem rounded_cases (f : Builder α) (t : Transform α) : f.rounded t = t ∨
    ∃ tolerance a, f.options.rounding = some tolerance ∧ t = .affine a ∧
      f.rounded t = .affine (a.round tolerance) := by
  unfold rounded
  split
  · next tolerance a hrounding ha =>
    -- Of all forms only that of an affine map shows coefficients to be rounded.
    have haffine : t = .affine a := by
      cases t with
      | affine b => cases ha; rfl
      | _ => cases ha
    dsimp only
    -- A map is kept as well when rounding leaves it the same.
    split
    · exact .inl rfl
    · exact .inr ⟨tolerance, a, hrounding, haffine, rfl⟩
  · exact .inl rfl

/-- What a builder rounds is left as it is, or becomes an affine map by its coefficients. -/
theorem rounded_eq_or (f : Builder α) (t : Transform α) :
    f.rounded t = t ∨ ∃ a c, t = .affine a ∧ f.rounded t = .affine (.ofCoefficients c) := by
  obtain hsame | ⟨tolerance, a, -, rfl, hround⟩ := f.rounded_cases t
  · exact .inl hsame
  · rw [hround]
    obtain hkept | ⟨c, hc⟩ := a.round_eq_or tolerance
    · exact .inl (congrArg Transform.affine hkept)
    · exact .inr ⟨a, c, rfl, congrArg Transform.affine hc⟩

theorem sound_rounded (ht : t.Sound ops) : (f.rounded t).Sound ops := by
  obtain hsame | ⟨_, c, -, hround⟩ := f.rounded_eq_or t
  · rwa [hsame]
  · rw [hround]
    exact .ofCoefficients c

/-- Being sound is such a property: a product is one of a matrix, whatever the factors are. -/
theorem closed_sound (f : Builder α) (ops : Operation α → Prop) : f.Closed (·.Sound ops) where
  rounded := sound_rounded
  product _ _ _ _ _ ht := .ofMatrix ht
  concatenated hfirst hsecond hdims := ⟨hfirst, hsecond, hdims⟩
  inside h := h
  replace _ h := h

theorem keeps_ofMatrix (hf : f.Closed P) {m : DenseMatrix α}
    (hm : ∀ t, Transform.ofMatrix m = .ok t → P t) : Keeps P (f.ofMatrix m) P :=
  Keeps.lift_bind fun _ hu => keeps_pooled (hf.rounded (hm _ hu))

theorem keeps_create (hf : f.Closed P) {name : String} {ps : Parameters α}
    (hcreate : ∀ method t, f.registry.get? name = some method → method.create ps = .ok t → P t) :
    Keeps P (f.create name ps) P := by
  unfold create
  split
  · exact .throw _
  · next method hmethod =>
    exact Keeps.lift_bind fun _ hu => keeps_pooled (hf.rounded (hcreate method _ hmethod hu))

theorem keeps_passThrough {leading trailing : Nat} (ht : P t)
    (hpass : P (.passThrough leading t trailing)) :
    Keeps P (f.passThrough leading t trailing) P := by
  unfold Builder.passThrough
  split
  · exact .pure ht
  · exact keeps_pooled hpass

/-! ## Concatenation in two parts -/

/-- The first part of a concatenation: identities are dropped and matrices multiplied, before
`rest` takes over. -/
def leadingSteps (f : Builder α) (first second : Transform α) (rest : Build α (Transform α)) :
    Build α (Transform α) := do
  ExceptT.mk (pure (Transform.requireConnected first second))
  if first.isIdentity then return second
  if second.isIdentity then return first
  match ownMatrix? first, ownMatrix? second with
  | some m, some n =>
    let p ← ExceptT.mk (pure (n.multiply m))
    f.ofMatrix p
  | _, _ => rest

/-- The second part: pass-throughs of the same components are merged. -/
def lastStep (f : Builder α) : Transform α → Transform α → Build α (Transform α)
  | .passThrough leading a trailing, .passThrough leading' b trailing' =>
    if leading == leading' && trailing == trailing' && a.targetDim == b.sourceDim then
      f.concatenate a b >>= fun inner => f.passThrough leading inner trailing
    else f.pooled (.concatenated (.passThrough leading a trailing)
      (.passThrough leading' b trailing'))
  | first, second => f.pooled (.concatenated first second)

theorem concatenate_eq (f : Builder α) (first second : Transform α) :
    f.concatenate first second = f.leadingSteps first second (f.lastStep first second) := by
  rw [concatenate.eq_def]
  cases first with
  | passThrough leading a trailing => cases second <;> rfl
  | _ => rfl

/-- Two pass-throughs of the same components are merged, all other transforms are put one after
the other. -/
theorem lastStep_cases (f : Builder α) (first second : Transform α) :
    (∃ leading a b trailing, first = .passThrough leading a trailing ∧
      second = .passThrough leading b trailing ∧ a.targetDim = b.sourceDim ∧
      f.lastStep first second =
        f.concatenate a b >>= fun inner => f.passThrough leading inner trailing) ∨
    f.lastStep first second = f.pooled (.concatenated first second) := by
  unfold lastStep
  split
  · -- Pass-throughs are merged if both counts agree and the inner transforms meet.
    next leading a trailing leading' b trailing' =>
    split
    · next hsame =>
      simp only [Bool.and_eq_true, beq_iff_eq] at hsame
      obtain ⟨⟨rfl, rfl⟩, hinner⟩ := hsame
      exact .inl ⟨leading, a, b, trailing, rfl, rfl, hinner, rfl⟩
    · exact .inr rfl
  · exact .inr rfl

omit [Scalar α] in
theorem connected_of_requireConnected {b : Unit}
    (h : Transform.requireConnected first second = .ok b) :
    first.targetDim = second.sourceDim := by
  unfold Transform.requireConnected at h
  split at h
  · next hdims => exact eq_of_beq hdims
  · cases h

theorem keeps_leadingSteps (hf : f.Closed P) (hfirst : P first) (hsecond : P second)
    {rest : Build α (Transform α)}
    (hrest : first.targetDim = second.sourceDim → Keeps P rest P) :
    Keeps P (f.leadingSteps first second rest) P := by
  refine Keeps.lift_bind fun _ hconnected => ?_
  -- The steps in their order: an identity on either side, two matrices, and the last step.
  split
  · exact .pure hsecond
  split
  · exact .pure hfirst
  split
  · next m n hm hn =>
    exact Keeps.lift_bind fun p hp => keeps_ofMatrix hf fun t ht =>
      hf.product hfirst hsecond hm hn hp ht
  · exact hrest (connected_of_requireConnected hconnected)

/-- Concatenation keeps what is closed, on connected transforms and on others. -/
theorem keeps_concatenate (hf : f.Closed P) (hfirst : P first) (hsecond : P second) :
    Keeps P (f.concatenate first second) P := by
  -- The recursion goes into the inner transforms of two pass-throughs and nowhere else.
  induction first generalizing second with
  | passThrough leading a trailing ih =>
    rw [concatenate_eq]
    refine keeps_leadingSteps hf hfirst hsecond fun hdims => ?_
    obtain ⟨_, _, b, _, ⟨⟩, rfl, -, hmerged⟩ | hplain :=
      lastStep_cases f (.passThrough leading a trailing) second
    · rw [hmerged]
      exact Keeps.bind (ih (hf.inside hfirst) (hf.inside hsecond)) fun _ hu =>
        keeps_passThrough hu (hf.replace hfirst hu)
    · rw [hplain]
      exact keeps_pooled (hf.concatenated hfirst hsecond hdims)
  | _ =>
    rw [concatenate_eq]
    exact keeps_leadingSteps hf hfirst hsecond fun hdims =>
      keeps_pooled (hf.concatenated hfirst hsecond hdims)

end Builder

end CoordTransform
