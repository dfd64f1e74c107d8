import CoordTransform.Proofs.Builder.Unpooled

/-!
# Pools Only Grow

A pool never loses a member, and no two of its members are the same. Whatever the builder has made
once, it makes again without a change of the pool, and it is the same transform: all that it would
add is there already, and the look-up finds the oldest of the members that match.

A computation with these three properties `Accumulates`. The rules for sequences of steps carry
them to each function of the builder, with any options.
-/

namespace CoordTransform

open Transform

variable {α : Type} [Scalar α]

/-! ## Equality is symmetric -/

namespace Transform

variable [Scalar.Discrete α] {t u : Transform α}

theorem same_refl (t : Transform α) : t.same t = true := same_of_forget rfl

theorem same_symm (h : t.same u = true) : u.same t = true := by
  -- Being the same goes by the forms, and numbers are compared by equality on both sides.
  induction t generalizing u with
  | affine a =>
    cases u with
    | affine b => exact Affine.same_of_forget (Affine.forget_eq_iff.2 (affine_eq_of_same h).symm)
    | _ => cases h
  | linear m =>
    cases u with
    | linear n =>
      cases matrix_eq_of_same h
      exact h
    | _ => cases h
  | concatenated first second ihf ihs =>
    cases u with
    | concatenated first' second' =>
      rw [same, Bool.and_eq_true] at h ⊢
      exact ⟨ihf h.1, ihs h.2⟩
    | _ => cases h
  | passThrough leading inner trailing ih =>
    cases u with
    | passThrough leading' inner' trailing' =>
      simp only [same, Bool.and_eq_true, beq_iff_eq] at h ⊢
      exact ⟨⟨h.1.1.symm, h.1.2.symm⟩, ih h.2⟩
    | _ => cases h
  | operation op =>
    cases u with
    | operation op' => exact Operation.same_symm h
    | _ => cases h
  | inverseOperation op =>
    cases u with
    | inverseOperation op' => exact Operation.same_symm h
    | _ => cases h

theorem same_comm (t u : Transform α) : t.same u = u.same t :=
  Bool.eq_iff_iff.2 ⟨same_symm, same_symm⟩

end Transform

/-! ## Distinct members -/

/-- No two members of the pool are the same. -/
def Pool.Distinct (pool : Pool α) : Prop := pool.Pairwise fun t u => t.same u = false

theorem Pool.distinct_nil : Pool.Distinct ([] : Pool α) := List.Pairwise.nil

/-- Equal members stand at one place, whichever of them is compared with the other. -/
theorem Pool.Distinct.index_eq [Scalar.Discrete α] {pool : Pool α} (h : pool.Distinct) {j k : Nat}
    (hj : j < pool.length) (hk : k < pool.length) (hsame : pool[j].same pool[k] = true) :
    j = k := by
  rcases Nat.lt_trichotomy j k with hlt | heq | hgt
  · rw [List.pairwise_iff_getElem.1 h j k hj hk hlt] at hsame
    cases hsame
  · exact heq
  · rw [same_comm, List.pairwise_iff_getElem.1 h k j hk hj hgt] at hsame
    cases hsame

/-! ## Computations that accumulate -/

/-- A computation that adds to the pool what is new and, once it has succeeded, has no more to
add. -/
structure Accumulates {ε β : Type} (x : ExceptT ε (StateM (Pool α)) β) : Prop where
  /-- No member is lost, also when the computation fails. -/
  grows : ∀ ⦃pool result pool'⦄, x pool = (result, pool') → pool <+: pool'
  /-- Members stay distinct. -/
  distinct : ∀ ⦃pool result pool'⦄, x pool = (result, pool') → pool.Distinct → pool'.Distinct
  /-- On every later pool the computation gives the value that it has given, and no more. -/
  repeats : ∀ ⦃pool pool' later b⦄, x pool = (.ok b, pool') → pool' <+: later →
    x later = (.ok b, later)

namespace Accumulates

variable {ε β γ : Type} {x : ExceptT ε (StateM (Pool α)) β}
  {g : β → ExceptT ε (StateM (Pool α)) γ}

theorem pure (b : β) : Accumulates (Pure.pure b : ExceptT ε (StateM (Pool α)) β) where
  grows := by
    intro pool result pool' h
    cases h
    exact List.prefix_refl pool
  distinct := by
    intro pool result pool' h
    cases h
    exact id
  repeats := by
    intro pool pool' later c h _
    cases h
    rfl

/-- A step that leaves the pool alone. -/
theorem lift (r : Except ε β) :
    Accumulates (ExceptT.mk (Pure.pure r) : ExceptT ε (StateM (Pool α)) β) where
  grows := by
    intro pool result pool' h
    cases h
    exact List.prefix_refl pool
  distinct := by
    intro pool result pool' h
    cases h
    exact id
  repeats := by
    intro pool pool' later c h _
    cases h
    rfl

theorem throw (e : ε) : Accumulates (MonadExcept.throw e : ExceptT ε (StateM (Pool α)) β) :=
  lift (.error e)

theorem bind (hx : Accumulates x) (hg : ∀ b, Accumulates (g b)) : Accumulates (x >>= g) where
  grows := by
    intro pool result pool' h
    obtain ⟨e, hfirst, rfl⟩ | ⟨b, pool₁, hfirst, hsecond⟩ := stateBind_cases h
    · exact hx.grows hfirst
    · exact (hx.grows hfirst).trans ((hg b).grows hsecond)
  distinct := by
    intro pool result pool' h hpool
    obtain ⟨e, hfirst, rfl⟩ | ⟨b, pool₁, hfirst, hsecond⟩ := stateBind_cases h
    · exact hx.distinct hfirst hpool
    · exact (hg b).distinct hsecond (hx.distinct hfirst hpool)
  repeats := by
    intro pool pool' later c h hlater
    obtain ⟨b, pool₁, hfirst, hsecond⟩ := stateBind_eq_ok h
    -- What the second step has added comes after what the first one has.
    have hmid : pool₁ <+: later := ((hg b).grows hsecond).trans hlater
    exact (stateBind_of_ok (hx.repeats hfirst hmid)).trans ((hg b).repeats hsecond hlater)

end Accumulates

/-! ## The pool -/

namespace Builder

variable {f : Builder α} {t u : Transform α} {pool pool' later : Pool α}

/-- A transform that is found is one of the pool, and one that is not becomes the last one. -/
theorem intern_cases (t : Transform α) (pool : Pool α) :
    (∃ member, pool.find? (·.same t) = some member ∧ intern t pool = (member, pool)) ∨
      pool.find? (·.same t) = none ∧ intern t pool = (t, pool ++ [t]) := by
  unfold intern
  cases hfind : pool.find? (·.same t) with
  | some member => exact .inl ⟨member, rfl, rfl⟩
  | none => exact .inr ⟨rfl, rfl⟩

theorem prefix_of_intern (h : intern t pool = (u, pool')) : pool <+: pool' := by
  obtain ⟨member, -, hintern⟩ | ⟨-, hintern⟩ := intern_cases t pool
  · cases hintern.symm.trans h
    exact List.prefix_refl pool
  · cases hintern.symm.trans h
    exact List.prefix_append pool [t]

theorem distinct_of_intern (h : intern t pool = (u, pool')) (hpool : pool.Distinct) :
    pool'.Distinct := by
  obtain ⟨member, -, hintern⟩ | ⟨hnone, hintern⟩ := intern_cases t pool
  · cases hintern.symm.trans h
    exact hpool
  · cases hintern.symm.trans h
    refine List.pairwise_append.2 ⟨hpool, List.pairwise_singleton _ t, fun v hv w hw => ?_⟩
    rw [List.mem_singleton] at hw
    subst hw
    exact Bool.eq_false_iff.2 (List.find?_eq_none.1 hnone v hv)

/-- The look-up goes from the oldest member to the newest, so that it finds the same one in every
later pool. -/
theorem intern_of_prefix [Scalar.Discrete α] (h : intern t pool = (u, pool'))
    (hlater : pool' <+: later) : intern t later = (u, later) := by
  obtain ⟨rest, rfl⟩ := hlater
  obtain ⟨member, hfind, hintern⟩ | ⟨hnone, hintern⟩ := intern_cases t pool
  · cases hintern.symm.trans h
    simp only [intern, List.find?_append, hfind, Option.some_or]
  · cases hintern.symm.trans h
    simp only [intern, List.find?_append, hnone, Option.none_or, List.find?_singleton, same_refl,
      if_true, Option.some_or]

theorem pooled_eq_intern (huse : f.options.usePool = true) (t : Transform α) (pool : Pool α) :
    f.pooled t pool = (.ok (intern t pool).1, (intern t pool).2) := by
  simp only [pooled, huse, if_true]

theorem pooled_eq_pure (huse : ¬f.options.usePool = true) (t : Transform α) :
    f.pooled t = pure t := by
  funext pool
  simp only [pooled, huse]
  rfl

variable [Scalar.Discrete α]

theorem accumulates_pooled (f : Builder α) (t : Transform α) : Accumulates (f.pooled t) := by
  -- With a pool, pooling is interning; without one it is no step at all.
  by_cases huse : f.options.usePool = true
  · constructor
    · intro pool result pool' h
      rw [pooled_eq_intern huse] at h
      cases h
      exact prefix_of_intern rfl
    · intro pool result pool' h hpool
      rw [pooled_eq_intern huse] at h
      cases h
      exact distinct_of_intern rfl hpool
    · intro pool pool' later u h hlater
      rw [pooled_eq_intern huse] at h ⊢
      cases h
      -- A later pool begins with this one, so that the member is found before all that came later.
      have hagain : intern t later = ((intern t pool).1, later) := intern_of_prefix rfl hlater
      rw [hagain]
  · rw [pooled_eq_pure huse]
    exact .pure t

/-! ## The builder -/

theorem accumulates_ofMatrix (f : Builder α) (m : DenseMatrix α) : Accumulates (f.ofMatrix m) :=
  .bind (.lift _) fun t => accumulates_pooled f (f.rounded t)

theorem accumulates_create (f : Builder α) (name : String) (ps : Parameters α) :
    Accumulates (f.create name ps) := by
  unfold create
  split
  · exact .throw _
  · exact .bind (.lift _) fun t => accumulates_pooled f (f.rounded t)

theorem accumulates_passThrough (f : Builder α) (leading : Nat) (t : Transform α)
    (trailing : Nat) : Accumulates (f.passThrough leading t trailing) := by
  unfold Builder.passThrough
  split
  · exact .pure t
  · exact accumulates_pooled f _

theorem accumulates_leadingSteps (f : Builder α) (first second : Transform α)
    {rest : Build α (Transform α)} (hrest : Accumulates rest) :
    Accumulates (f.leadingSteps first second rest) := by
  refine .bind (.lift _) fun _ => ?_
  split
  · exact .pure second
  split
  · exact .pure first
  split
  · exact .bind (.lift _) fun p => accumulates_ofMatrix f p
  · exact hrest

/-- Also a concatenation that goes through several levels of pass-throughs, and pools a transform
on each of them. -/
theorem accumulates_concatenate (f : Builder α) (first second : Transform α) :
    Accumulates (f.concatenate first second) := by
  -- The recursion goes into the inner transforms of two pass-throughs and nowhere else.
  induction first generalizing second with
  | passThrough leading a trailing ih =>
    rw [concatenate_eq]
    refine accumulates_leadingSteps f _ _ ?_
    obtain ⟨_, _, b, _, ⟨⟩, rfl, -, hmerged⟩ | hplain :=
      lastStep_cases f (.passThrough leading a trailing) second
    · rw [hmerged]
      exact .bind (ih b) fun inner => accumulates_passThrough f leading inner trailing
    · rw [hplain]
      exact accumulates_pooled f _
  | _ =>
    rw [concatenate_eq]
    exact accumulates_leadingSteps f _ _ (accumulates_pooled f _)

end Builder

end CoordTransform
