import CoordTransform.Proofs.Builder.Pool
import CoordTransform.Proofs.Transform.Settling

/-!
# Building Without a Pool

A builder that pools hands out earlier transforms in the place of equal new ones. Here it runs
beside the builder with the same registry and the same rounding that makes every transform anew.

Equality does not see the inverses that affine maps remember, so what the two builders make are
`Twins`: they differ in memory at most. In a pool of consistent transforms, and with consistent
transforms to begin with, both members of a pair are consistent, so that their inverses are the
same as well.
-/

namespace CoordTransform

open Transform

variable {α : Type} [Scalar α]

/-! ## Pools and pairs -/

/-- Every member of the pool is sound and, if `steady`, consistent. -/
def Pool.Steady (ops : Operation α → Prop) (steady : Prop) (pool : Pool α) : Prop :=
  ∀ t ∈ pool, t.Sound ops ∧ (steady → t.Consistent)

theorem Pool.Steady.append {ops : Operation α → Prop} {steady : Prop} {pool : Pool α}
    {t : Transform α} (hpool : Pool.Steady ops steady pool) (ht : t.Sound ops)
    (hconsistent : steady → t.Consistent) : Pool.Steady ops steady (pool ++ [t]) := by
  intro u hu
  rw [List.mem_append, List.mem_singleton] at hu
  rcases hu with hu | rfl
  · exact hpool u hu
  · exact ⟨ht, hconsistent⟩

/-- A transform made with a pool and one made without. -/
structure Twins (ops : Operation α → Prop) (steady : Prop) (t u : Transform α) : Prop where
  sound : t.Sound ops
  forget_eq : t.forget = u.forget
  consistent : steady → t.Consistent ∧ u.Consistent

namespace Twins

variable {ops : Operation α → Prop} {steady : Prop} {t u first second first' second' : Transform α}

/-- A sound transform is a twin of its own. -/
theorem refl (ht : t.Sound ops) (hconsistent : steady → t.Consistent) : Twins ops steady t t :=
  ⟨ht, rfl, fun hsteady => ⟨hconsistent hsteady, hconsistent hsteady⟩⟩

/-- Consistent twins have the same inverses. -/
theorem settle_eq (h : Twins ops steady t u) (hsteady : steady) : t.settle = u.settle :=
  (h.consistent hsteady).1.settle_eq (h.consistent hsteady).2 h.forget_eq

theorem concatenated (hfirst : Twins ops steady first first')
    (hsecond : Twins ops steady second second') (hdims : first.targetDim = second.sourceDim) :
    Twins ops steady (.concatenated first second) (.concatenated first' second') where
  sound := ⟨hfirst.sound, hsecond.sound, hdims⟩
  forget_eq := by rw [forget, forget, hfirst.forget_eq, hsecond.forget_eq]
  consistent hsteady := by
    obtain ⟨hf, hf'⟩ := hfirst.consistent hsteady
    obtain ⟨hs, hs'⟩ := hsecond.consistent hsteady
    exact ⟨consistent_concatenated.2 ⟨hf, hs⟩, consistent_concatenated.2 ⟨hf', hs'⟩⟩

theorem passThrough (leading : Nat) (h : Twins ops steady t u) (trailing : Nat) :
    Twins ops steady (.passThrough leading t trailing) (.passThrough leading u trailing) where
  sound := h.sound
  forget_eq := by rw [forget, forget, h.forget_eq]
  consistent hsteady := by
    rw [consistent_passThrough, consistent_passThrough]
    exact h.consistent hsteady

/-- The twin of a pass-through is one around a twin. -/
theorem of_passThrough {leading trailing : Nat}
    (h : Twins ops steady (.passThrough leading t trailing) u) :
    ∃ v, u = .passThrough leading v trailing ∧ Twins ops steady t v := by
  obtain ⟨v, rfl, hinner⟩ := eq_passThrough_of_forget h.forget_eq
  refine ⟨v, rfl, h.sound, hinner, fun hsteady => ?_⟩
  have hboth := h.consistent hsteady
  rwa [consistent_passThrough, consistent_passThrough] at hboth

/-- The inverses of consistent twins are consistent twins, where inverses can be taken back. -/
theorem inverse (hreversible : AffineCoefficients.Reversible α) (hsteady : steady)
    (h : Twins ops steady t u) : ResultRel (Twins ops steady) t.inverse u.inverse := by
  obtain ⟨ht, hu⟩ := h.consistent hsteady
  refine (inverse_of_settle (h.settle_eq hsteady)).mono fun t' u' ht' hu' hsettle => ?_
  exact ⟨(inverseOf_of_inverse ht').sound h.sound, forget_eq_of_settle hsettle, fun _ =>
    ⟨(inverseOf_of_inverse ht').consistent hreversible ht,
      (inverseOf_of_inverse hu').consistent hreversible hu⟩⟩

end Twins

/-! ## Computations side by side -/

/-- A computation with a steady pool and one that leaves its pool alone: they fail with the same
error or give related values, and the pool of the first one stays steady. -/
def Agrees (ops : Operation α → Prop) (steady : Prop) {ε β γ : Type}
    (x : ExceptT ε (StateM (Pool α)) β) (y : ExceptT ε (StateM (Pool α)) γ)
    (R : β → γ → Prop) : Prop :=
  ∀ ⦃pool⦄, Pool.Steady ops steady pool → ∀ rest, ∃ result result' pool',
    x pool = (result, pool') ∧ y rest = (result', rest) ∧ Pool.Steady ops steady pool' ∧
      ResultRel R result result'

namespace Agrees

variable {ops : Operation α → Prop} {steady : Prop} {ε β γ β' γ' : Type}
  {x : ExceptT ε (StateM (Pool α)) β} {y : ExceptT ε (StateM (Pool α)) γ} {R : β → γ → Prop}

theorem pure {b : β} {c : γ} (h : R b c) :
    Agrees ops steady (Pure.pure b : ExceptT ε (StateM (Pool α)) β) (Pure.pure c) R :=
  fun pool hpool _ => ⟨.ok b, .ok c, pool, rfl, rfl, hpool, .ok h⟩

theorem throw (e : ε) :
    Agrees ops steady (MonadExcept.throw e : ExceptT ε (StateM (Pool α)) β)
      (MonadExcept.throw e) R :=
  fun pool hpool _ => ⟨.error e, .error e, pool, rfl, rfl, hpool, .error e⟩

/-- Steps that leave the pool alone. -/
theorem lift {r : Except ε β} {r' : Except ε γ} (h : ResultRel R r r') :
    Agrees ops steady (ExceptT.mk (Pure.pure r) : ExceptT ε (StateM (Pool α)) β)
      (ExceptT.mk (Pure.pure r')) R :=
  fun pool hpool _ => ⟨r, r', pool, rfl, rfl, hpool, h⟩

/-- The pool of the first computation stays steady. -/
theorem steady_pool (h : Agrees ops steady x y R) {pool : Pool α}
    (hpool : Pool.Steady ops steady pool) : Pool.Steady ops steady (x pool).2 := by
  obtain ⟨_, _, _, hx, -, hpool', -⟩ := h hpool []
  rw [hx]
  exact hpool'

/-- The results agree. -/
theorem result (h : Agrees ops steady x y R) {pool : Pool α}
    (hpool : Pool.Steady ops steady pool) (rest : Pool α) :
    ResultRel R (x pool).1 (y rest).1 := by
  obtain ⟨_, _, _, hx, hy, -, hresult⟩ := h hpool rest
  rw [hx, hy]
  exact hresult

theorem mono {R' : β → γ → Prop} (h : Agrees ops steady x y R) (hR : ∀ b c, R b c → R' b c) :
    Agrees ops steady x y R' := by
  intro pool hpool rest
  obtain ⟨result, result', pool', hx, hy, hpool', hresult⟩ := h hpool rest
  exact ⟨result, result', pool', hx, hy, hpool', hresult.mono fun b c _ _ => hR b c⟩

/-- Second steps may rely on the relation of the values of the first ones. -/
theorem bind {f : β → ExceptT ε (StateM (Pool α)) β'} {g : γ → ExceptT ε (StateM (Pool α)) γ'}
    {S : β' → γ' → Prop} (h : Agrees ops steady x y R)
    (hfg : ∀ b c, R b c → Agrees ops steady (f b) (g c) S) :
    Agrees ops steady (x >>= f) (y >>= g) S := by
  intro pool hpool rest
  obtain ⟨result, result', pool', hx, hy, hpool', hresult⟩ := h hpool rest
  -- An error of the first step is the error of both sides, with the pool that step has left.
  cases hresult with
  | error e =>
    exact ⟨.error e, .error e, pool', stateBind_of_error hx, stateBind_of_error hy, hpool',
      .error e⟩
  | @ok b c hbc =>
    obtain ⟨last, last', pool'', hf, hg, hrest⟩ := hfg b c hbc hpool' rest
    exact ⟨last, last', pool'', (stateBind_of_ok hx).trans hf, (stateBind_of_ok hy).trans hg,
      hrest⟩

/-- The same step, which leaves the pool alone, in front of others. -/
theorem lift_bind {r : Except ε β'} {f : β' → ExceptT ε (StateM (Pool α)) β}
    {g : β' → ExceptT ε (StateM (Pool α)) γ}
    (hfg : ∀ b, r = .ok b → Agrees ops steady (f b) (g b) R) :
    Agrees ops steady (ExceptT.mk (Pure.pure r) >>= f) (ExceptT.mk (Pure.pure r) >>= g) R := by
  refine bind (R := fun b c => b = c ∧ r = .ok b) (lift (.refl fun b hb => ⟨rfl, hb⟩)) ?_
  rintro b _ ⟨rfl, hb⟩
  exact hfg b hb

end Agrees

/-! ## The builder -/

/-- The builder with the same registry and the same rounding that does not pool. -/
def Builder.unpooled (f : Builder α) : Builder α :=
  { f with options := { f.options with usePool := false } }

/-- The methods of a registry make consistent transforms. -/
def Registry.Consistent (registry : Registry α) : Prop :=
  ∀ ⦃name method ps t⦄, registry.get? name = some method → method.create ps = .ok t →
    t.Consistent

namespace Builder

variable {ops : Operation α → Prop} {steady : Prop} {f : Builder α}
  {t u first second first' second' : Transform α}

theorem pooled_unpooled (f : Builder α) (t : Transform α) : f.unpooled.pooled t = pure t := rfl

/-- The member of the pool that takes the place of a transform is a twin of it. -/
theorem agrees_pooled [Scalar.Discrete α] (hops : Determined ops) (h : Twins ops steady t u) :
    Agrees ops steady (f.pooled t) (f.unpooled.pooled u) (Twins ops steady) := by
  intro pool hpool rest
  rw [pooled_unpooled]
  obtain ⟨member, hmember, -, hsame, hpooled⟩ | hpooled | hpooled := pooled_cases f t pool
  · -- The pool has such a member: being the same determines it up to what affine maps remember.
    obtain ⟨hsound, hconsistent⟩ := hpool member hmember
    have hforget := forget_eq_of_same hops hsound h.sound hsame
    exact ⟨_, _, pool, hpooled, rfl, hpool, .ok ⟨hsound, hforget.trans h.forget_eq,
      fun hsteady => ⟨hconsistent hsteady, (h.consistent hsteady).2⟩⟩⟩
  · exact ⟨_, _, pool, hpooled, rfl, hpool, .ok h⟩
  · exact ⟨_, _, pool ++ [t], hpooled, rfl,
      hpool.append h.sound fun hsteady => (h.consistent hsteady).1, .ok h⟩

theorem consistent_rounded (ht : t.Consistent) : (f.rounded t).Consistent := by
  obtain hsame | ⟨_, c, -, hround⟩ := f.rounded_eq_or t
  · rwa [hsame]
  · rw [hround]
    exact consistent_ofCoefficients c

/-- Pass-throughs around the same components whose inner transforms meet. -/
def Mergeable (first second : Transform α) : Prop :=
  ∃ leading a b trailing, first = .passThrough leading a trailing ∧
    second = .passThrough leading b trailing ∧ a.targetDim = b.sourceDim

omit [Scalar α] in
theorem Mergeable.of_forget (h : Mergeable first second) (hfirst : first.forget = first'.forget)
    (hsecond : second.forget = second'.forget) : Mergeable first' second' := by
  obtain ⟨leading, a, b, trailing, rfl, rfl, hmeet⟩ := h
  obtain ⟨a', rfl, ha⟩ := eq_passThrough_of_forget hfirst
  obtain ⟨b', rfl, hb⟩ := eq_passThrough_of_forget hsecond
  refine ⟨leading, a', b', trailing, rfl, rfl, ?_⟩
  rw [← targetDim_eq_of_forget ha, hmeet, sourceDim_eq_of_forget hb]

theorem lastStep_merged (f : Builder α) {leading trailing : Nat} {a b : Transform α}
    (h : a.targetDim = b.sourceDim) :
    f.lastStep (.passThrough leading a trailing) (.passThrough leading b trailing) =
      f.concatenate a b >>= fun inner => f.passThrough leading inner trailing := by
  simp [lastStep, h]

theorem lastStep_plain (f : Builder α) (h : ¬Mergeable first second) :
    f.lastStep first second = f.pooled (.concatenated first second) := by
  obtain ⟨leading, a, b, trailing, hfirst, hsecond, hmeet, -⟩ | hplain :=
    lastStep_cases f first second
  · exact absurd ⟨leading, a, b, trailing, hfirst, hsecond, hmeet⟩ h
  · exact hplain

variable [Scalar.Discrete α] (hops : Determined ops)
include hops

theorem agrees_ofMatrix (m : DenseMatrix α) :
    Agrees ops steady (f.ofMatrix m) (f.unpooled.ofMatrix m) (Twins ops steady) :=
  Agrees.lift_bind fun _ ht => agrees_pooled hops
    (.refl (sound_rounded (.ofMatrix ht)) fun _ => consistent_rounded (consistent_ofMatrix ht))

theorem agrees_create (hsound : f.registry.Sound ops)
    (hconsistent : steady → f.registry.Consistent) (name : String)
    (ps : Parameters α) :
    Agrees ops steady (f.create name ps) (f.unpooled.create name ps) (Twins ops steady) := by
  have hregistry : f.unpooled.registry = f.registry := rfl
  unfold create
  rw [hregistry]
  -- Both registries are the same, so that the method is there on both sides or on neither.
  cases hmethod : f.registry.get? name with
  | none => exact .throw _
  | some method =>
    exact Agrees.lift_bind fun _ ht => agrees_pooled hops (.refl
      (sound_rounded (hsound hmethod ht)) fun hsteady =>
        consistent_rounded (hconsistent hsteady hmethod ht))

theorem agrees_passThrough (leading : Nat) (h : Twins ops steady t u) (trailing : Nat) :
    Agrees ops steady (f.passThrough leading t trailing) (f.unpooled.passThrough leading u trailing)
      (Twins ops steady) := by
  unfold Builder.passThrough
  split
  · exact .pure h
  · exact agrees_pooled hops (h.passThrough leading trailing)

/-! ## Concatenation -/

theorem agrees_leadingSteps (hfirst : Twins ops steady first first')
    (hsecond : Twins ops steady second second') {rest rest' : Build α (Transform α)}
    (hrest : first.targetDim = second.sourceDim →
      Agrees ops steady rest rest' (Twins ops steady)) :
    Agrees ops steady (f.leadingSteps first second rest)
      (f.unpooled.leadingSteps first' second' rest') (Twins ops steady) := by
  have hrequire : requireConnected first' second' = requireConnected first second := by
    rw [requireConnected, requireConnected, targetDim_eq_of_forget hfirst.forget_eq,
      sourceDim_eq_of_forget hsecond.forget_eq]
  -- Both sides take the same branch, since none of the tests sees what affine maps remember.
  unfold leadingSteps
  rw [hrequire, ← isIdentity_eq_of_forget hfirst.forget_eq,
    ← isIdentity_eq_of_forget hsecond.forget_eq, ← ownMatrix?_eq_of_forget hfirst.forget_eq,
    ← ownMatrix?_eq_of_forget hsecond.forget_eq]
  refine Agrees.lift_bind fun _ hconnected => ?_
  split
  · exact .pure hsecond
  split
  · exact .pure hfirst
  split
  · exact Agrees.lift_bind fun p _ => agrees_ofMatrix hops p
  · exact hrest (connected_of_requireConnected hconnected)

/-- Pass-throughs that are merged have twins that are merged. -/
theorem agrees_lastStep (hfirst : Twins ops steady first first')
    (hsecond : Twins ops steady second second') (hdims : first.targetDim = second.sourceDim)
    (hinner : ∀ {leading a b trailing a' b'}, first = .passThrough leading a trailing →
      Twins ops steady a a' → Twins ops steady b b' →
      Agrees ops steady (f.concatenate a b) (f.unpooled.concatenate a' b') (Twins ops steady)) :
    Agrees ops steady (f.lastStep first second) (f.unpooled.lastStep first' second')
      (Twins ops steady) := by
  by_cases hmerge : Mergeable first second
  · -- Twins of pass-throughs are pass-throughs of the same components, which then meet, too.
    obtain ⟨leading, a, b, trailing, rfl, rfl, hmeet⟩ := hmerge
    obtain ⟨a', rfl, ha⟩ := hfirst.of_passThrough
    obtain ⟨b', rfl, hb⟩ := hsecond.of_passThrough
    have hmeet' : a'.targetDim = b'.sourceDim := by
      rw [← targetDim_eq_of_forget ha.forget_eq, hmeet, sourceDim_eq_of_forget hb.forget_eq]
    rw [lastStep_merged f hmeet, lastStep_merged f.unpooled hmeet']
    exact (hinner rfl ha hb).bind fun _ _ h => agrees_passThrough hops leading h trailing
  · have hmerge' : ¬Mergeable first' second' :=
      fun h => hmerge (h.of_forget hfirst.forget_eq.symm hsecond.forget_eq.symm)
    rw [lastStep_plain f hmerge, lastStep_plain f.unpooled hmerge']
    exact agrees_pooled hops (hfirst.concatenated hsecond hdims)

/-- Concatenations with and without a pool agree, also in the error for transforms that do not
meet. -/
theorem agrees_concatenate (hfirst : Twins ops steady first first')
    (hsecond : Twins ops steady second second') :
    Agrees ops steady (f.concatenate first second) (f.unpooled.concatenate first' second')
      (Twins ops steady) := by
  -- The recursion goes into the inner transforms of two pass-throughs and nowhere else.
  induction first generalizing first' second second' with
  | passThrough leading a trailing ih =>
    rw [concatenate_eq, concatenate_eq]
    refine agrees_leadingSteps hops hfirst hsecond fun hdims => ?_
    refine agrees_lastStep hops hfirst hsecond hdims ?_
    rintro _ _ _ _ _ _ ⟨⟩ ha hb
    exact ih ha hb
  | _ =>
    rw [concatenate_eq, concatenate_eq]
    refine agrees_leadingSteps hops hfirst hsecond fun hdims => ?_
    exact agrees_lastStep hops hfirst hsecond hdims fun h => nomatch h

end Builder

end CoordTransform
