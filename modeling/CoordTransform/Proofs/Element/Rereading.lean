import CoordTransform.Proofs.Builder.Reduction
import CoordTransform.Proofs.Element.Acceptance

/-!
# Written Steps are Kept or Get Smaller

A written concatenation is a flat list of steps. When it is read back, each step is concatenated to
what was made of the steps before it. So steps come together that were in different concatenations
when the transform was made, and the builder may simplify them now.

`reread` is what would come of the steps if nothing were simplified, and `Kept` says that nothing
is. What in fact comes of them is `reread` when all steps are kept, and smaller otherwise.
-/

namespace CoordTransform

open Transform Element

variable {α : Type} [Scalar α]

namespace Transform

/-! ## Reading without simplification -/

/-- The transform of a matrix; one of the plane becomes an affine map. -/
def ofWritten (m : DenseMatrix α) : Transform α :=
  match ofMatrix m with
  | .ok t => t
  | .error _ => linear m

omit [Scalar α] in
/-- A step behind what is there. -/
def behind : Option (Transform α) → Transform α → Transform α
  | none, t => t
  | some first, t => concatenated first t

/-- The steps of a transform, one after the other, behind what is there. -/
def reread : Transform α → Option (Transform α) → Transform α
  | affine a, before => behind before (affine a)
  | linear m, before => behind before (ofWritten m)
  | concatenated first second, before => second.reread (some (first.reread before))
  | passThrough leading inner trailing, before =>
    behind before (passThrough leading (inner.reread none) trailing)
  | operation op, before => behind before (operation op)
  | inverseOperation op, before => behind before (inverseOperation op)

/-- A first step stays as it is, and a further one if the builder leaves it apart from what is
there. -/
def Stays : Option (Transform α) → Transform α → Prop
  | none, _ => True
  | some first, second => Joins first second

/-- Nothing is simplified when the steps of a transform are read behind what is there. -/
def Kept : Transform α → Option (Transform α) → Prop
  | affine a, before => Stays before (affine a)
  | linear m, before => Stays before (ofWritten m)
  | concatenated first second, before =>
    first.Kept before ∧ second.Kept (some (first.reread before))
  | passThrough leading inner trailing, before => (0 < leading + trailing ∧ inner.Kept none) ∧
    Stays before (passThrough leading (inner.reread none) trailing)
  | operation op, before => Stays before (operation op)
  | inverseOperation op, before => Stays before (inverseOperation op)

variable {t first second : Transform α} {m : DenseMatrix α}

theorem ofWritten_eq (h : ofMatrix m = .ok t) : ofWritten m = t := by
  rw [ofWritten, h]

theorem size_ofWritten (m : DenseMatrix α) : (ofWritten m).size = 1 := by
  unfold ofWritten
  split
  · next h => exact size_of_ofMatrix h
  · rfl

omit [Scalar α] in
theorem size_behind (before : Option (Transform α)) (t : Transform α) :
    (behind before t).size = before.elim 0 size + t.size := by
  cases before with
  | none => exact (Nat.zero_add _).symm
  | some first => rfl

/-- Reading the steps in another order of concatenation does not change their size. -/
theorem size_reread (t : Transform α) (before : Option (Transform α)) :
    (t.reread before).size = before.elim 0 size + t.size := by
  induction t generalizing before with
  | linear m =>
    rw [reread, size_behind, size_ofWritten]
    rfl
  | concatenated first second ihf ihs =>
    rw [reread, ihs, Option.elim_some, ihf, size, Nat.add_assoc]
  | passThrough leading inner trailing ih =>
    rw [reread, size_behind, size, size, ih, Option.elim_none, Nat.zero_add]
  | _ => exact size_behind before _

end Transform

/-! ## Steps one after the other -/

namespace Interpreter

variable {ops : Operation α → Prop} {i : Interpreter α} {e : Element α} {es es' : List (Element α)}
  {pool pool' : Pool α} {a s t u : Transform α} {actual before : Option (Transform α)}
  {p q : Prop}

/-- Elements are interpreted one after the other, and concatenated to what is there. -/
inductive Reads (i : Interpreter α) :
    Option (Transform α) → List (Element α) → Pool α → Transform α → Pool α → Prop where
  | nil {a : Transform α} {pool : Pool α} : Reads i (some a) [] pool a pool
  | first {e : Element α} {es : List (Element α)} {a u : Transform α} {pool pool₁ pool' : Pool α} :
      i.transformOf e pool = (.ok (some a), pool₁) → Reads i (some a) es pool₁ u pool' →
      Reads i none (e :: es) pool u pool'
  | next {e : Element α} {es : List (Element α)} {a b both u : Transform α}
      {pool pool₁ pool₂ pool' : Pool α} : i.transformOf e pool = (.ok (some b), pool₁) →
      i.builder.concatenate a b pool₁ = (.ok both, pool₂) → Reads i (some both) es pool₂ u pool' →
      Reads i (some a) (e :: es) pool u pool'

theorem reads_of_concatenateAll {parent : Element α} :
    ∀ {a pool}, i.concatenateAll parent a es pool = (.ok u, pool') →
      Reads i (some a) es pool u pool' := by
  induction es with
  | nil =>
    intro a pool h
    rw [concatenateAll_nil] at h
    cases h
    exact .nil
  | cons e es ih =>
    intro a pool h
    obtain ⟨b, pool₁, both, pool₂, hb, hboth, hrest⟩ := concatenateAll_cons_eq_ok_iff.1 h
    exact .next hb hboth (ih hrest)

/-- Steps that were combined are read one after the other. -/
theorem reads_of_combineSteps (hes : es ≠ [])
    (h : i.transformOf (combineSteps es) pool = (.ok (some u), pool')) :
    Reads i none es pool u pool' := by
  unfold combineSteps at h
  split at h
  · exact .first h .nil
  · have hkeyword := is_make (α := α) concatenationKeyword [] es
    cases transformOf_eq_ok_iff.1 h with
    | concatenation _ hchildren hc hall =>
      cases hchildren
      exact .first hc (reads_of_concatenateAll hall)
    | _ hother => exact absurd hother (Element.not_is hkeyword (by decide))

theorem Reads.append_some (h : Reads i (some a) (es ++ es') pool u pool') :
    ∃ mid pool₁, Reads i (some a) es pool mid pool₁ ∧ Reads i (some mid) es' pool₁ u pool' := by
  induction es generalizing a pool with
  | nil => exact ⟨a, pool, .nil, h⟩
  | cons e es ih =>
    cases h with
    | next hb hboth hrest =>
      obtain ⟨mid, pool₁, hmid, hlast⟩ := ih hrest
      exact ⟨mid, pool₁, .next hb hboth hmid, hlast⟩

/-- The second list of steps is read behind what comes of the first one. -/
theorem Reads.append (hes : es ≠ []) (h : Reads i before (es ++ es') pool u pool') :
    ∃ mid pool₁, Reads i before es pool mid pool₁ ∧ Reads i (some mid) es' pool₁ u pool' := by
  cases before with
  | some a => exact h.append_some
  | none =>
    cases es with
    | nil => exact absurd rfl hes
    | cons e es =>
      cases h with
      | first ha hrest =>
        obtain ⟨mid, pool₁, hmid, hlast⟩ := hrest.append_some
        exact ⟨mid, pool₁, .first ha hmid, hlast⟩

theorem Reads.sound (hregistry : i.builder.registry.Sound ops)
    (h : Reads i actual es pool u pool') (hactual : ∀ a, actual = some a → a.Sound ops)
    (hpool : Pool.Sound ops pool) : u.Sound ops ∧ Pool.Sound ops pool' := by
  induction h with
  | nil => exact ⟨hactual _ rfl, hpool⟩
  | first ha _ ih =>
    obtain ⟨hsound, hpool₁⟩ := sound_of_transformOf hregistry hpool ha
    exact ih (fun _ heq => Option.some.inj heq ▸ hsound) hpool₁
  | next hb hboth _ ih =>
    obtain ⟨hsound, hpool₁⟩ := sound_of_transformOf hregistry hpool hb
    obtain ⟨hpool₂, hresult⟩ := Builder.keeps_concatenate (Builder.closed_sound i.builder ops)
      (hactual _ rfl) hsound hpool₁ hboth
    exact ih (fun _ heq => Option.some.inj heq ▸ hresult _ rfl) hpool₂

/-! ## What comes of single steps -/

/-- What is there has come of what would be there without simplification. -/
def Follows (p : Prop) : Option (Transform α) → Option (Transform α) → Prop
  | none, none => p
  | some a, some r => Reduces p a r
  | _, _ => False

theorem Restores.result (h : Restores ops i e t) (hpool : Pool.Sound ops pool)
    (hu : i.transformOf e pool = (.ok (some u), pool')) : u.forget = t.forget := by
  obtain ⟨v, rest, hv, hforget, -⟩ := h hpool
  cases hv.symm.trans hu
  exact hforget

section

variable [Scalar.Discrete α] (hf : i.builder.Faithful ops)
  (hregistry : i.builder.registry.Sound ops)

include hf hregistry in
/-- A step reduces, and so does everything up to this step. -/
theorem reduces_step (hstep : ∀ {pool b pool'}, Pool.Sound ops pool →
      i.transformOf e pool = (.ok (some b), pool') → b.Reduces q s)
    (hpool : Pool.Sound ops pool) (hactual : ∀ a, actual = some a → a.Sound ops)
    (hfollows : Follows p actual before) (h : Reads i actual [e] pool u pool') :
    u.Reduces (p ∧ q ∧ Stays before s) (behind before s) := by
  cases h with
  | first hu hrest =>
    -- There is one step only, so nothing follows the first or the next one.
    cases hrest
    cases before with
    | none => exact (hstep hpool hu).congr ⟨fun hq => ⟨hfollows, hq, trivial⟩, fun hall => hall.2.1⟩
    | some r => exact hfollows.elim
  | next hb hboth hrest =>
    cases hrest
    cases before with
    | none => exact hfollows.elim
    -- What was read before is not the last step, and the builder puts both together.
    | some r =>
      obtain ⟨hsound, hpool₁⟩ := sound_of_transformOf hregistry hpool hb
      exact Reduces.concatenated hfollows (hstep hpool hb)
        (Builder.reduces_concatenate hf (hactual _ rfl) hsound hpool₁ hboth)

include hf hregistry in
/-- A leaf is kept when it stays as it is. -/
theorem reduces_leaf (hrestores : Restores ops i e s) (hpool : Pool.Sound ops pool)
    (hactual : ∀ a, actual = some a → a.Sound ops) (hfollows : Follows p actual before)
    (h : Reads i actual [e] pool u pool') : u.Reduces (p ∧ Stays before s) (behind before s) := by
  have hstep : ∀ {pool b pool'}, Pool.Sound ops pool →
      i.transformOf e pool = (.ok (some b), pool') → b.Reduces True s :=
    fun hpool hb => .of_forget (hrestores.result hpool hb)
  exact (reduces_step hf hregistry hstep hpool hactual hfollows h).congr (by rw [true_and])

include hf hregistry in
/-- A pass-through is kept when it copies something and its inner transform is kept. -/
theorem reduces_passThroughElement {implied : Option Nat}
    (himplied : ∀ n, implied = some n → n = i.impliedTrailing) {leading trailing : Nat}
    (hleading : Scalar.Unmistakable α leading) (htrailing : Scalar.Unmistakable α trailing)
    (hinner : ∀ {pool v pool'}, Pool.Sound ops pool →
      i.transformOf e pool = (.ok (some v), pool') → v.Reduces q s)
    (hpool : Pool.Sound ops pool)
    (h : i.transformOf (passThroughElement implied leading e trailing) pool =
      (.ok (some u), pool')) :
    u.Reduces (0 < leading + trailing ∧ q) (.passThrough leading s trailing) := by
  have hkeyword : (passThroughElement implied leading e trailing).is passThroughKeyword = true :=
    is_make _ _ _
  cases transformOf_eq_ok_iff.1 h with
  | @passThrough leading' trailing' c v pool₁ _ hcounts hchildren hv hu =>
    obtain ⟨rfl, rfl⟩ := eq_of_counts_passThroughElement himplied hleading htrailing hcounts
    cases hchildren
    -- The counts are those that were written, and one child is interpreted.
    have hreduces := hinner hpool hv
    obtain ⟨hsound, hpool₁⟩ := sound_of_transformOf hregistry hpool hv
    have hsize := hreduces.size_le
    obtain ⟨hnothing, rfl⟩ | ⟨hcopies, hpooled⟩ := Builder.passThrough_cases hu
    · -- A pass-through that copies nothing is its inner transform, which is smaller.
      refine .of_lt (fun hall => by omega) ?_
      rw [size]
      omega
    · -- A pass-through that copies something is pooled, and it is kept as far as its inner
      -- transform is.
      obtain ⟨w, rest, hw, hforget, -⟩ := Builder.restores_pooled hf hpool₁
        (t := .passThrough leading' v trailing') hsound
      cases hw.symm.trans hpooled
      refine ⟨fun hall => ?_, fun hnot => ?_⟩
      · rw [hforget, forget, forget, hreduces.1 hall.2]
      · have hlt := hreduces.2 fun hq => hnot ⟨hcopies, hq⟩
        rw [size_eq_of_forget hforget, size, size]
        omega
  | _ hother => exact absurd hother (Element.not_is hkeyword (by decide))

omit [Scalar.Discrete α] in
theorem stepElements_ne_nil (implied : Option Nat) (t : Transform α) :
    t.stepElements implied ≠ [] := by
  induction t with
  | concatenated first second ihf _ => exact List.append_ne_nil_of_left_ne_nil ihf _
  | _ => exact List.cons_ne_nil _ _

include hf hregistry in
/-- What comes of the steps of a transform is what they read as when all are kept, and smaller
otherwise. -/
theorem reduces_stepElements
    (hmatrix : i.builder.registry.get? Method.matrixName = some Method.matrix)
    (hkeeps : Scalar.KeepsCounts α) {implied : Option Nat}
    (himplied : ∀ n, implied = some n → n = i.impliedTrailing) (ht : t.Sound ops)
    (hdescribable : t.Describable (Scalar.Unmistakable α) i.builder.registry) :
    ∀ {p actual before pool u pool'}, Pool.Sound ops pool →
      (∀ a, actual = some a → a.Sound ops) → Follows p actual before →
      Reads i actual (t.stepElements implied) pool u pool' →
      u.Reduces (p ∧ t.Kept before) (t.reread before) := by
  induction t with
  | affine a =>
    intro p actual before pool u pool'
    have hrestores : Restores ops i (matrixElement a.toMatrix) (.affine a.forget) :=
      restores_matrixElement hf hmatrix hkeeps (ofMatrix_toMatrix a) (by decide : 2 ≤ 3 ∧ 3 ≤ 32)
        (by decide : 2 ≤ 3 ∧ 3 ≤ 32)
    exact reduces_leaf hf hregistry (s := .affine a) hrestores
  | linear m =>
    intro p actual before pool u pool'
    obtain ⟨s, hs⟩ := exists_ofMatrix (m := m) ht
    rw [Kept, reread, ofWritten_eq hs]
    exact reduces_leaf hf hregistry (restores_matrixElement hf hmatrix hkeeps hs
      ⟨ht.1, hdescribable.1⟩ ⟨ht.2, hdescribable.2⟩)
  | concatenated first second ihf ihs =>
    intro p actual before pool u pool' hpool hactual hfollows h
    obtain ⟨mid, pool₁, hmid, hlast⟩ := Reads.append (stepElements_ne_nil implied first) h
    obtain ⟨hsound, hpool₁⟩ := hmid.sound hregistry hactual hpool
    have hfirst : Follows (p ∧ first.Kept before) (some mid) (some (first.reread before)) :=
      ihf ht.1 hdescribable.1 hpool hactual hfollows hmid
    refine (ihs ht.2.1 hdescribable.2 hpool₁ (fun _ heq => Option.some.inj heq ▸ hsound) hfirst
      hlast).congr ?_
    rw [Kept, and_assoc]
  | passThrough leading inner trailing ih =>
    intro p actual before pool u pool' hpool hactual hfollows h
    rw [Kept, reread]
    refine reduces_step hf hregistry (fun hpool hb => ?_) hpool hactual hfollows h
    refine reduces_passThroughElement hf hregistry himplied hdescribable.2.1
      hdescribable.2.2 (fun hpool hv => ?_) hpool hb
    -- The steps inside start anew.
    have hstart : Follows True (none : Option (Transform α)) none := trivial
    have hnone : ∀ a, (none : Option (Transform α)) = some a → a.Sound ops := fun _ h => nomatch h
    exact (ih ht hdescribable.1 hpool hnone hstart
      (reads_of_combineSteps (stepElements_ne_nil implied inner) hv)).congr (by rw [true_and])
  | operation op =>
    intro p actual before pool u pool'
    exact reduces_leaf hf hregistry (restores_operation hf hdescribable ht)
  | inverseOperation op =>
    intro p actual before pool u pool'
    exact reduces_leaf hf hregistry (restores_inverseOperation hf hdescribable ht.1 ht.2)

end

end Interpreter

end CoordTransform
