import CoordTransform.Proofs.Element.Writing
import CoordTransform.Proofs.Transform.Sameness

/-!
# Normal Forms are Read Back Unchanged

What the interpreter makes of a written transform is in simplified form. A transform that already
is in the form that the builder gives, here called `Normal`, comes back as it was, up to the
inverses that its affine maps remember: no simplification applies to it, and every matrix entry is
written or left out by its representation.

Nothing is assumed of arithmetic here, so that this holds of doubles, `-0` included.
-/

namespace CoordTransform

open Transform Element

variable {α : Type}

section

variable [Scalar α]

/-! ## Normal forms -/

namespace Transform

/-- Two steps that the builder leaves apart: they are not two matrices, and not two pass-throughs
around the same components. -/
def Apart (first second : Transform α) : Prop :=
  (Builder.ownMatrix? first = none ∨ Builder.ownMatrix? second = none) ∧
    ∀ leading a b trailing, ¬(first = passThrough leading a trailing ∧
      second = passThrough leading b trailing)

/-- Whether a transform is a concatenation. -/
def isConcatenated : Transform α → Bool
  | concatenated _ _ => true
  | _ => false

/-- The forms that the builder gives. A concatenation is a list of steps, nested to the left. -/
inductive Normal : Transform α → Prop where
  | affine (a : Affine α) : Normal (.affine a)
  | linear {m : DenseMatrix α} : Affine.isPlaneMatrix m = false → Normal (.linear m)
  | operation (op : Operation α) : Normal (.operation op)
  | inverseOperation (op : Operation α) : Normal (.inverseOperation op)
  | passThrough {leading trailing : Nat} {inner : Transform α} : 0 < leading + trailing →
      Normal inner → Normal (.passThrough leading inner trailing)
  /-- The first two steps. -/
  | pair {first second : Transform α} : Normal first → first.isConcatenated = false →
      first.isIdentity = false → Normal second → second.isConcatenated = false →
      second.isIdentity = false → Apart first second → Normal (.concatenated first second)
  /-- A further step. -/
  | chain {first second : Transform α} : Normal first → first.isConcatenated = true →
      Normal second → second.isConcatenated = false → second.isIdentity = false →
      Normal (.concatenated first second)

variable {t u first second first' second' : Transform α}

/-- A transform in normal form that is a concatenation is no identity. -/
theorem Normal.isIdentity_of_isConcatenated (h : t.Normal) (ht : t.isConcatenated = true) :
    t.isIdentity = false := by
  cases h with
  | pair _ _ hid _ _ _ _ => simp only [isIdentity, hid, Bool.false_and]
  | chain _ _ _ _ hid => simp only [isIdentity, hid, Bool.and_false]
  | _ => cases ht

/-- A step is a single element. -/
theorem stepElements_of_not_concatenated (implied : Option Nat)
    (h : t.isConcatenated = false) : ∃ e, t.stepElements implied = [e] := by
  cases t with
  | concatenated first second => cases h
  | _ => exact ⟨_, rfl⟩

theorem Apart.of_concatenated (h : first.isConcatenated = true) : Apart first second := by
  cases first with
  | concatenated a b => exact ⟨.inl rfl, fun _ _ _ _ heq => nomatch heq.1⟩
  | _ => cases h

theorem Apart.of_forget (h : Apart first second) (hfirst : first'.forget = first.forget)
    (hsecond : second'.forget = second.forget) : Apart first' second' := by
  constructor
  · rw [ownMatrix?_eq_of_forget hfirst, ownMatrix?_eq_of_forget hsecond]
    exact h.1
  · rintro leading a b trailing ⟨rfl, rfl⟩
    obtain ⟨a', ha', -⟩ := eq_passThrough_of_forget hfirst
    obtain ⟨b', hb', -⟩ := eq_passThrough_of_forget hsecond
    exact h.2 leading a' b' trailing ⟨ha', hb'⟩

/-! ## Matrices -/

/-- The homogeneous matrix of an affine map is that of its coefficients. -/
theorem ofMatrix_toMatrix [Scalar.Discrete α] (a : Affine α) :
    ofMatrix a.toMatrix = .ok (affine a.forget) := by
  have hplane : Affine.isPlaneMatrix a.toMatrix = true := by
    have hentries : a.toMatrix.entry 2 0 = 0 ∧ a.toMatrix.entry 2 1 = 0 ∧
        a.toMatrix.entry 2 2 = 1 := ⟨rfl, rfl, rfl⟩
    have hrows : a.toMatrix.rows = 3 := rfl
    have hcols : a.toMatrix.cols = 3 := rfl
    simp [Affine.isPlaneMatrix, DenseMatrix.isAffine, hrows, hcols, hentries, List.range_succ,
      Scalar.Discrete.numEq_zero, Scalar.Discrete.numEq_one]
  unfold ofMatrix Affine.ofMatrix
  rw [if_pos hplane, if_pos hplane]
  rfl

theorem ofMatrix_of_not_plane {m : DenseMatrix α} (h : Affine.isPlaneMatrix m = false)
    (hm : 2 ≤ m.rows ∧ 2 ≤ m.cols) : ofMatrix m = .ok (linear m) := by
  rw [ofMatrix, if_neg (by simp [h]), linear?, if_neg]
  simp only [Bool.or_eq_true, decide_eq_true_eq]
  omega

end Transform

/-! ## The builder -/

namespace Builder

variable {ops : Operation α → Prop} {f : Builder α} {pool : Pool α}
  {t first second : Transform α}

/-- A computation succeeds on a pool, with a sound transform that differs from `t` in memory at
most. -/
def Restores (ops : Operation α → Prop) (x : Build α (Transform α)) (pool : Pool α)
    (t : Transform α) : Prop :=
  ∃ u pool', x pool = (.ok u, pool') ∧ u.forget = t.forget ∧ u.Sound ops ∧ Pool.Sound ops pool'

theorem restores_pooled [Scalar.Discrete α] (hf : f.Faithful ops) (hpool : Pool.Sound ops pool)
    (ht : t.Sound ops) : Restores ops (f.pooled t) pool t := by
  obtain ⟨member, hmember, huse, hsame, h⟩ | h | h := pooled_cases f t pool
  · have hsound := hpool member hmember
    exact ⟨member, pool, h, forget_eq_of_same (hf.determined huse) hsound ht hsame, hsound, hpool⟩
  · exact ⟨t, pool, h, rfl, ht, hpool⟩
  · exact ⟨t, pool ++ [t], h, rfl, ht, hpool.append ht⟩

theorem restores_create [Scalar.Discrete α] (hf : f.Faithful ops) (hpool : Pool.Sound ops pool)
    {name : String} {ps : Parameters α} {method : Method α}
    (hmethod : f.registry.get? name = some method) (hcreate : method.create ps = .ok t)
    (ht : t.Sound ops) : Restores ops (f.create name ps) pool t := by
  obtain ⟨u, pool', hu, hrest⟩ := restores_pooled hf hpool ht
  refine ⟨u, pool', ?_, hrest⟩
  unfold create
  rw [hmethod]
  refine (stateBind_of_ok (lift_eq_ok hcreate pool)).trans ?_
  rw [rounded_eq hf]
  exact hu

/-- Connected transforms that are not identities are multiplied as matrices or put together by
the last step. -/
theorem concatenate_of_connected (f : Builder α) (hdims : first.targetDim = second.sourceDim)
    (hfirst : first.isIdentity = false) (hsecond : second.isIdentity = false) (pool : Pool α) :
    f.concatenate first second pool =
      (match ownMatrix? first, ownMatrix? second with
        | some m, some n => do
          let p ← ExceptT.mk (pure (n.multiply m))
          f.ofMatrix p
        | _, _ => f.lastStep first second) pool := by
  have hrequire : Transform.requireConnected first second = .ok () :=
    if_pos (beq_iff_eq.2 hdims)
  rw [concatenate_eq]
  -- Of the steps of a concatenation only the last two are left.
  refine (stateBind_of_ok (lift_eq_ok hrequire pool)).trans ?_
  rw [hfirst, hsecond]
  rfl

/-- Steps that are apart are put one after the other as they are. -/
theorem concatenate_of_apart (f : Builder α) (hdims : first.targetDim = second.sourceDim)
    (hfirst : first.isIdentity = false) (hsecond : second.isIdentity = false)
    (hapart : Apart first second) (pool : Pool α) :
    f.concatenate first second pool = f.pooled (.concatenated first second) pool := by
  have hlast : f.lastStep first second = f.pooled (.concatenated first second) := by
    obtain ⟨leading, a, b, trailing, ha, hb, -⟩ | hplain := lastStep_cases f first second
    · exact absurd ⟨ha, hb⟩ (hapart.2 leading a b trailing)
    · exact hplain
  rw [concatenate_of_connected f hdims hfirst hsecond, hlast]
  rcases hapart.1 with hnone | hnone
  · rw [hnone]
  · rw [hnone]
    cases ownMatrix? first <;> rfl

end Builder

/-! ## The interpreter -/

namespace Interpreter

variable (ops : Operation α → Prop) (i : Interpreter α)

/-- Whatever is pooled, the interpreter makes `t` from an element, up to memory. -/
def Restores (e : Element α) (t : Transform α) : Prop :=
  ∀ ⦃pool⦄, Pool.Sound ops pool → ∃ u pool', i.transformOf e pool = (.ok (some u), pool') ∧
    u.forget = t.forget ∧ u.Sound ops ∧ Pool.Sound ops pool'

/-- A list of elements is interpreted as the steps of `t`. -/
def RestoresSteps (es : List (Element α)) (t : Transform α) : Prop :=
  ∃ e rest, es = e :: rest ∧ ∀ parent ⦃pool⦄, Pool.Sound ops pool →
    ∃ first pool₁ u pool', i.transformOf e pool = (.ok (some first), pool₁) ∧
      i.concatenateAll parent first rest pool₁ = (.ok u, pool') ∧
      u.forget = t.forget ∧ u.Sound ops ∧ Pool.Sound ops pool'

variable {ops i} {e : Element α} {es : List (Element α)} {t first second : Transform α}

theorem Restores.steps (h : Restores ops i e t) : RestoresSteps ops i [e] t := by
  refine ⟨e, [], rfl, fun parent pool hpool => ?_⟩
  obtain ⟨u, pool', hu, hrest⟩ := h hpool
  exact ⟨u, pool', u, pool', hu, concatenateAll_nil parent u pool', hrest⟩

theorem RestoresSteps.combine (h : RestoresSteps ops i es t) :
    Restores ops i (combineSteps es) t := by
  obtain ⟨e, rest, rfl, hsteps⟩ := h
  intro pool hpool
  -- One step is read alone, and more of them as the children of a concatenation.
  cases rest with
  | nil =>
    obtain ⟨first, pool₁, u, pool', hfirst, hu, hrest⟩ := hsteps e hpool
    rw [concatenateAll_nil] at hu
    cases hu
    exact ⟨first, pool₁, hfirst, hrest⟩
  | cons e₂ rest =>
    obtain ⟨first, pool₁, u, pool', hfirst, hu, hrest⟩ :=
      hsteps (.make concatenationKeyword [] (e :: e₂ :: rest)) hpool
    refine ⟨u, pool', ?_, hrest⟩
    exact transformOf_eq_ok_iff.2 (.concatenation (is_make _ _ _) rfl hfirst hu)

section

variable [Scalar.Discrete α]

/-- A step that stays apart from what is there comes behind it. -/
theorem RestoresSteps.snoc (hf : i.builder.Faithful ops) (hfirst : RestoresSteps ops i es first)
    (hsecond : Restores ops i e second) (hdims : first.targetDim = second.sourceDim)
    (hid : first.isIdentity = false) (hid' : second.isIdentity = false)
    (hapart : Apart first second) :
    RestoresSteps ops i (es ++ [e]) (.concatenated first second) := by
  obtain ⟨e₁, rest, rfl, hsteps⟩ := hfirst
  refine ⟨e₁, rest ++ [e], rfl, fun parent pool hpool => ?_⟩
  obtain ⟨a, pool₁, f, pool₂, ha, hall, hforget, hsound, hpool₂⟩ := hsteps parent hpool
  obtain ⟨s, pool₃, hs, hforget', hsound', hpool₃⟩ := hsecond hpool₂
  -- What was made of the steps is apart, too: the builder does not look at memory.
  have hconnected : f.targetDim = s.sourceDim := by
    rw [targetDim_eq_of_forget hforget, hdims, sourceDim_eq_of_forget hforget']
  obtain ⟨u, pool', hu, huforget, hrest⟩ := Builder.restores_pooled hf hpool₃
    (t := .concatenated f s) ⟨hsound, hsound', hconnected⟩
  refine ⟨a, pool₁, u, pool', ha, ?_, ?_, hrest⟩
  · refine concatenateAll_append hall (concatenateAll_cons_eq_ok_iff.2
      ⟨s, pool₃, u, pool', hs, ?_, concatenateAll_nil parent u pool'⟩)
    rw [Builder.concatenate_of_apart i.builder hconnected _ _ (hapart.of_forget hforget hforget')]
    · exact hu
    · rw [isIdentity_eq_of_forget hforget, hid]
    · rw [isIdentity_eq_of_forget hforget', hid']
  · rw [huforget, forget, forget, hforget, hforget']

/-- The elements of a single step come behind those of what is there. -/
theorem RestoresSteps.concatenated (hf : i.builder.Faithful ops) {implied : Option Nat}
    (hfirst : RestoresSteps ops i (first.stepElements implied) first)
    (hsecond : RestoresSteps ops i (second.stepElements implied) second)
    (hstep : second.isConcatenated = false) (hdims : first.targetDim = second.sourceDim)
    (hid : first.isIdentity = false) (hid' : second.isIdentity = false)
    (hapart : Apart first second) :
    RestoresSteps ops i ((Transform.concatenated first second).stepElements implied)
      (.concatenated first second) := by
  obtain ⟨e, he⟩ := stepElements_of_not_concatenated implied hstep
  rw [he] at hsecond
  rw [stepElements, he]
  exact hfirst.snoc hf hsecond.combine hdims hid hid' hapart

/-! ## Leaves and pass-throughs -/

/-- A matrix is read back entry by entry. -/
theorem restores_matrixElement (hf : i.builder.Faithful ops)
    (hmatrix : i.builder.registry.get? Method.matrixName = some Method.matrix)
    (hkeeps : Scalar.KeepsCounts α) {m : DenseMatrix α} (ht : Transform.ofMatrix m = .ok t)
    (hrows : 2 ≤ m.rows ∧ m.rows ≤ Method.largestSize)
    (hcols : 2 ≤ m.cols ∧ m.cols ≤ Method.largestSize) :
    Restores ops i (matrixElement m) t := by
  intro pool hpool
  obtain ⟨n, hn, -, -, heq⟩ := Method.matrixOfParameters_parametersOfMatrix hkeeps
    ⟨Nat.le_of_succ_le hrows.1, hrows.2⟩ ⟨Nat.le_of_succ_le hcols.1, hcols.2⟩
  rw [heq inferInstance] at hn
  have hcreate : (Method.matrix : Method α).create (.ofList (Method.parametersOfMatrix m).entries) =
      -- The parameters give the matrix back, so that the method makes the same transform of them.
      .ok t := bind_eq_ok.2 ⟨m, hn, ht⟩
  obtain ⟨u, pool', hu, hrest⟩ :=
    Builder.restores_create hf hpool hmatrix hcreate (.ofMatrix ht)
  exact ⟨u, pool', transformOf_operationElement hu, hrest⟩

omit [Scalar.Discrete α] in
theorem restores_operation (hf : i.builder.Faithful ops) {op : Operation α}
    (hop : Rebuilt i.builder.registry op) (hops : ops op) :
    Restores ops i (operationElement op.method op.parameters) (.operation op) := by
  intro pool hpool
  obtain ⟨pool', h, hpool'⟩ := transformOf_operation hf hop hops hpool
  exact ⟨.operation op, pool', h, rfl, hops, hpool'⟩

omit [Scalar.Discrete α] in
theorem restores_inverseOperation (hf : i.builder.Faithful ops) {op : Operation α}
    (hop : Rebuilt i.builder.registry op) (hops : ops op) (hinvertible : op.isInvertible = true) :
    Restores ops i (.make inverseKeyword [] [operationElement op.method op.parameters])
      (.inverseOperation op) := by
  intro pool hpool
  obtain ⟨pool', h, hpool'⟩ := transformOf_inverseOperation hf hop hops hinvertible hpool
  exact ⟨.inverseOperation op, pool', h, rfl, ⟨hops, hinvertible⟩, hpool'⟩

theorem restores_passThrough (hf : i.builder.Faithful ops) (hkeeps : Scalar.KeepsCounts α)
    {implied : Option Nat} (himplied : ∀ n, implied = some n → n = i.impliedTrailing)
    {leading trailing : Nat} (hcopies : 0 < leading + trailing) (hleading : leading ≤ largestCount)
    (htrailing : trailing ≤ largestCount) (h : Restores ops i e t) :
    Restores ops i (passThroughElement implied leading e trailing)
      (.passThrough leading t trailing) := by
  intro pool hpool
  -- The child is read first, and the counts are the ones that were written.
  obtain ⟨v, pool₁, hv, hforget, hsound, hpool₁⟩ := h hpool
  obtain ⟨u, pool', hu, huforget, hrest⟩ := Builder.restores_pooled hf hpool₁
    (t := .passThrough leading v trailing) hsound
  refine ⟨u, pool', ?_, by rw [huforget, forget, forget, hforget], hrest⟩
  have hbuilder : i.builder.passThrough leading v trailing pool₁ = (.ok u, pool') := by
    rw [Builder.passThrough, if_neg]
    · exact hu
    · simp only [Bool.and_eq_true, beq_iff_eq]
      omega
  exact transformOf_eq_ok_iff.2 (.passThrough (is_make _ _ _)
    (counts_passThroughElement hkeeps himplied hleading htrailing e) rfl hv hbuilder)

end

end Interpreter

end

/-! ## Texts -/

section

variable [Numeral α] [Scalar.Discrete α] {ops : Operation α → Prop} {i : Interpreter α}
  {implied : Option Nat}

open Interpreter

/-- The steps of a transform in normal form are read back as the transform. -/
theorem Transform.Normal.restoresSteps (hf : i.builder.Faithful ops)
    (hmatrix : i.builder.registry.get? Method.matrixName = some Method.matrix)
    (hkeeps : Scalar.KeepsCounts α) (himplied : ∀ n, implied = some n → n = i.impliedTrailing)
    {t : Transform α} (hnormal : t.Normal) (ht : t.Sound ops)
    (hwritable : t.Writable i.builder.registry) :
    RestoresSteps ops i (t.stepElements implied) t := by
  -- The induction is on the normal form: every form is written by the production that reads it.
  induction hnormal with
  | affine a =>
    exact (restores_matrixElement hf hmatrix hkeeps (ofMatrix_toMatrix a)
      (by decide : 2 ≤ 3 ∧ 3 ≤ 32) (by decide : 2 ≤ 3 ∧ 3 ≤ 32)).steps
  | linear hplane =>
    exact (restores_matrixElement hf hmatrix hkeeps (ofMatrix_of_not_plane hplane ht)
      ⟨ht.1, hwritable.1⟩ ⟨ht.2, hwritable.2.1⟩).steps
  | operation op => exact (restores_operation hf hwritable.1 ht).steps
  | inverseOperation op => exact (restores_inverseOperation hf hwritable.1 ht.1 ht.2).steps
  | passThrough hcopies _ ih =>
    exact (restores_passThrough hf hkeeps himplied hcopies hwritable.2.1.1 hwritable.2.2.1
      (ih ht hwritable.1).combine).steps
  -- Two parts stay apart, since neither is an identity and nothing can be merged.
  | pair _ _ hid _ hstep hid' hapart ihf ihs =>
    exact (ihf ht.1 hwritable.1).concatenated hf (ihs ht.2.1 hwritable.2) hstep ht.2.2 hid hid'
      hapart
  -- A chain is read step by step, and only its last step meets what is added.
  | chain hfirst hconcatenated _ hstep hid' ihf ihs =>
    exact (ihf ht.1 hwritable.1).concatenated hf (ihs ht.2.1 hwritable.2) hstep ht.2.2
      (hfirst.isIdentity_of_isConcatenated hconcatenated) hid' (.of_concatenated hconcatenated)

/-- The text of a transform in normal form reads as the same transform, with the representations of
all its numbers. Trailing counts may be left out where the interpreter implies them. -/
theorem Interpreter.parse_text_same (hf : i.builder.Faithful ops)
    (hmatrix : i.builder.registry.get? Method.matrixName = some Method.matrix)
    (hkeeps : Scalar.KeepsCounts α) {t : Transform α} (ht : t.Built ops) (hnormal : t.Normal)
    (hwritable : t.Writable i.builder.registry)
    (himplied : implied = none ∨ implied = some i.impliedTrailing)
    (hdepth : (t.toElement implied).depth ≤ largestDepth) {pool : Pool α}
    (hpool : Pool.Sound ops pool) :
    ∃ u pool', i.parse (t.text implied) pool = (.ok u, pool') ∧ u.same t = true := by
  obtain ⟨u, pool', hu, hforget, -⟩ := (hnormal.restoresSteps hf hmatrix hkeeps
    (eq_impliedTrailing himplied) ht.sound hwritable).combine hpool
  exact ⟨u, pool', parse_text_eq_ok hwritable hdepth hu, same_of_forget hforget⟩

end

namespace Shift

/-- A displacement that remembers its inverse. -/
def undoneDisplacement : Affine ℚ := ⟨⟨1, 0, 1, 0, 1, 0⟩, some ⟨1, 0, -1, 0, 1, 0⟩⟩

/-- Three steps, of which the last two are matrices that are not next to the first. -/
def steppedMap : Transform ℚ :=
  .concatenated
    (.concatenated (.passThrough 1 (.inverseOperation (operation 1)) 0)
      (.linear projectiveMatrix))
    (.affine undoneDisplacement)

theorem steppedMap_built : steppedMap.Built IsShift := by
  have hshift : (Transform.inverseOperation (operation (1 : ℚ))).Built IsShift :=
    .inverse (.operation ⟨1, rfl⟩) rfl
  have hmatrix : (Transform.linear projectiveMatrix).Built IsShift :=
    .ofMatrix (m := projectiveMatrix) (by with_unfolding_all rfl)
  have hdisplacement : (Transform.affine undoneDisplacement).Built IsShift :=
    .affine (.inverse (.ofCoefficients ⟨1, 0, -1, 0, 1, 0⟩) (by with_unfolding_all rfl))
  exact .concatenate (.concatenate (.passThrough 1 0 hshift) hmatrix rfl) hdisplacement rfl

theorem steppedMap_normal : steppedMap.Normal := by
  have hpass : (Transform.passThrough 1 (.inverseOperation (operation (1 : ℚ))) 0).Normal :=
    .passThrough (by decide) (.inverseOperation _)
  have hmatrix : (Transform.linear projectiveMatrix).Normal := .linear (by decide +kernel)
  exact .chain (.pair hpass rfl rfl hmatrix rfl (by decide +kernel)
    ⟨.inl rfl, fun _ _ _ _ h => nomatch h.2⟩) rfl (.affine _) rfl (by decide +kernel)

theorem steppedMap_writable : steppedMap.Writable interpreter.builder.registry := by
  have hdisplacement : (Method.parametersOfMatrix undoneDisplacement.toMatrix).Legible := by
    have hone : (Method.parametersOfMatrix undoneDisplacement.toMatrix).entries =
        [("elt_0_2", .number 1)] := by with_unfolding_all rfl
    intro e he x hx
    rw [hone, List.mem_singleton] at he
    subst he
    cases hx
    exact legible_one
  obtain ⟨⟨hpass, -⟩, ⟨hmatrix, -⟩, -⟩ := nestedMap_writable
  exact ⟨⟨hpass, hmatrix⟩, hdisplacement⟩

theorem parse_text_same_stepped : ∃ u pool',
    interpreter.parse (steppedMap.text none) [] = (.ok u, pool') ∧ u.same steppedMap = true :=
  Interpreter.parse_text_same interpreter_lawful.builder (by with_unfolding_all rfl)
    keepsCounts_rational steppedMap_built steppedMap_normal steppedMap_writable (.inl rfl)
    (by decide) (Pool.sound_nil _)

end Shift

end CoordTransform
