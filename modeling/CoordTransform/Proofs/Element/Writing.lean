import CoordTransform.Proofs.Element.Meaning
import CoordTransform.Proofs.Element.Similarity
import CoordTransform.Proofs.Method.Matrix

/-!
# Written Transforms are Read Back

The element of a transform, read from its text and interpreted, gives a transform that simplifies
the one that was written. Writing flattens concatenations into steps, and the interpreter nests
the steps to the left again; so the induction speaks about lists of steps, and about what they do
to a transform that is already there.
-/

namespace CoordTransform

open Transform Element

variable {α : Type}

/-! ## Steps of an interpretation -/

section

variable [Scalar α]

namespace Interpreter

variable (ops : Operation α → Prop) (i : Interpreter α)

/-- Whatever is pooled, the interpreter makes a simplification of `t` from an element. -/
def Interprets (e : Element α) (t : Transform α) : Prop :=
  ∀ ⦃pool⦄, Pool.Sound ops pool → ∃ u pool', i.transformOf e pool = (.ok (some u), pool') ∧
    u.Simplifies t ∧ u.Sound ops ∧ Pool.Sound ops pool'

/-- A list of elements is interpreted as the steps of `t`: from its first element on, and behind
a transform that is already there. -/
structure InterpretsSteps (es : List (Element α)) (t : Transform α) : Prop where
  start : ∃ e rest, es = e :: rest ∧ ∀ parent {pool}, Pool.Sound ops pool →
    ∃ first pool₁ u pool', i.transformOf e pool = (.ok (some first), pool₁) ∧
      i.concatenateAll parent first rest pool₁ = (.ok u, pool') ∧
      u.Simplifies t ∧ u.Sound ops ∧ Pool.Sound ops pool'
  behind : ∀ parent {a : Transform α} {pool}, a.Sound ops → a.targetDim = t.sourceDim →
    Pool.Sound ops pool → ∃ u pool', i.concatenateAll parent a es pool = (.ok u, pool') ∧
      u.Simplifies (.concatenated a t) ∧ u.Sound ops ∧ Pool.Sound ops pool'

omit [Scalar α] in
theorem is_make (keyword : String) (literals : List (Literal α)) (children : List (Element α)) :
    (Element.make keyword literals children).is keyword = true :=
  beq_self_eq_true _

variable {ops i} {e : Element α} {es es' : List (Element α)} {t first second : Transform α}

theorem concatenateAll_nil (parent : Element α) (t : Transform α) (pool : Pool α) :
    i.concatenateAll parent t [] pool = (.ok t, pool) := by
  rw [concatenateAll]
  rfl

theorem concatenateAll_append {parent : Element α} {both u : Transform α}
    {pool pool₁ pool' : Pool α} (h : i.concatenateAll parent first es pool = (.ok both, pool₁))
    (h' : i.concatenateAll parent both es' pool₁ = (.ok u, pool')) :
    i.concatenateAll parent first (es ++ es') pool = (.ok u, pool') := by
  induction es generalizing first pool with
  | nil =>
    rw [concatenateAll_nil] at h
    cases h
    exact h'
  | cons c cs ih =>
    obtain ⟨second, pool₂, next, pool₃, hsecond, hnext, hrest⟩ :=
      concatenateAll_cons_eq_ok_iff.1 h
    exact concatenateAll_cons_eq_ok_iff.2
      ⟨second, pool₂, next, pool₃, hsecond, hnext, ih hrest⟩

/-- A single element is a single step. -/
theorem Interprets.steps (hf : i.builder.Faithful ops) (h : Interprets ops i e t) :
    InterpretsSteps ops i [e] t where
  start := by
    refine ⟨e, [], rfl, fun parent pool hpool => ?_⟩
    obtain ⟨u, pool', hu, hrest⟩ := h hpool
    exact ⟨u, pool', u, pool', hu, concatenateAll_nil parent u pool', hrest⟩
  behind := by
    intro parent a pool ha hdims hpool
    obtain ⟨v, pool₁, hv, hsimplifies, hsound, hpool₁⟩ := h hpool
    obtain ⟨u, pool', hu, hboth, hrest⟩ := Builder.yields_concatenate hf ha hsound
      (hdims.trans hsimplifies.sourceDim_eq.symm) hpool₁
    refine ⟨u, pool', ?_, hboth.trans (.concatenated (.refl a) hsimplifies), hrest⟩
    exact concatenateAll_cons_eq_ok_iff.2
      ⟨v, pool₁, u, pool', hv, hu, concatenateAll_nil parent u pool'⟩

/-- The steps of a concatenation are those of its parts, one list behind the other. -/
theorem InterpretsSteps.append (hfirst : InterpretsSteps ops i es first)
    (hsecond : InterpretsSteps ops i es' second) (hdims : first.targetDim = second.sourceDim) :
    InterpretsSteps ops i (es ++ es') (.concatenated first second) where
  start := by
    obtain ⟨e, rest, rfl, hstart⟩ := hfirst.start
    refine ⟨e, rest ++ es', rfl, fun parent pool hpool => ?_⟩
    obtain ⟨a, pool₁, both, pool₂, ha, hboth, hsimplifies, hsound, hpool₂⟩ := hstart parent hpool
    -- The second list goes on behind what the first one has made.
    obtain ⟨u, pool', hu, husimplifies, hrest⟩ :=
      hsecond.behind parent hsound (hsimplifies.targetDim_eq.trans hdims) hpool₂
    exact ⟨a, pool₁, u, pool', ha, concatenateAll_append hboth hu,
      husimplifies.trans (hsimplifies.concatenated (.refl second)), hrest⟩
  behind := by
    intro parent a pool ha hadims hpool
    obtain ⟨both, pool₁, hboth, hsimplifies, hsound, hpool₁⟩ :=
      hfirst.behind parent ha hadims hpool
    obtain ⟨u, pool', hu, husimplifies, hrest⟩ :=
      hsecond.behind parent hsound (hsimplifies.targetDim_eq.trans hdims) hpool₁
    exact ⟨u, pool', concatenateAll_append hboth hu,
      husimplifies.trans ((hsimplifies.concatenated (.refl second)).trans .assoc_left), hrest⟩

/-- Steps are combined into one element. -/
theorem InterpretsSteps.combine (h : InterpretsSteps ops i es t) :
    Interprets ops i (combineSteps es) t := by
  intro pool hpool
  obtain ⟨e, rest, rfl, hstart⟩ := h.start
  -- A single step stands for itself, several become a concatenation.
  cases rest with
  | nil =>
    obtain ⟨first, pool₁, u, pool', hfirst, hu, hrest⟩ := hstart e hpool
    rw [concatenateAll_nil] at hu
    cases hu
    exact ⟨first, pool₁, hfirst, hrest⟩
  | cons e₂ rest =>
    obtain ⟨first, pool₁, u, pool', hfirst, hu, hrest⟩ :=
      hstart (.make concatenationKeyword [] (e :: e₂ :: rest)) hpool
    refine ⟨u, pool', ?_, hrest⟩
    exact transformOf_eq_ok_iff.2 (.concatenation (is_make _ _ _) rfl hfirst hu)

/-! ## Leaves -/

omit [Scalar α] in
theorem parameter?_parameterElement (p : String × ParameterValue α) :
    parameter? (parameterElement p) = .ok (some p) := by
  obtain ⟨name, value⟩ := p
  cases value <;> rfl

omit [Scalar α] in
/-- The parameters of a written operation are its parameters, set one after the other. -/
theorem parameters_operationElement (method : String) (ps : Parameters α) :
    parameters (operationElement method ps) = .ok (.ofList ps.entries) := by
  -- All children are parameters, and none lacks its value.
  have hfilter : (operationElement method ps).children.filter (·.is parameterKeyword) =
      ps.entries.map parameterElement := by
    refine List.filter_eq_self.2 fun e he => ?_
    obtain ⟨p, -, rfl⟩ := List.mem_map.1 he
    exact is_make _ _ _
  have hmap : ∀ es : List (String × ParameterValue α),
      (es.map parameterElement).mapM parameter? = .ok (es.map some) := by
    intro es
    induction es with
    | nil => rfl
    | cons e es ih =>
      rw [List.map_cons, List.mapM_cons, parameter?_parameterElement]
      exact bind_eq_ok.2 ⟨_, rfl, bind_eq_ok.2 ⟨_, ih, rfl⟩⟩
  unfold parameters
  rw [hfilter, hmap]
  change Except.ok _ = _
  rw [List.filterMap_map]
  exact congrArg (fun es => Except.ok (Parameters.ofList es)) (List.filterMap_some)

theorem transformOf_operationElement {method : String} {ps : Parameters α} {pool pool' : Pool α}
    (h : i.builder.create method (.ofList ps.entries) pool = (.ok t, pool')) :
    i.transformOf (operationElement method ps) pool = (.ok (some t), pool') :=
  transformOf_eq_ok_iff.2 (.operation (is_make _ _ _) (operation_eq_ok_iff.2
    ⟨method, .ofList ps.entries, rfl, parameters_operationElement method ps, h⟩))

/-- A matrix is written as an operation of the matrix method. -/
theorem interprets_matrixElement (hf : i.builder.Faithful ops)
    (hmatrix : i.builder.registry.get? Method.matrixName = some Method.matrix)
    (hkeeps : Scalar.KeepsCounts α) {m : DenseMatrix α} (ht : t.HasMatrix m)
    (hrows : m.rows ≤ Method.largestSize) (hcols : m.cols ≤ Method.largestSize) :
    Interprets ops i (matrixElement m) t := by
  intro pool hpool
  have hsize := ht.two_le
  -- The parameters that are written give the matrix back, and the matrix gives the transform.
  obtain ⟨n, hn, hnr, hnc, hexact⟩ := Method.matrixOfParameters_parametersOfMatrix hkeeps
    ⟨Nat.le_of_succ_le hsize.1, hrows⟩ ⟨Nat.le_of_succ_le hsize.2, hcols⟩
  obtain ⟨v, hv⟩ := exists_ofMatrix (m := n) (by rwa [hnr, hnc])
  have hcreate : (Method.matrix : Method α).create (.ofList (Method.parametersOfMatrix m).entries) =
      .ok v := bind_eq_ok.2 ⟨n, hn, hv⟩
  -- The dimensions are those of the matrix. Exact numbers also give the same images.
  have hvt : v.Simplifies t := by
    refine ⟨?_, ?_, ?_⟩
    · exact Nat.add_right_cancel ((ofMatrix_dims hv).1.symm.trans (hnc.trans ht.sourceDim_eq))
    · exact Nat.add_right_cancel ((ofMatrix_dims hv).2.symm.trans (hnr.trans ht.targetDim_eq))
    · intro hex ρ p q h
      rw [relates_ofMatrix_iff hv, hexact inferInstance]
      exact ht.relates_iff.1 h
  obtain ⟨u, pool', hu, hsimplifies, hrest⟩ :=
    Builder.yields_create hf hpool hmatrix hcreate (.ofMatrix hv)
  exact ⟨u, pool', transformOf_operationElement hu, hsimplifies.trans hvt, hrest⟩

/-- What the registry makes of an operation that was written. -/
structure Rebuilt (registry : Registry α) (op : Operation α) : Prop where
  method : ∃ method, registry.get? op.method = some method ∧
    method.create op.parameters = .ok (.operation op)
  parameters : ∃ es, op.parameters = .ofList es

/-- An operation is written with its method and its parameters, and comes back as it was. -/
theorem transformOf_operation (hf : i.builder.Faithful ops) {op : Operation α}
    (hop : Rebuilt i.builder.registry op) (hops : ops op) {pool : Pool α}
    (hpool : Pool.Sound ops pool) : ∃ pool',
      i.transformOf (operationElement op.method op.parameters) pool =
        (.ok (some (.operation op)), pool') ∧ Pool.Sound ops pool' := by
  obtain ⟨method, hmethod, hcreate⟩ := hop.method
  obtain ⟨es, hes⟩ := hop.parameters
  -- Setting the written parameters one by one gives the list that was written.
  have hagain : Parameters.ofList op.parameters.entries = op.parameters := by
    rw [hes, Parameters.ofList_entries_ofList]
  obtain ⟨pool', hpooled, hpool'⟩ := Builder.pooled_operation hf hpool hops
  refine ⟨pool', transformOf_operationElement ?_, hpool'⟩
  unfold Builder.create
  rw [hagain, hmethod]
  refine (stateBind_of_ok (Builder.lift_eq_ok hcreate pool)).trans ?_
  rw [Builder.rounded_eq hf]
  exact hpooled

theorem interprets_operation (hf : i.builder.Faithful ops) {op : Operation α}
    (hop : Rebuilt i.builder.registry op) (hops : ops op) :
    Interprets ops i (operationElement op.method op.parameters) (.operation op) := by
  intro pool hpool
  obtain ⟨pool', h, hpool'⟩ := transformOf_operation hf hop hops hpool
  exact ⟨.operation op, pool', h, .refl _, hops, hpool'⟩

/-- The inverse of an operation is written around the operation. -/
theorem transformOf_inverseOperation (hf : i.builder.Faithful ops) {op : Operation α}
    (hop : Rebuilt i.builder.registry op) (hops : ops op) (hinvertible : op.isInvertible = true)
    {pool : Pool α} (hpool : Pool.Sound ops pool) : ∃ pool',
      i.transformOf (.make inverseKeyword [] [operationElement op.method op.parameters]) pool =
        (.ok (some (.inverseOperation op)), pool') ∧ Pool.Sound ops pool' := by
  obtain ⟨pool', h, hpool'⟩ := transformOf_operation hf hop hops hpool
  have hinverse : (Transform.operation op).inverse = .ok (.inverseOperation op) := by
    unfold Transform.inverse
    exact (if_neg Bool.false_ne_true).trans (mapError_eq_ok.2 (if_pos hinvertible))
  exact ⟨pool', transformOf_eq_ok_iff.2 (.inverse (is_make _ _ _) rfl h hinverse), hpool'⟩

theorem interprets_inverseOperation (hf : i.builder.Faithful ops) {op : Operation α}
    (hop : Rebuilt i.builder.registry op) (hops : ops op) (hinvertible : op.isInvertible = true) :
    Interprets ops i
      (.make inverseKeyword [] [operationElement op.method op.parameters])
      (.inverseOperation op) := by
  intro pool hpool
  obtain ⟨pool', h, hpool'⟩ := transformOf_inverseOperation hf hop hops hinvertible hpool
  exact ⟨.inverseOperation op, pool', h, .refl _, ⟨hops, hinvertible⟩, hpool'⟩

theorem natural_of_literals {index n : Nat} (hkeeps : Scalar.KeepsCounts α)
    (hn : n ≤ largestCount) (h : e.literals[index]? = some (.number (Scalar.ofNat n))) :
    e.natural index = .ok n := by
  refine natural_eq_ok_iff.2 ⟨Scalar.ofNat n, ?_, hkeeps n (Nat.lt_of_le_of_lt hn (by decide)), hn⟩
  unfold Element.number Element.literal
  rw [h]
  rfl

/-- The counts of a written pass-through are read back, the implied one included. -/
theorem counts_passThroughElement (hkeeps : Scalar.KeepsCounts α) {implied : Option Nat}
    (himplied : ∀ n, implied = some n → n = i.impliedTrailing) {leading trailing : Nat}
    (hleading : leading ≤ largestCount) (htrailing : trailing ≤ largestCount)
    (inner : Element α) :
    i.counts (passThroughElement implied leading inner trailing) = .ok (leading, trailing) := by
  unfold passThroughElement
  refine counts_eq_ok_iff.2 ⟨natural_of_literals hkeeps hleading ?_, ?_⟩
  · dsimp only
    split <;> rfl
  · dsimp only
    split
    -- The trailing count is left out only where the interpreter implies it.
    · next h => exact .inl ⟨rfl, himplied trailing (eq_of_beq h)⟩
    · exact .inr ⟨rfl, natural_of_literals hkeeps htrailing rfl⟩

theorem natural_eq_of_literals {index n m : Nat} (hn : Scalar.Unmistakable α n)
    (h : e.literals[index]? = some (.number (Scalar.ofNat n))) (hm : e.natural index = .ok m) :
    m = n := by
  obtain ⟨x, hx, hnat, hle⟩ := natural_eq_ok_iff.1 hm
  unfold Element.number Element.literal at hx
  rw [h] at hx
  cases hx
  exact hn m (Nat.lt_of_le_of_lt hle (by decide)) hnat

/-- No other counts are read from a written pass-through than those it was written with. -/
theorem eq_of_counts_passThroughElement {implied : Option Nat}
    (himplied : ∀ n, implied = some n → n = i.impliedTrailing) {leading trailing : Nat}
    (hleading : Scalar.Unmistakable α leading) (htrailing : Scalar.Unmistakable α trailing)
    {inner : Element α} {leading' trailing' : Nat}
    (h : i.counts (passThroughElement implied leading inner trailing) =
      .ok (leading', trailing')) : leading' = leading ∧ trailing' = trailing := by
  unfold passThroughElement at h
  dsimp only at h
  split at h
  · -- The trailing count was left out, so it is the one that the interpreter implies.
    next hleft =>
    obtain ⟨hfirst, ⟨-, rfl⟩ | ⟨htwo, -⟩⟩ := counts_eq_ok_iff.1 h
    · exact ⟨natural_eq_of_literals hleading rfl hfirst, (himplied trailing (eq_of_beq hleft)).symm⟩
    · cases htwo
  · -- Both counts were written.
    obtain ⟨hfirst, ⟨hone, -⟩ | ⟨-, hsecond⟩⟩ := counts_eq_ok_iff.1 h
    · cases hone
    · exact ⟨natural_eq_of_literals hleading rfl hfirst,
        natural_eq_of_literals htrailing rfl hsecond⟩

theorem interprets_passThrough (hf : i.builder.Faithful ops) (hkeeps : Scalar.KeepsCounts α)
    {implied : Option Nat} (himplied : ∀ n, implied = some n → n = i.impliedTrailing)
    {leading trailing : Nat} (hleading : leading ≤ largestCount)
    (htrailing : trailing ≤ largestCount) (h : Interprets ops i e t) :
    Interprets ops i (passThroughElement implied leading e trailing)
      (.passThrough leading t trailing) := by
  intro pool hpool
  obtain ⟨v, pool₁, hv, hsimplifies, hsound, hpool₁⟩ := h hpool
  obtain ⟨u, pool', hu, husimplifies, hrest⟩ :=
    Builder.yields_passThrough hf hpool₁ leading hsound trailing
  refine ⟨u, pool', ?_, husimplifies.trans (hsimplifies.passThrough leading trailing), hrest⟩
  exact transformOf_eq_ok_iff.2 (.passThrough (is_make _ _ _)
    (counts_passThroughElement hkeeps himplied hleading htrailing e) rfl hv hu)

end Interpreter

/-! ## Transforms that can be expressed -/

namespace Transform

open Interpreter

/-- A transform can be described for a registry: sizes are not too large, counts are admitted, and
the registry makes every operation again from its method and its parameters. -/
def Describable (admitted : Nat → Prop) (registry : Registry α) : Transform α → Prop
  | affine _ => True
  | linear m => m.rows ≤ Method.largestSize ∧ m.cols ≤ Method.largestSize
  | concatenated first second =>
    first.Describable admitted registry ∧ second.Describable admitted registry
  | passThrough leading inner trailing =>
    inner.Describable admitted registry ∧ admitted leading ∧ admitted trailing
  | operation op => Rebuilt registry op
  | inverseOperation op => Rebuilt registry op

/-- A transform can be expressed for a registry: sizes and counts are not too large, and the
registry makes every operation again from its method and its parameters. -/
def Expressible (registry : Registry α) (t : Transform α) : Prop :=
  t.Describable (· ≤ largestCount) registry

omit [Scalar α] in
theorem Describable.mono {admitted admitted' : Nat → Prop} {registry : Registry α}
    {t : Transform α} (h : t.Describable admitted registry)
    (hadmitted : ∀ n, admitted n → admitted' n) : t.Describable admitted' registry := by
  induction t with
  | concatenated first second ihf ihs => exact ⟨ihf h.1, ihs h.2⟩
  | passThrough leading inner trailing ih =>
    exact ⟨ih h.1, hadmitted _ h.2.1, hadmitted _ h.2.2⟩
  | _ => exact h

variable {ops : Operation α → Prop} {i : Interpreter α} {implied : Option Nat}

/-- The steps of a transform are interpreted as the transform. -/
theorem Expressible.interpretsSteps (hf : i.builder.Faithful ops)
    (hmatrix : i.builder.registry.get? Method.matrixName = some Method.matrix)
    (hkeeps : Scalar.KeepsCounts α) (himplied : ∀ n, implied = some n → n = i.impliedTrailing)
    {t : Transform α} (ht : t.Sound ops) (hexpressible : t.Expressible i.builder.registry) :
    i.InterpretsSteps ops (t.stepElements implied) t := by
  -- Concatenations append lists of steps; every other form is a single step.
  induction t with
  | affine a =>
    exact (interprets_matrixElement hf hmatrix hkeeps (.affine a)
      (by decide : 3 ≤ 32) (by decide : 3 ≤ 32)).steps hf
  | linear m =>
    exact (interprets_matrixElement hf hmatrix hkeeps (.linear ht) hexpressible.1
      hexpressible.2).steps hf
  | concatenated first second ihf ihs =>
    exact (ihf ht.1 hexpressible.1).append (ihs ht.2.1 hexpressible.2) ht.2.2
  | passThrough leading inner trailing ih =>
    exact (interprets_passThrough hf hkeeps himplied hexpressible.2.1 hexpressible.2.2
      (ih ht hexpressible.1).combine).steps hf
  | operation op => exact (interprets_operation hf hexpressible ht).steps hf
  | inverseOperation op =>
    exact (interprets_inverseOperation hf hexpressible ht.1 ht.2).steps hf

end Transform

end

variable [Numeral α]

/-! ## Transforms that can be written -/

/-- All numbers among the parameters are legible. -/
def Parameters.Legible (ps : Parameters α) : Prop :=
  ∀ e ∈ ps.entries, ∀ x, e.2 = .number x → Numeral.Legible x

/-- A transform can be written for a registry: the numbers to be written are legible, sizes and
counts are not too large, and the registry makes every operation again from its method and its
parameters. -/
def Transform.Writable (registry : Registry α) : Transform α → Prop
  | affine a => (Method.parametersOfMatrix a.toMatrix).Legible
  | linear m => m.rows ≤ Method.largestSize ∧ m.cols ≤ Method.largestSize ∧
    (Method.parametersOfMatrix m).Legible
  | concatenated first second => first.Writable registry ∧ second.Writable registry
  | passThrough leading inner trailing => inner.Writable registry ∧
    (leading ≤ largestCount ∧ Numeral.Legible (Scalar.ofNat leading : α)) ∧
    (trailing ≤ largestCount ∧ Numeral.Legible (Scalar.ofNat trailing : α))
  | operation op => Interpreter.Rebuilt registry op ∧ op.parameters.Legible
  | inverseOperation op => Interpreter.Rebuilt registry op ∧ op.parameters.Legible

namespace Transform

open Interpreter

variable {ops : Operation α → Prop} {i : Interpreter α} {implied : Option Nat}

theorem writable_make {keyword : String} {literals : List (Literal α)}
    {children : List (Element α)} (hkeyword : Text.isWord keyword.toList = true)
    (hliterals : ∀ l ∈ literals, l.Writable) (hchildren : ∀ c ∈ children, c.Writable) :
    (Element.make keyword literals children).Writable :=
  .node hkeyword hliterals hchildren

theorem writable_operationElement (method : String) {ps : Parameters α} (hps : ps.Legible) :
    (operationElement method ps).Writable := by
  refine writable_make (by decide) ?_ ?_
  · intro l hl
    rw [List.mem_singleton.1 hl]
    trivial
  · -- A parameter is an element of two literals, its name and its value.
    intro c hc
    obtain ⟨⟨name, value⟩, he, rfl⟩ := List.mem_map.1 hc
    refine writable_make (by decide) ?_ (fun c hc => nomatch hc)
    intro l hl
    rcases List.mem_cons.1 hl with rfl | hl
    · trivial
    · rw [List.mem_singleton.1 hl]
      cases value with
      | number x => exact hps _ he x rfl
      | text s => trivial

theorem writable_combineSteps {es : List (Element α)} (hes : ∀ e ∈ es, e.Writable) :
    (combineSteps es).Writable := by
  unfold combineSteps
  split
  · exact hes _ List.mem_cons_self
  · exact writable_make (by decide) (fun l hl => nomatch hl) hes

/-- The literals of a pass-through are its counts, one or two of them. -/
theorem writable_passThroughElement {leading trailing : Nat} {e : Element α}
    (hleading : Numeral.Legible (Scalar.ofNat leading : α))
    (htrailing : Numeral.Legible (Scalar.ofNat trailing : α)) (he : e.Writable) :
    (passThroughElement implied leading e trailing).Writable := by
  refine writable_make (by decide) ?_ (List.forall_mem_singleton.2 he)
  split
  · intro l hl
    rw [List.map_singleton, List.mem_singleton] at hl
    rw [hl]
    exact hleading
  · intro l hl
    rw [List.map_cons, List.map_singleton, List.mem_pair] at hl
    rcases hl with rfl | rfl
    · exact hleading
    · exact htrailing

/-- The elements of a transform that can be written can be written. -/
theorem Writable.stepElements {registry : Registry α} {t : Transform α}
    (ht : t.Writable registry) : ∀ e ∈ t.stepElements implied, e.Writable := by
  -- Concatenations append lists of steps; every other form is a single step.
  induction t with
  | affine a => exact List.forall_mem_singleton.2 (writable_operationElement _ ht)
  | linear m => exact List.forall_mem_singleton.2 (writable_operationElement _ ht.2.2)
  | concatenated first second ihf ihs =>
    exact List.forall_mem_append.2 ⟨ihf ht.1, ihs ht.2⟩
  | passThrough leading inner trailing ih =>
    exact List.forall_mem_singleton.2
      (writable_passThroughElement ht.2.1.2 ht.2.2.2 (writable_combineSteps (ih ht.1)))
  | operation op => exact List.forall_mem_singleton.2 (writable_operationElement _ ht.2)
  | inverseOperation op =>
    exact List.forall_mem_singleton.2 (writable_make (by decide) (List.forall_mem_nil _)
      (List.forall_mem_singleton.2 (writable_operationElement _ ht.2)))

/-! ## What is written is interpreted -/

theorem Writable.expressible {registry : Registry α} {t : Transform α}
    (h : t.Writable registry) : t.Expressible registry := by
  induction t with
  | affine a => exact trivial
  | linear m => exact ⟨h.1, h.2.1⟩
  | concatenated first second ihf ihs => exact ⟨ihf h.1, ihs h.2⟩
  | passThrough leading inner trailing ih => exact ⟨ih h.1, h.2.1.1, h.2.2.1⟩
  | operation op => exact h.1
  | inverseOperation op => exact h.1

theorem interprets_stepElements (hf : i.builder.Faithful ops)
    (hmatrix : i.builder.registry.get? Method.matrixName = some Method.matrix)
    (hkeeps : Scalar.KeepsCounts α) (himplied : ∀ n, implied = some n → n = i.impliedTrailing)
    {t : Transform α} (ht : t.Sound ops) (hwritable : t.Writable i.builder.registry) :
    i.InterpretsSteps ops (t.stepElements implied) t :=
  hwritable.expressible.interpretsSteps hf hmatrix hkeeps himplied ht

end Transform

namespace Interpreter

variable {i : Interpreter α} {implied : Option Nat} {t u : Transform α} {pool pool' : Pool α}

omit [Numeral α] in
/-- A trailing count that is left out is the one that the interpreter implies. -/
theorem eq_impliedTrailing (h : implied = none ∨ implied = some i.impliedTrailing) :
    ∀ n, implied = some n → n = i.impliedTrailing := by
  rintro n rfl
  rcases h with h | h
  · cases h
  · exact Option.some.inj h

/-- The text of an element is read as the element is interpreted. -/
theorem parse_render_eq_ok {e : Element α} (he : e.Writable) (hdepth : e.depth ≤ largestDepth)
    (h : i.transformOf e pool = (.ok (some u), pool')) :
    i.parse e.render pool = (.ok u, pool') := by
  obtain ⟨e', he', hsimilar⟩ := parse_render he hdepth
  exact parse_eq_ok_iff.2 ⟨e', he', transformOf_similar _ hsimilar h⟩

theorem parse_text_eq_ok (hwritable : t.Writable i.builder.registry)
    (hdepth : (t.toElement implied).depth ≤ largestDepth)
    (h : i.transformOf (t.toElement implied) pool = (.ok (some u), pool')) :
    i.parse (t.text implied) pool = (.ok u, pool') :=
  parse_render_eq_ok (Transform.writable_combineSteps hwritable.stepElements) hdepth h

end Interpreter

/-- The text of a built transform reads as a transform with the same dimensions and, in exact
arithmetic, with all of its images. Trailing counts may be left out where the interpreter implies
them. -/
theorem Interpreter.parse_text {ops : Operation α → Prop} (hfits : ∀ op, ops op → op.Fits)
    {i : Interpreter α} (hf : i.builder.Faithful ops)
    (hmatrix : i.builder.registry.get? Method.matrixName = some Method.matrix)
    (hkeeps : Scalar.KeepsCounts α) {t : Transform α} (ht : t.Built ops)
    (hwritable : t.Writable i.builder.registry) {implied : Option Nat}
    (himplied : implied = none ∨ implied = some i.impliedTrailing)
    (hdepth : (t.toElement implied).depth ≤ largestDepth) {pool : Pool α}
    (hpool : Pool.Sound ops pool) :
    ∃ u pool', i.parse (t.text implied) pool = (.ok u, pool') ∧
      u.sourceDim = t.sourceDim ∧ u.targetDim = t.targetDim ∧
      (Scalar.Exact α → ∀ p q, t.apply p = .ok q → u.apply p = .ok q) := by
  obtain ⟨u, pool', hu, hsimplifies, -⟩ := (interprets_stepElements hf hmatrix hkeeps
    (eq_impliedTrailing himplied) ht.sound hwritable).combine hpool
  exact ⟨u, pool', parse_text_eq_ok hwritable hdepth hu, hsimplifies.sourceDim_eq,
    hsimplifies.targetDim_eq, fun _ p q hq => hsimplifies.apply hfits ht.sound hq⟩

namespace Shift

theorem toNat?_ofNat_rational (n : Nat) : Scalar.toNat? (Scalar.ofNat n : ℚ) = some n := by
  change (if (n : ℚ).den = 1 ∧ 0 ≤ (n : ℚ).num then some (n : ℚ).num.toNat else none) = some n
  simp

theorem keepsCounts_rational : Scalar.KeepsCounts ℚ :=
  fun n _ => toNat?_ofNat_rational n

theorem unmistakable_rational (n : Nat) : Scalar.Unmistakable ℚ n := by
  intro m _ hm
  rw [toNat?_ofNat_rational] at hm
  exact (Option.some.inj hm).symm

theorem legible_zero : Numeral.Legible (0 : ℚ) where
  finite := rfl
  plain := ⟨[], ['0'], by with_unfolding_all rfl, .inl rfl, List.cons_ne_nil _ _,
    List.forall_mem_singleton.2 rfl⟩
  reads := by with_unfolding_all rfl

theorem legible_one : Numeral.Legible (1 : ℚ) where
  finite := rfl
  plain := ⟨[], ['1'], by with_unfolding_all rfl, .inl rfl, List.cons_ne_nil _ _,
    List.forall_mem_singleton.2 rfl⟩
  reads := by with_unfolding_all rfl

/-- The matrix of `(x, y) ↦ (x, y) / (x + 1)`. -/
def projectiveMatrix : DenseMatrix ℚ := .ofFn 3 3 fun r c => if r = c ∨ r = 2 ∧ c = 0 then 1 else 0

/-- Concatenations inside each other, identities, and a pass-through of no components. -/
def nestedMap : Transform ℚ :=
  .concatenated
    (.concatenated (.passThrough 1 (.inverseOperation (operation 1)) 0) (.affine .identity))
    (.passThrough 0 (.concatenated (.linear projectiveMatrix) (.affine .identity)) 0)

theorem nestedMap_built : nestedMap.Built IsShift := by
  have hidentity : (Transform.affine (.identity : Affine ℚ)).Built IsShift :=
    .affine (.ofCoefficients _)
  have hshift : (Transform.inverseOperation (operation (1 : ℚ))).Built IsShift :=
    .inverse (.operation ⟨1, rfl⟩) rfl
  have hmatrix : (Transform.linear projectiveMatrix).Built IsShift :=
    .ofMatrix (m := projectiveMatrix) (by with_unfolding_all rfl)
  exact .concatenate (.concatenate (.passThrough 1 0 hshift) hidentity rfl)
    (.passThrough 0 0 (.concatenate hmatrix hidentity rfl)) rfl

theorem rebuilt_operation (d : ℚ) :
    Interpreter.Rebuilt interpreter.builder.registry (operation d) where
  method := ⟨Shift.method, get?_registry, create_parameters d⟩
  parameters := ⟨_, rfl⟩

theorem nestedMap_writable : nestedMap.Writable interpreter.builder.registry := by
  have hidentity : (Method.parametersOfMatrix (Affine.identity : Affine ℚ).toMatrix).Legible := by
    have hnone :
        (Method.parametersOfMatrix (Affine.identity : Affine ℚ).toMatrix).entries = [] := by
      with_unfolding_all rfl
    intro e he
    rw [hnone] at he
    cases he
  have hmatrix : (Method.parametersOfMatrix projectiveMatrix).Legible := by
    have hone : (Method.parametersOfMatrix projectiveMatrix).entries =
        [("elt_2_0", .number 1)] := by with_unfolding_all rfl
    intro e he x hx
    rw [hone, List.mem_singleton] at he
    subst he
    cases hx
    exact legible_one
  have hshift : (operation (1 : ℚ)).parameters.Legible := by
    intro e he x hx
    cases List.mem_singleton.1 he
    cases hx
    exact legible_one
  have hzero : 0 ≤ largestCount ∧ Numeral.Legible (Scalar.ofNat 0 : ℚ) := ⟨by decide, legible_zero⟩
  have hone : 1 ≤ largestCount ∧ Numeral.Legible (Scalar.ofNat 1 : ℚ) := ⟨by decide, legible_one⟩
  exact ⟨⟨⟨⟨rebuilt_operation 1, hshift⟩, hone, hzero⟩, hidentity⟩,
    ⟨⟨by decide, by decide, hmatrix⟩, hidentity⟩, hzero, hzero⟩

theorem parse_text_nested : ∃ u pool',
    interpreter.parse (nestedMap.text (some 0)) [] = (.ok u, pool') ∧
      u.sourceDim = 2 ∧ u.targetDim = 2 ∧ u.apply [5, 3] = .ok [5 / 6, 1 / 3] := by
  obtain ⟨u, pool', hparse, hsource, htarget, himages⟩ :=
    Interpreter.parse_text (fun _ => IsShift.fits) interpreter_lawful.builder
      (by with_unfolding_all rfl) keepsCounts_rational nestedMap_built nestedMap_writable
      (.inr rfl) (by decide) (Pool.sound_nil _)
  exact ⟨u, pool', hparse, hsource, htarget,
    himages inferInstance [5, 3] [5 / 6, 1 / 3] (by with_unfolding_all rfl)⟩

end Shift

end CoordTransform
