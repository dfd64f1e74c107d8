import CoordTransform.Proofs.Builder.Concatenation
import CoordTransform.Proofs.Element.Reachable

/-!
# The Meaning of Elements

Every element has a meaning of its own, a relation between points that follows the grammar and
knows nothing of builders, pools or simplification:

* an operation relates the points that the map of its method computes, a matrix those that it
  takes to each other in homogeneous coordinates;
* a concatenation is the composition of its children in the order of the text;
* an inverse is the converse of its only child;
* a pass-through is its child between copied components.

The transform that the interpreter makes of an element computes every pair of points in this
relation. The invariant of the induction is stronger than that: the pairs are in the paired
relation of the transform, which inverses turn round and simplifications keep.
-/

namespace CoordTransform

open Transform

variable {α : Type}

/-! ## Laws of methods -/

/-- The transforms that the methods of a registry make are built from operations in `ops`, and
each operation in them is undone by its opposite map in the direction in which it is applied. -/
structure Registry.Lawful [Scalar α] (ops : Operation α → Prop) (registry : Registry α) :
    Prop where
  built : ∀ {name method ps t}, registry.get? name = some method → method.create ps = .ok t →
    t.Built ops
  undone : ∀ {name method ps t}, registry.get? name = some method → method.create ps = .ok t →
    t.WellFormed Operation.BackwardUndoes Operation.ForwardUndoes

section

variable [Scalar α] [Scalar.Exact α]

/-! ## Meaning -/

mutual

/-- The points that an element relates. -/
inductive Element.Means (i : Interpreter α) : Element α → List α → List α → Prop where
  | matrix {e : Element α} {name : String} {ps : Parameters α} {m : DenseMatrix α}
      {p q : List α} : e.is Element.operationKeyword = true → e.quotedText 0 = .ok name →
      Interpreter.parameters e = .ok ps →
      i.builder.registry.get? name = some Method.matrix →
      Method.matrixOfParameters ps = .ok m → Projects m p q → Means i e p q
  | operation {e : Element α} {name : String} {ps : Parameters α} {method : Method α}
      {t : Transform α} {p q : List α} : e.is Element.operationKeyword = true →
      e.quotedText 0 = .ok name → Interpreter.parameters e = .ok ps →
      i.builder.registry.get? name = some method → method.create ps = .ok t →
      t.apply p = .ok q → Means i e p q
  | concatenation {e : Element α} {p q : List α} : e.is Element.concatenationKeyword = true →
      MeansAll i e.children p q → Means i e p q
  | inverse {e c : Element α} {p q : List α} : e.is Element.inverseKeyword = true →
      e.children = [c] → Means i c q p → Means i e p q
  | passThrough {e c : Element α} {leading trailing : Nat} {before after r s : List α} :
      e.is Element.passThroughKeyword = true → e.natural 0 = .ok leading →
      (e.literals.length = 1 ∧ trailing = i.impliedTrailing ∨
        e.literals.length = 2 ∧ e.natural 1 = .ok trailing) → e.children = [c] →
      before.length = leading → after.length = trailing → Means i c r s →
      Means i e (before ++ r ++ after) (before ++ s ++ after)

/-- The points that a list of elements relates, one after the other. -/
inductive Element.MeansAll (i : Interpreter α) : List (Element α) → List α → List α → Prop where
  | nil {p : List α} : MeansAll i [] p p
  | cons {c : Element α} {cs : List (Element α)} {p r q : List α} : Means i c p r →
      MeansAll i cs r q → MeansAll i (c :: cs) p q

end

/-! ## Soundness of the interpreter -/

variable {ops : Operation α → Prop} {i : Interpreter α} {e c : Element α}
  {cs : List (Element α)} {pool pool' : Pool α} {t u first : Transform α} {p q r : List α}

omit [Scalar.Exact α] in
theorem Registry.Lawful.sound {registry : Registry α} (hregistry : registry.Lawful ops) :
    registry.Sound ops :=
  fun _ _ _ _ hmethod hcreate => (hregistry.built hmethod hcreate).sound

omit [Scalar.Exact α] in
/-- What a method computes is in the paired relation of the transform it makes. -/
theorem Registry.Lawful.relates_of_apply {registry : Registry α}
    (hregistry : registry.Lawful ops) (hfits : ∀ op, ops op → op.Fits) {name : String}
    {method : Method α} {ps : Parameters α} (hmethod : registry.get? name = some method)
    (hcreate : method.create ps = .ok t) (h : t.apply p = .ok q) : t.Relates .paired p q := by
  have hlaws := (hregistry.sound hmethod hcreate).and (hregistry.undone hmethod hcreate)
  refine Transform.relates_of_apply (Reading.paired_covers.mono ?_ ?_) ?_ ?_ hlaws h
  · exact fun op hop => hop.2
  · exact fun op hop => hop.2
  · exact fun op hop => hfits op hop.1
  · exact fun op hop => hfits op hop.1.1

/-- The assumptions on an interpreter under which it is sound: its builder simplifies faithfully
and the methods of its registry are lawful. -/
structure Interpreter.Lawful (ops : Operation α → Prop) (i : Interpreter α) : Prop where
  fits : ∀ op, ops op → op.Fits
  builder : i.builder.Faithful ops
  registry : i.builder.registry.Lawful ops

/-- The invariant: a sound transform that relates all that `means` does, and a sound pool. -/
structure Carries (ops : Operation α → Prop) (t : Transform α) (pool : Pool α)
    (means : List α → List α → Prop) : Prop where
  sound : t.Sound ops
  pool_sound : Pool.Sound ops pool
  relates : ∀ {p q}, means p q → t.Relates .paired p q

namespace Interpreter

theorem carries_operation (hi : i.Lawful ops) (hkeyword : e.is Element.operationKeyword = true)
    (hpool : Pool.Sound ops pool) (h : i.operation e pool = (.ok t, pool')) :
    Carries ops t pool' (e.Means i) := by
  obtain ⟨name, ps, hname, hps, hcreate⟩ := operation_eq_ok_iff.1 h
  obtain ⟨method, u, hmethod, hu, -⟩ := Builder.create_eq_ok hcreate
  obtain ⟨hsimplifies, hsound, hpool'⟩ := (Builder.yields_create hi.builder hpool hmethod hu
    (hi.registry.sound hmethod hu)).result hcreate
  refine ⟨hsound, hpool', fun hmeans => hsimplifies.relates ?_⟩
  -- The meaning of an operation is that of its method: of the matrix, or of what was created.
  cases hmeans with
  | matrix _ hname' hps' hmethod' hm hprojects =>
    cases hname.symm.trans hname'
    cases hps.symm.trans hps'
    cases hmethod.symm.trans hmethod'
    obtain ⟨m, hm', ht⟩ := bind_eq_ok.1 hu
    cases hm.symm.trans hm'
    exact (relates_ofMatrix_iff ht).2 hprojects
  | operation _ hname' hps' hmethod' hu' hq =>
    cases hname.symm.trans hname'
    cases hps.symm.trans hps'
    cases hmethod.symm.trans hmethod'
    cases hu.symm.trans hu'
    exact hi.registry.relates_of_apply hi.fits hmethod hu hq
  -- The keyword is that of an operation, so that no other production applies.
  | _ hother => exact absurd hother (Element.not_is hkeyword (by decide))

/-- Steps one after the other carry the composition of their meanings, when each step carries
its own. -/
theorem carries_concatenateAll (hi : i.Lawful ops) {parent : Element α}
    (hsteps : ∀ c ∈ cs, ∀ {pool pool' t}, i.transformOf c pool = (.ok (some t), pool') →
      Pool.Sound ops pool → Carries ops t pool' (c.Means i))
    {means : List α → List α → Prop} (hfirst : Carries ops first pool means)
    (h : i.concatenateAll parent first cs pool = (.ok t, pool')) :
    Carries ops t pool' fun p q => ∃ r, means p r ∧ Element.MeansAll i cs r q := by
  -- `means` grows with every step: it is what the transform so far carries.
  induction cs generalizing first pool means with
  | nil =>
    obtain ⟨rfl, rfl⟩ := statePure_eq_ok_iff.1 h
    refine ⟨hfirst.sound, hfirst.pool_sound, ?_⟩
    intro p q hmeans
    obtain ⟨r, hpr, hrq⟩ := hmeans
    cases hrq
    exact hfirst.relates hpr
  | cons c cs ih =>
    obtain ⟨second, pool₁, both, pool₂, hsecond, hboth, hrest⟩ :=
      concatenateAll_cons_eq_ok_iff.1 h
    have hstep := hsteps c List.mem_cons_self hsecond hfirst.pool_sound
    have hdims : first.targetDim = second.sourceDim := by
      by_contra hne
      rw [Builder.concatenate_of_disconnected hne] at hboth
      cases hboth
    obtain ⟨hsimplifies, hsound, hpool₂⟩ := (Builder.yields_concatenate hi.builder hfirst.sound
      hstep.sound hdims hstep.pool_sound).result hboth
    have hcarries : Carries ops both pool₂ fun p q => ∃ r, means p r ∧ c.Means i r q :=
      ⟨hsound, hpool₂, fun ⟨r, hfr, hcr⟩ =>
        hsimplifies.relates ⟨r, hfirst.relates hfr, hstep.relates hcr⟩⟩
    have hall := ih (fun c' hc' => hsteps c' (List.mem_cons_of_mem c hc')) hcarries hrest
    refine ⟨hall.sound, hall.pool_sound, ?_⟩
    intro p q hmeans
    obtain ⟨r, hpr, hrq⟩ := hmeans
    cases hrq with
    | cons hc hcs => exact hall.relates ⟨_, ⟨r, hpr, hc⟩, hcs⟩

theorem carries_concatenation (hi : i.Lawful ops)
    (hkeyword : e.is Element.concatenationKeyword = true) (hchildren : e.children = c :: cs)
    (hsteps : ∀ c ∈ cs, ∀ {pool pool' t}, i.transformOf c pool = (.ok (some t), pool') →
      Pool.Sound ops pool → Carries ops t pool' (c.Means i))
    (hfirst : Carries ops first pool (c.Means i))
    (h : i.concatenateAll e first cs pool = (.ok t, pool')) :
    Carries ops t pool' (e.Means i) := by
  -- The steps carry over one by one; the meaning of the whole is the chain of their meanings.
  have hcarries := carries_concatenateAll hi hsteps hfirst h
  refine ⟨hcarries.sound, hcarries.pool_sound, fun hmeans => hcarries.relates ?_⟩
  cases hmeans with
  | concatenation _ hchain =>
    rw [hchildren] at hchain
    cases hchain with
    | cons hstep hrest => exact ⟨_, hstep, hrest⟩
  | _ hother => exact absurd hkeyword (Element.not_is hother (by decide))

theorem carries_inverse (hkeyword : e.is Element.inverseKeyword = true)
    (hchildren : e.children = [c]) (hchild : Carries ops t pool (c.Means i))
    (h : t.inverse = .ok u) : Carries ops u pool (e.Means i) := by
  have hinverse := inverseOf_of_inverse h
  refine ⟨hinverse.sound hchild.sound, hchild.pool_sound, fun hmeans => ?_⟩
  cases hmeans with
  | inverse _ hchildren' hconverse =>
    cases hchildren.symm.trans hchildren'
    exact hinverse.relates hchild.sound (hchild.relates hconverse)
  | _ hother => exact absurd hkeyword (Element.not_is hother (by decide))

theorem carries_passThrough (hi : i.Lawful ops)
    (hkeyword : e.is Element.passThroughKeyword = true) {leading trailing : Nat}
    (hcounts : i.counts e = .ok (leading, trailing)) (hchildren : e.children = [c])
    (hchild : Carries ops t pool (c.Means i))
    (h : i.builder.passThrough leading t trailing pool = (.ok u, pool')) :
    Carries ops u pool' (e.Means i) := by
  obtain ⟨hsimplifies, hsound, hpool'⟩ := (Builder.yields_passThrough hi.builder
    hchild.pool_sound leading hchild.sound trailing).result h
  refine ⟨hsound, hpool', fun hmeans => hsimplifies.relates ?_⟩
  cases hmeans with
  -- The counts are determined by the element, and the inner points are related by the child.
  | passThrough _ hleading htrailing hchildren' hbefore hafter hinner =>
    cases hchildren.symm.trans hchildren'
    cases hcounts.symm.trans (counts_eq_ok_iff.2 ⟨hleading, htrailing⟩)
    exact ⟨_, _, _, _, hbefore, hafter, rfl, rfl, hchild.relates hinner⟩
  | _ hother => exact absurd hkeyword (Element.not_is hother (by decide))

/-- The interpreter carries the meaning of an element over to its transform. -/
theorem carries_transformOf (hi : i.Lawful ops) (e : Element α) :
    ∀ {pool pool' t}, i.transformOf e pool = (.ok (some t), pool') → Pool.Sound ops pool →
      Carries ops t pool' (e.Means i) := by
  -- The induction is on the element, one production at a time.
  induction e using Element.childInduction with
  | _ e ih =>
  intro pool pool' t h hpool
  cases transformOf_eq_ok_iff.1 h with
  | operation hkeyword hoperation => exact carries_operation hi hkeyword hpool hoperation
  | concatenation hkeyword hchildren hc hall =>
    rw [hchildren] at ih
    exact carries_concatenation hi hkeyword hchildren
      (fun c' hc' => ih c' (List.mem_cons_of_mem _ hc')) (ih _ List.mem_cons_self hc hpool) hall
  | inverse hkeyword hchildren hc hu =>
    rw [hchildren] at ih
    exact carries_inverse hkeyword hchildren (ih _ List.mem_cons_self hc hpool) hu
  | passThrough hkeyword hcounts hchildren hc hu =>
    rw [hchildren] at ih
    exact carries_passThrough hi hkeyword hcounts hchildren (ih _ List.mem_cons_self hc hpool) hu

end Interpreter

end

/-! ## Texts -/

/-- The pools that a lawful interpreter comes to are sound. -/
theorem Interpreter.Lawful.pool_sound [Numeral α] {ops : Operation α → Prop} {i : Interpreter α}
    (hi : i.Lawful ops) {pool : Pool α} (h : i.Reaches ops pool) : Pool.Sound ops pool :=
  h.sound hi.registry.sound

/-- The transform of an accepted text computes every pair of points in the meaning of the text,
whatever the interpreter has pooled before. -/
theorem Interpreter.apply_of_means [Numeral α] [Scalar.Exact α] {ops : Operation α → Prop}
    {i : Interpreter α} (hi : i.Lawful ops) {pool pool' : Pool α} (hpool : Pool.Sound ops pool)
    {text : String} {t : Transform α} (h : i.parse text pool = (.ok t, pool')) :
    ∃ e, Element.parse text = .ok e ∧ ∀ p q, e.Means i p q → t.apply p = .ok q := by
  obtain ⟨e, he, ht⟩ := parse_eq_ok_iff.1 h
  exact ⟨e, he, fun p q hmeans => ((carries_transformOf hi e ht hpool).relates hmeans).apply⟩

/-! ## An interpreter with shifts -/

namespace Shift

/-- The methods of the library and shifts are lawful. -/
theorem registry_lawful [Scalar α] [Scalar.Exact α] :
    (registry (α := α)).Lawful IsShift := by
  constructor
  · intro name m ps t hm ht
    -- A method of the registry is the shift or the matrix.
    rcases eq_of_get?_registry hm with rfl | rfl
    · obtain ⟨d, -, hd⟩ := bind_eq_ok.1 ht
      cases hd
      exact .operation ⟨d, rfl⟩
    · obtain ⟨matrix, -, hmatrix⟩ := bind_eq_ok.1 ht
      exact .ofMatrix hmatrix
  · intro name m ps t hm ht
    rcases eq_of_get?_registry hm with rfl | rfl
    · obtain ⟨d, -, hd⟩ := bind_eq_ok.1 ht
      cases hd
      exact IsShift.backwardUndoes ⟨d, rfl⟩
    · obtain ⟨matrix, -, hmatrix⟩ := bind_eq_ok.1 ht
      exact .ofMatrix hmatrix

/-- An interpreter that pools, and copies no trailing component unless told to. -/
def interpreter : Interpreter ℚ := ⟨⟨registry, {}⟩, 0⟩

theorem interpreter_lawful : interpreter.Lawful IsShift where
  fits _ := IsShift.fits
  builder := ⟨rfl, fun _ _ _ ho ho' => ho.eq_of_same ho'⟩
  registry := registry_lawful

/-- A shift of the second component taken back, and a projective map of the plane. -/
def projectiveText : String :=
  "CONCAT_MT[INVERSE_MT[PASSTHROUGH_MT[1,PARAM_MT[\"Shift\",PARAMETER[\"by\",1]]]]," ++
    "PARAM_MT[\"Affine\",PARAMETER[\"elt_2_0\",1]]]"

def projectiveElement : Element ℚ :=
  .node "CONCAT_MT" 0 []
    [.node "INVERSE_MT" 10 []
      [.node "PASSTHROUGH_MT" 21 [.number 1]
        [.node "PARAM_MT" 38 [.text "Shift"] [.node "PARAMETER" 55 [.text "by", .number 1] []]]],
    .node "PARAM_MT" 76 [.text "Affine"]
      [.node "PARAMETER" 94 [.text "elt_2_0", .number 1] []]]

theorem means_projective : projectiveElement.Means interpreter [5, 3] [5 / 6, 1 / 3] := by
  -- Each element of the tree is given its meaning, from the inside out.
  have hshift : Element.Means interpreter
      (.node "PARAM_MT" 38 [.text "Shift"] [.node "PARAMETER" 55 [.text "by", .number 1] []])
      [2] [3] :=
    .operation (by decide) rfl rfl get?_registry rfl (by with_unfolding_all rfl)
  have hpassThrough : Element.Means interpreter
      (.node "PASSTHROUGH_MT" 21 [.number 1]
        [.node "PARAM_MT" 38 [.text "Shift"] [.node "PARAMETER" 55 [.text "by", .number 1] []]])
      ([5] ++ [2] ++ []) ([5] ++ [3] ++ []) :=
    .passThrough (by decide) (by with_unfolding_all rfl) (.inl ⟨rfl, rfl⟩) rfl rfl rfl hshift
  have hmatrix : Element.Means interpreter
      (.node "PARAM_MT" 76 [.text "Affine"]
        [.node "PARAMETER" 94 [.text "elt_2_0", .number 1] []]) [5, 2] [5 / 6, 1 / 3] := by
    refine .matrix (m := .ofFn 3 3 fun r c => if r = c ∨ r = 2 ∧ c = 0 then 1 else 0) (by decide)
      rfl rfl rfl (by with_unfolding_all rfl) ?_
    exact (applyMatrix_eq_ok_iff rfl (by decide)).1 (by with_unfolding_all rfl)
  exact .concatenation (by decide)
    (.cons (.inverse (by decide) rfl hpassThrough) (.cons hmatrix .nil))

set_option maxRecDepth 2000 in
theorem apply_of_means_projective : ∃ t pool',
    interpreter.parse projectiveText [] = (.ok t, pool') ∧
      t.apply [5, 3] = .ok [5 / 6, 1 / 3] := by
  -- That the text is read is evaluated; what its transform does is the theorem.
  have hparse : (interpreter.parse projectiveText []).1.toBool = true := by decide +kernel
  have helement : (Element.parse projectiveText : Except (ElementError ℚ) (Element ℚ)) =
      .ok projectiveElement := by with_unfolding_all rfl
  cases hresult : interpreter.parse projectiveText [] with
  | mk result pool' =>
    rw [hresult] at hparse
    cases result with
    | error e => cases hparse
    | ok t =>
      obtain ⟨e, he, hmeans⟩ :=
        Interpreter.apply_of_means interpreter_lawful (Pool.sound_nil _) hresult
      cases helement.symm.trans he
      exact ⟨t, pool', rfl, hmeans _ _ means_projective⟩

end Shift

/-! ## An interpreter with two methods of one name -/

namespace Namesake

/-- The laws of methods do not tell two methods of one name apart. -/
theorem registry_lawful [Scalar α] [Scalar.Exact α] (n : Nat) :
    (registry (α := α) n).Lawful IsStep := by
  constructor
  · intro name m ps t hm ht
    obtain rfl | rfl | rfl := eq_of_get?_registry hm
    · cases ht
      exact .operation ⟨1, 1, ps, rfl⟩
    · cases ht
      exact .operation ⟨n, 1 + 1, ps, rfl⟩
    · obtain ⟨matrix, -, hmatrix⟩ := bind_eq_ok.1 ht
      exact .ofMatrix hmatrix
  · intro name m ps t hm ht
    obtain rfl | rfl | rfl := eq_of_get?_registry hm
    · cases ht
      exact IsStep.backwardUndoes ⟨1, 1, ps, rfl⟩
    · cases ht
      exact IsStep.backwardUndoes ⟨n, 1 + 1, ps, rfl⟩
    · obtain ⟨matrix, -, hmatrix⟩ := bind_eq_ok.1 ht
      exact .ofMatrix hmatrix

/-- An interpreter that pools. -/
def interpreter (n : Nat) : Interpreter ℚ := ⟨⟨registry n, {}⟩, 0⟩

/-- A step by one and a step by two. -/
def stepsText : String := "CONCAT_MT[PARAM_MT[\"Step_v1\"],PARAM_MT[\"Step_v2\"]]"

def stepsElement : Element ℚ :=
  .node "CONCAT_MT" 0 [] [.node "PARAM_MT" 10 [.text "Step_v1"] [],
    .node "PARAM_MT" 30 [.text "Step_v2"] []]

theorem means_steps : stepsElement.Means (interpreter 1) [0] [3] := by
  have hfirst : Element.Means (interpreter 1) (.node "PARAM_MT" 10 [.text "Step_v1"] []) [0] [1] :=
    .operation (by decide) rfl rfl (get?_first 1) rfl (by with_unfolding_all rfl)
  have hsecond :
      Element.Means (interpreter 1) (.node "PARAM_MT" 30 [.text "Step_v2"] []) [1] [3] :=
    .operation (by decide) rfl rfl (get?_second 1) rfl (by with_unfolding_all rfl)
  exact .concatenation (by decide) (.cons hfirst (.cons hsecond .nil))

set_option maxRecDepth 2000 in
/-- Both steps add one: the second is the same as the first, which is in the pool. -/
theorem apply_ne_of_means :
    (∀ op, IsStep (α := ℚ) op → op.Fits) ∧ (registry (α := ℚ) 1).Lawful IsStep ∧
    ∃ t pool', (interpreter 1).parse stepsText [] = (.ok t, pool') ∧
      Element.parse stepsText = .ok stepsElement ∧
      stepsElement.Means (interpreter 1) [0] [3] ∧ t.apply [0] = .ok [2] := by
  have helement : (Element.parse stepsText : Except (ElementError ℚ) (Element ℚ)) =
      .ok stepsElement := by with_unfolding_all rfl
  have htransform : (interpreter 1).transformOf stepsElement [] =
      (.ok (some (.concatenated (step 1 1) (step 1 1))),
        [step 1 1, .concatenated (step 1 1) (step 1 1)]) := by with_unfolding_all rfl
  exact ⟨fun _ => IsStep.fits, registry_lawful 1, _, _,
    Interpreter.parse_eq_ok_iff.2 ⟨_, helement, htransform⟩, helement, means_steps,
    by with_unfolding_all rfl⟩

end Namesake

end CoordTransform
