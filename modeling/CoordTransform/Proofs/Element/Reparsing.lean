import CoordTransform.Proofs.Element.Acceptance
import CoordTransform.Proofs.Element.Expressible
import CoordTransform.Proofs.Element.NormalForms
import CoordTransform.Proofs.Element.Refusal

/-!
# Which Written Transforms are Accepted Again

The text of a transform that came from a text is accepted again, by the same interpreter, exactly
when it is not nested too deeply and all numbers in it are finite.

Neither is certain. Merging pass-throughs puts a concatenation into a pass-through, which may be one
level more than the text had. And a product of matrices may overflow; then it is written with the
word `inf` for a coefficient, and the matrix method does not take a word for a number.
-/

namespace CoordTransform

open Transform Element

variable {α : Type} [Numeral α]

/-! ## Elements of transforms consist of numbers and texts -/

namespace Element

/-- A number or a text. -/
def NoWord (l : Literal α) : Prop := ∀ w, l ≠ .word w

omit [Numeral α] in
theorem Consists.of_mentions {P : Literal α → Prop} (htext : ∀ s, P (.text s)) {e : Element α}
    (he : e.Consists NoWord) : (∀ x, Mentions x e → P (.number x)) → e.Consists P := by
  induction he with
  | @make keyword literals children hword hliterals _ ih =>
  intro hnumber
  refine .make hword (fun l hl => ?_) fun c hc => ih c hc fun x hx => hnumber x (.child hc hx)
  cases l with
  | number x => exact hnumber x (.literal hl)
  | text s => exact htext s
  | word w => exact absurd rfl (hliterals _ hl w)

theorem writable_of_consists {e : Element α} (he : e.Consists Literal.Writable) : e.Writable := by
  induction he with
  | make hword hliterals _ ih => exact .node hword hliterals ih

theorem finite_of_writable {x : α} {e : Element α} (hx : Mentions x e) :
    e.Writable → Scalar.isFinite x = true := by
  induction hx with
  | literal hx =>
    rintro ⟨-, hliterals, -⟩
    exact (hliterals _ hx).finite
  | child hc _ ih =>
    rintro ⟨-, -, hchildren⟩
    exact ih (hchildren _ hc)

end Element

namespace Transform

omit [Numeral α] in
theorem consists_operationElement (method : String) (ps : Parameters α) :
    (operationElement method ps).Consists NoWord := by
  have htext : ∀ s, NoWord (.text s : Literal α) := fun s w h => nomatch h
  refine .make (by decide) (List.forall_mem_singleton.2 (htext method)) ?_
  refine List.forall_mem_map.2 fun p _ => .make (by decide) ?_ (List.forall_mem_nil _)
  refine List.forall_mem_cons.2 ⟨htext p.1, List.forall_mem_singleton.2 ?_⟩
  cases p.2 with
  | number x => exact fun w h => nomatch h
  | text s => exact htext s

omit [Numeral α] in
theorem consists_combineSteps {P : Literal α → Prop} {es : List (Element α)}
    (hes : ∀ e ∈ es, e.Consists P) : (combineSteps es).Consists P := by
  unfold combineSteps
  split
  · exact hes _ List.mem_cons_self
  · exact .make (by decide) (List.forall_mem_nil _) hes

theorem consists_stepElements (implied : Option Nat) (t : Transform α) :
    ∀ e ∈ t.stepElements implied, e.Consists NoWord := by
  induction t with
  | affine a => exact List.forall_mem_singleton.2 (consists_operationElement _ _)
  | linear m => exact List.forall_mem_singleton.2 (consists_operationElement _ _)
  | concatenated first second ihf ihs => exact List.forall_mem_append.2 ⟨ihf, ihs⟩
  | passThrough leading inner trailing ih =>
    -- The counts of a pass-through are numbers, and its child is a combination of steps.
    refine List.forall_mem_singleton.2 (.make (by decide) (List.forall_mem_map.2 fun n _ w h => ?_)
      (List.forall_mem_singleton.2 (consists_combineSteps ih)))
    cases h
  | operation op => exact List.forall_mem_singleton.2 (consists_operationElement _ _)
  | inverseOperation op =>
    exact List.forall_mem_singleton.2 (.make (by decide) (List.forall_mem_nil _)
      (List.forall_mem_singleton.2 (consists_operationElement _ _)))

end Transform

/-! ## Elements that are answered -/

namespace Interpreter

variable {i : Interpreter α} {e : Element α}

/-- The interpreter makes a transform of an element, at least from one pool. -/
def Answers (i : Interpreter α) (e : Element α) : Prop :=
  ∃ pool t pool', i.transformOf e pool = (.ok (some t), pool')

theorem answers_of_concatenateAll {parent : Element α} {cs : List (Element α)} :
    ∀ {first pool t pool'}, i.concatenateAll parent first cs pool = (.ok t, pool') →
      ∀ c ∈ cs, i.Answers c := by
  induction cs with
  | nil => exact fun _ => List.forall_mem_nil _
  | cons c cs ih =>
    intro first pool t pool' h
    obtain ⟨second, pool₁, both, pool₂, hc, -, hrest⟩ := concatenateAll_cons_eq_ok_iff.1 h
    exact List.forall_mem_cons.2 ⟨⟨pool, second, pool₁, hc⟩, ih hrest⟩

/-- An element other than an operation is answered after all of its children. -/
theorem Answers.children (h : i.Answers e) (hkeyword : ¬e.is operationKeyword = true) :
    ∀ c ∈ e.children, i.Answers c := by
  obtain ⟨pool, t, pool', h⟩ := h
  -- Whatever the production, no child can fail before the whole is answered.
  cases transformOf_eq_ok_iff.1 h with
  | operation hoperation => exact absurd hoperation hkeyword
  | concatenation _ hchildren hc hall =>
    rw [hchildren]
    exact List.forall_mem_cons.2 ⟨⟨_, _, _, hc⟩, answers_of_concatenateAll hall⟩
  | inverse _ hchildren hc _ =>
    rw [hchildren]
    exact List.forall_mem_singleton.2 ⟨_, _, _, hc⟩
  | passThrough _ _ hchildren hc _ =>
    rw [hchildren]
    exact List.forall_mem_singleton.2 ⟨_, _, _, hc⟩

end Interpreter

/-! ## Answered elements show what they are -/

theorem Literal.seen_eq_number {l : Literal α} {x : α} (h : l.seen = .number x) : l.seen = l := by
  unfold Literal.seen at h ⊢
  split at h
  · split at h
    · cases h
    · next hx => exact if_neg hx
  · rfl

/-- What the value of a written parameter looks like to the reader. -/
def ParameterValue.seen : ParameterValue α → ParameterValue α
  | .number x => Interpreter.parameterValue (Literal.number x).seen
  | .text s => .text s

theorem ParameterValue.seen_eq_number {x y : α} (h : (ParameterValue.number x).seen = .number y) :
    (Literal.number x).seen = .number x := by
  change Interpreter.parameterValue (Literal.number x).seen = .number y at h
  cases hseen : (Literal.number x).seen with
  | number z => exact hseen ▸ Literal.seen_eq_number hseen
  | text s =>
    rw [hseen] at h
    cases h
  | word w =>
    rw [hseen] at h
    cases h

namespace Transform

/-- Numbers that look like what they are make an operation that does. -/
theorem seen_operationElement (method : String) {ps : Parameters α}
    (h : ∀ p ∈ ps.entries, ∀ x, p.2 = .number x → (Literal.number x).seen = .number x) :
    (operationElement method ps).seen = operationElement method ps := by
  rw [operationElement, seen_make, List.map_map]
  refine congrArg (Element.make operationKeyword [.text method]) (List.map_congr_left ?_)
  rintro ⟨name, value⟩ hp
  refine (seen_make _ _ _).trans ?_
  cases value with
  | number x =>
    exact congrArg (fun l => Element.make parameterKeyword [.text name, l] []) (h _ hp x rfl)
  | text s => rfl

theorem seen_operationElement_of_finite (method : String) {ps : Parameters α} (h : ps.Finite) :
    (operationElement method ps).seen = operationElement method ps := by
  refine seen_operationElement method fun p hp x hx => Literal.seen_of_finite fun y hy => ?_
  cases hy
  exact h p hp x hx

theorem seen_combineSteps (es : List (Element α)) :
    (combineSteps es).seen = combineSteps (es.map seen) := by
  unfold combineSteps
  split
  · rfl
  · next hes =>
    rw [seen_make]
    split
    · next e heq =>
      obtain ⟨e', rfl, -⟩ := List.map_eq_singleton_iff.1 heq
      exact absurd rfl (hes e')
    · rfl

end Transform

namespace Interpreter

variable {i : Interpreter α} {e : Element α} {admitted : Nat → Prop}

theorem seen_parameterElement (p : String × ParameterValue α) :
    (parameterElement p).seen.collected? = some (p.1, p.2.seen) := by
  obtain ⟨name, value⟩ := p
  cases value <;> rfl

/-- The parameters that are collected from what is seen of an operation. -/
theorem collected_seen (method : String) (ps : Parameters α) :
    (operationElement method ps).seen.collected =
      .ofList (ps.entries.map fun p => (p.1, p.2.seen)) := by
  have hchildren : (operationElement method ps).seen.children =
      ps.entries.map fun p => (parameterElement p).seen := by
    rw [operationElement, seen_make, List.map_map]
    rfl
  -- All children of an operation are parameters, so that none of them is passed over.
  have hfilter : (ps.entries.map fun p => (parameterElement p).seen).filter
      (·.is parameterKeyword) = ps.entries.map fun p => (parameterElement p).seen := by
    refine List.filter_eq_self.2 (List.forall_mem_map.2 fun p _ => ?_)
    rw [parameterElement, seen_make]
    exact is_make _ _ _
  unfold Element.collected
  rw [hchildren, hfilter, List.filterMap_map]
  refine congrArg Parameters.ofList ?_
  rw [← List.filterMap_eq_map]
  exact List.filterMap_congr fun p _ => seen_parameterElement p

/-- An operation is answered by its method, from what is seen of its parameters. -/
theorem Answers.method {name : String} {ps : Parameters α}
    (h : i.Answers (operationElement name ps).seen) : ∃ method t,
      i.builder.registry.get? name = some method ∧
      method.create (.ofList (ps.entries.map fun p => (p.1, p.2.seen))) = .ok t := by
  obtain ⟨pool, t, pool', h⟩ := h
  have hkeyword : (operationElement name ps).seen.is operationKeyword = true := by
    rw [operationElement, seen_make]
    exact is_make _ _ _
  -- The name is the one that was written, and the method was found under it.
  cases transformOf_eq_ok_iff.1 h with
  | operation _ hoperation =>
    obtain ⟨name', ps', hname, hps, hcreate⟩ := operation_eq_ok_iff.1 hoperation
    obtain ⟨-, rfl⟩ := parameters_eq_ok_iff.1 hps
    rw [quotedText_eq_ok_iff, operationElement, seen_make] at hname
    cases hname
    obtain ⟨method, u, hmethod, hu, -⟩ := Builder.create_eq_ok hcreate
    rw [collected_seen] at hu
    exact ⟨method, u, hmethod, hu⟩
  | _ hother => exact absurd hother (Element.not_is hkeyword (by decide))

/-- The matrix method takes no word for a number. -/
theorem seen_matrixElement
    (hmatrix : i.builder.registry.get? Method.matrixName = some Method.matrix)
    (hkeeps : Scalar.KeepsCounts α) {m : DenseMatrix α}
    (hrows : 1 ≤ m.rows ∧ m.rows ≤ Method.largestSize)
    (hcols : 1 ≤ m.cols ∧ m.cols ≤ Method.largestSize) (h : i.Answers (matrixElement m).seen) :
    (matrixElement m).seen = matrixElement m := by
  obtain ⟨hdistinct, hnames⟩ := Method.names_parametersOfMatrix hkeeps hrows hcols
  -- Seeing a parameter does not change its name, so that names stay distinct.
  have hdistinct' : Parameters.Distinct
      ((Method.parametersOfMatrix m).entries.map fun p => (p.1, p.2.seen)) := by
    rw [Parameters.distinct_iff_names] at hdistinct ⊢
    rwa [List.map_map]
  obtain ⟨method, t, hmethod, hcreate⟩ := h.method
  cases hmatrix.symm.trans hmethod
  obtain ⟨n, hn, -⟩ := bind_eq_ok.1 hcreate
  rw [Parameters.ofList_of_distinct hdistinct'] at hn
  refine seen_operationElement _ fun p hp x hx => ?_
  obtain ⟨y, hy⟩ := Method.number_of_matrixOfParameters hdistinct' hn (List.mem_map_of_mem hp)
    (hnames p hp).1
  rw [hx] at hy
  exact ParameterValue.seen_eq_number hy

/-- Counts are numbers. -/
theorem Answers.counts {literals : List (Literal α)} {children : List (Element α)}
    (h : i.Answers (Element.make passThroughKeyword literals children)) :
    ∀ l ∈ literals, ∃ x, l = .number x := by
  have hkeyword := is_make passThroughKeyword literals children
  obtain ⟨pool, t, pool', h⟩ := h
  -- Either way each count is read as a number, and so was written as one.
  cases transformOf_eq_ok_iff.1 h with
  | passThrough _ hcounts =>
    cases Element.counts_eq_ok_iff.1 hcounts with
    | implied hliterals hleading =>
      obtain ⟨x, rfl, -⟩ := hleading
      cases hliterals
      exact List.forall_mem_singleton.2 ⟨x, rfl⟩
    | written hliterals hleading htrailing =>
      obtain ⟨x, rfl, -⟩ := hleading
      obtain ⟨y, rfl, -⟩ := htrailing
      cases hliterals
      exact List.forall_mem_cons.2 ⟨⟨x, rfl⟩, List.forall_mem_singleton.2 ⟨y, rfl⟩⟩
  | _ hother => exact absurd hother (Element.not_is hkeyword (by decide))

theorem Answers.steps {es : List (Element α)} (h : i.Answers (combineSteps es)) :
    ∀ e ∈ es, i.Answers e := by
  unfold combineSteps at h
  split at h
  · exact List.forall_mem_singleton.2 h
  · exact h.children (Element.not_is (is_make _ _ _) (by decide))

theorem seen_passThroughElement {implied : Option Nat} {leading trailing : Nat}
    (h : i.Answers (passThroughElement implied leading e trailing).seen)
    (he : i.Answers e.seen → e.seen = e) :
    (passThroughElement implied leading e trailing).seen =
      passThroughElement implied leading e trailing := by
  rw [passThroughElement, seen_make, List.map_singleton] at h ⊢
  have hcounts := h.counts
  rw [he (h.children (Element.not_is (is_make _ _ _) (by decide)) _ List.mem_cons_self)]
  refine congrArg (fun ls => Element.make passThroughKeyword ls [e]) ?_
  refine (List.map_congr_left fun l hl => ?_).trans (List.map_id _)
  obtain ⟨x, hx⟩ := hcounts _ (List.mem_map_of_mem hl)
  exact Literal.seen_eq_number hx

/-- What is answered of a written transform is what was written. -/
theorem seen_stepElements
    (hmatrix : i.builder.registry.get? Method.matrixName = some Method.matrix)
    (hkeeps : Scalar.KeepsCounts α) (implied : Option Nat) {t : Transform α}
    (ht : t.Sound i.builder.registry.Owns)
    (hdescribable : t.Describable admitted i.builder.registry) :
    (∀ e ∈ t.stepElements implied, i.Answers e.seen) →
      ∀ e ∈ t.stepElements implied, e.seen = e := by
  induction t with
  | affine a =>
    intro h
    have hsize : 1 ≤ 3 ∧ 3 ≤ 32 := by decide
    exact List.forall_mem_singleton.2
      (seen_matrixElement hmatrix hkeeps hsize hsize (h _ List.mem_cons_self))
  | linear m =>
    intro h
    exact List.forall_mem_singleton.2 (seen_matrixElement hmatrix hkeeps
      ⟨Nat.le_of_succ_le ht.1, hdescribable.1⟩ ⟨Nat.le_of_succ_le ht.2, hdescribable.2⟩
      (h _ List.mem_cons_self))
  | concatenated first second ihf ihs =>
    intro h
    obtain ⟨hfirst, hsecond⟩ := List.forall_mem_append.1 h
    exact List.forall_mem_append.2
      ⟨ihf ht.1 hdescribable.1 hfirst, ihs ht.2.1 hdescribable.2 hsecond⟩
  | passThrough leading inner trailing ih =>
    intro h
    -- What was answered has merged steps of its own, which are seen through like the steps.
    refine List.forall_mem_singleton.2 (seen_passThroughElement (h _ List.mem_cons_self) ?_)
    intro hinner
    rw [seen_combineSteps] at hinner ⊢
    have hsteps := ih ht hdescribable.1 (List.forall_mem_map.1 hinner.steps)
    rw [(List.map_congr_left hsteps).trans (List.map_id _)]
  | operation op =>
    exact fun _ => List.forall_mem_singleton.2
      (seen_operationElement_of_finite _ ht.finite)
  | inverseOperation op =>
    refine fun _ => List.forall_mem_singleton.2 ((seen_make _ _ _).trans ?_)
    -- Under the inverse stands one operation, whose numbers are finite.
    rw [List.map_singleton, seen_operationElement_of_finite _ ht.1.finite]
    rfl

/-! ## Texts -/

variable {implied : Option Nat} {before later : List String} {text : String} {t u : Transform α}
  {pool pool' : Pool α}

theorem consists_toElement (implied : Option Nat) (t : Transform α) :
    (t.toElement implied).Consists NoWord :=
  consists_combineSteps (consists_stepElements implied t)

/-- When the text of a transform is accepted, then it is the element of the transform that is read
and interpreted. -/
theorem transformOf_of_parse_text [Numeral.Marked α]
    (hmatrix : i.builder.registry.get? Method.matrixName = some Method.matrix)
    (hkeeps : Scalar.KeepsCounts α) (ht : t.Sound i.builder.registry.Owns)
    (hdescribable : t.Describable admitted i.builder.registry)
    (hlegible : ∀ x, Mentions x (t.toElement implied) → Scalar.isFinite x = true →
      Numeral.Legible x)
    (h : i.parse (t.text implied) pool = (.ok u, pool')) :
    (t.toElement implied).Writable ∧ (t.toElement implied).depth ≤ largestDepth ∧
      i.transformOf (t.toElement implied) pool = (.ok (some u), pool') := by
  obtain ⟨e, he, hinterpreted⟩ := parse_eq_ok_iff.1 h
  -- What was read is what is seen of the written element, and that is the element itself.
  have hregular : (t.toElement implied).Consists Literal.Regular :=
    (consists_toElement implied t).of_mentions (fun _ => trivial) hlegible
  obtain ⟨hwritable, hdepth, hsimilar⟩ := parse_seen hregular he
  have hanswered := transformOf_similar _ hsimilar.symm hinterpreted
  have hseen : (t.toElement implied).seen = t.toElement implied := by
    have hanswers : i.Answers (t.toElement implied).seen := ⟨pool, u, pool', hanswered⟩
    unfold toElement at hanswers ⊢
    rw [seen_combineSteps] at hanswers ⊢
    have hsteps := seen_stepElements hmatrix hkeeps implied ht hdescribable
      (List.forall_mem_map.1 hanswers.steps)
    rw [(List.map_congr_left hsteps).trans (List.map_id _)]
  rw [hseen] at hwritable hdepth hanswered
  exact ⟨hwritable, hdepth, hanswered⟩

/-- The text of a transform that came from a text is accepted exactly when it is not nested too
deeply and all numbers in it are finite. -/
theorem parse_text_iff [Numeral.Marked α] [Scalar.Discrete α]
    (hrounding : i.builder.options.rounding = none)
    (hregistry : i.builder.registry.SelfContained) (hkeeps : Scalar.KeepsCounts α)
    (htrailing : i.impliedTrailing ≤ largestCount)
    (h : i.parse text (i.poolAfter before) = (.ok t, pool'))
    (himplied : implied = none ∨ implied = some i.impliedTrailing)
    (hlegible : ∀ x, Mentions x (t.toElement implied) → Scalar.isFinite x = true →
      Numeral.Legible x) :
    (∃ u pool', i.parse (t.text implied) (i.poolAfter later) = (.ok u, pool')) ↔
      (t.toElement implied).depth ≤ largestDepth ∧
        ∀ x, Mentions x (t.toElement implied) → Scalar.isFinite x = true := by
  have hclosed := closed_sound hregistry.sound
  have ht : t.Sound i.builder.registry.Owns := hclosed.parse h
  have hexpressible := (closed_expressible hregistry htrailing).parse h
  constructor
  · -- An accepted text is the text of an element that can be written, which has finite numbers
    -- only.
    rintro ⟨u, pool₁, hu⟩
    obtain ⟨hwritable, hdepth, -⟩ :=
      transformOf_of_parse_text hregistry.matrix hkeeps ht hexpressible hlegible hu
    exact ⟨hdepth, fun x hx => finite_of_writable hx hwritable⟩
  · -- An element that can be written is read back, and the steps of the transform are interpreted.
    rintro ⟨hdepth, hall⟩
    have hwritable : (t.toElement implied).Writable := writable_of_consists
      ((consists_toElement implied t).of_mentions (fun _ => trivial) fun x hx =>
        hlegible x hx (hall x hx))
    obtain ⟨u, pool₁, hu, -⟩ := (hexpressible.interpretsSteps (faithful_owns hrounding)
      hregistry.matrix hkeeps (eq_impliedTrailing himplied) ht).combine (hclosed.poolAfter later)
    exact ⟨u, pool₁, parse_render_eq_ok hwritable hdepth hu⟩

end Interpreter

namespace Shift

theorem owns_operation (d : ℚ) : registry.Owns (operation d) where
  rebuilt := rebuilt_operation d
  finite _ _ _ _ := rfl

theorem selfContained_registry : (registry (α := ℚ)).SelfContained where
  matrix := by with_unfolding_all rfl
  methods {_ method _ t} hmethod ht := by
    obtain rfl | rfl := eq_of_get?_registry hmethod
    · obtain ⟨d, -, ht⟩ := bind_eq_ok.1 ht
      cases ht
      exact .inr ⟨owns_operation d, rebuilt_operation d⟩
    · exact .inl rfl

/-- A pass-through with the inverse of a displacement inside. -/
def undoingText : String :=
  "PASSTHROUGH_MT[1, INVERSE_MT[PARAM_MT[\"Affine\", PARAMETER[\"elt_0_2\", -1]]]]"

/-- What is written of it: the displacement in the other direction. -/
def undoneElement : Element ℚ :=
  .make passThroughKeyword [.number 1, .number 0]
    [.make operationKeyword [.text Method.matrixName]
      [.make parameterKeyword [.text "elt_0_2", .number 1] []]]

theorem legible_undoneElement {x : ℚ} (h : Mentions x undoneElement) : Numeral.Legible x := by
  have hnumber : ∀ {l : Literal ℚ}, .number x = l → l = .number 0 ∨ l = .number 1 →
      Numeral.Legible x := by
    rintro _ rfl (h | h)
    · cases h
      exact legible_zero
    · cases h
      exact legible_one
  cases h with
  -- The displacement of the pass-through and its count are one and zero.
  | literal hx =>
    rcases List.mem_pair.1 hx with hx | hx
    · exact hnumber hx (.inr rfl)
    · exact hnumber hx (.inl rfl)
  | child hc hx =>
  cases List.mem_singleton.1 hc
  cases hx with
  | literal hx => cases List.mem_singleton.1 hx
  | child hc hx =>
  cases List.mem_singleton.1 hc
  -- The matrix inside of it gives one coefficient, which is one.
  cases hx with
  | literal hx =>
    rcases List.mem_pair.1 hx with hx | hx
    · cases hx
    · exact hnumber hx (.inr rfl)
  | child hc _ => cases hc

theorem toElement_undone :
    (passThrough 1 (affine undoneDisplacement) 0).toElement none = undoneElement := by
  have hone : Method.parametersOfMatrix undoneDisplacement.toMatrix =
      ⟨[("elt_0_2", .number 1)]⟩ := by with_unfolding_all rfl
  rw [toElement, stepElements, stepElements, matrixElement, hone]
  with_unfolding_all rfl

/-- A text that is read as the pass-through around the displacement is written as that. -/
theorem toElement_of_parse {texts : List String} {text : String}
    (h : (interpreter.parse text (interpreter.poolAfter texts)).1.toOption.any
      (·.same (passThrough 1 (affine undoneDisplacement) 0)) = true) :
    ∃ t pool, interpreter.parse text (interpreter.poolAfter texts) = (.ok t, pool) ∧
      t.toElement none = undoneElement := by
  have hregistry : interpreter.builder.registry.SelfContained := selfContained_registry
  cases hresult : interpreter.parse text (interpreter.poolAfter texts) with
  | mk result pool =>
  rw [hresult] at h
  cases result with
  | error e => cases h
  | ok t =>
    have ht : t.Sound interpreter.builder.registry.Owns :=
      -- Equal transforms have the same text, so the known text of the displacement is the text of
      -- `t`.
      (Interpreter.closed_sound hregistry.sound).parse hresult
    have hundone : (passThrough 1 (affine undoneDisplacement) 0).Sound
        interpreter.builder.registry.Owns := steppedMap_built.sound.2.1
    have hforget := forget_eq_of_same (Registry.determined_owns _) ht hundone h
    exact ⟨t, pool, rfl, (toElement_eq_of_forget hforget none).trans toElement_undone⟩

theorem parse_undoingText : ∃ t pool,
    interpreter.parse undoingText (interpreter.poolAfter []) = (.ok t, pool) ∧
      t.toElement none = undoneElement :=
  toElement_of_parse (by decide +kernel)

theorem parse_text_iff_undoing : ∃ t u pool pool',
    interpreter.parse undoingText (interpreter.poolAfter []) = (.ok t, pool) ∧
      interpreter.parse (t.text none) (interpreter.poolAfter [undoingText]) = (.ok u, pool') := by
  obtain ⟨t, pool, ht, helement⟩ := parse_undoingText
  obtain ⟨u, pool', hu⟩ := (Interpreter.parse_text_iff rfl selfContained_registry
    keepsCounts_rational (Nat.zero_le _) ht (.inl rfl)
    (fun x hx _ => legible_undoneElement (helement ▸ hx))).2
    ⟨by rw [helement]; decide, fun _ _ => rfl⟩
  exact ⟨t, u, pool, pool', ht, hu⟩

end Shift

namespace Double

/-- Two scalings whose product overflows. -/
def overflowingText : String :=
  "CONCAT_MT[PARAM_MT[\"Affine\", PARAMETER[\"elt_0_0\", 1e200]], " ++
    "PARAM_MT[\"Affine\", PARAMETER[\"elt_0_0\", 1e200]]]"

/-- The coefficient is written as `inf`, which is no number. -/
theorem parse_text_overflowing : ∃ t pool, interpreter.parse overflowingText [] = (.ok t, pool) ∧
    t.text none = "PARAM_MT[\"Affine\", PARAMETER[\"elt_0_0\", inf]]" ∧
    ∀ u pool', interpreter.parse (t.text none) pool ≠ (.ok u, pool') := by
  have hresult : (interpreter.parse overflowingText []).1.toOption.map (fun t => (t.text none,
      (interpreter.parse (t.text none) (interpreter.parse overflowingText []).2).1.toBool)) =
      some ("PARAM_MT[\"Affine\", PARAMETER[\"elt_0_0\", inf]]", false) := by decide +kernel
  generalize interpreter.parse overflowingText [] = result at hresult ⊢
  obtain ⟨result, pool⟩ := result
  cases result with
  | error e => cases hresult
  | ok t =>
    obtain ⟨htext, hagain⟩ := Prod.mk.inj (Option.some.inj hresult)
    refine ⟨t, pool, rfl, htext, fun u pool' h => ?_⟩
    rw [h] at hagain
    cases hagain

end Double

end CoordTransform
