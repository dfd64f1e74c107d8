import CoordTransform.Proofs.Element.Reparsing
import CoordTransform.Proofs.Element.Rereading

/-!
# Which Formatted Texts are Fixed Points

The text of a transform is read back as a transform that is written again. Both texts are the same
exactly when the transform is `Stable`: no step of a flattened concatenation is simplified when it
is read behind the steps before it, and matrices of the plane are those of affine maps.

A transform that came from a text need not be stable. Inside of nested concatenations, steps are
kept apart by the steps next to them, and stand side by side when the concatenations are flattened.
-/

namespace CoordTransform

open Transform Element

variable {α : Type}

section

variable [Scalar α]

/-! ## Transforms that are read as they are written -/

namespace Transform

/-- A matrix of the plane is that of an affine map, with `0 0 1` as its last row. -/
def Canonical : Transform α → Prop
  | linear m => ∀ a, Affine.ofMatrix m = .ok a → a.toMatrix = m
  | concatenated first second => first.Canonical ∧ second.Canonical
  | passThrough _ inner _ => inner.Canonical
  | _ => True

/-- Nothing in a transform is simplified or spelled otherwise when its text is read. -/
structure Stable (t : Transform α) : Prop where
  kept : t.Kept none
  canonical : t.Canonical

variable {ops : Operation α → Prop} {t : Transform α} {es es' : List (Element α)}

theorem stepElements_behind (implied : Option Nat) (before : Option (Transform α))
    (t : Transform α) : (behind before t).stepElements implied =
      before.elim [] (·.stepElements implied) ++ t.stepElements implied := by
  cases before <;> rfl

/-- The elements of what is there come first. -/
theorem stepElements_reread (implied : Option Nat) (t : Transform α)
    (before : Option (Transform α)) : (t.reread before).stepElements implied =
      before.elim [] (·.stepElements implied) ++ (t.reread none).stepElements implied := by
  induction t generalizing before with
  | concatenated first second ihf ihs =>
    rw [reread, ihs, reread, ihs (some (first.reread none)), Option.elim_some, Option.elim_some,
      ihf, List.append_assoc]
  | _ => exact stepElements_behind implied before _

theorem length_stepElements_reread (implied : Option Nat) (t : Transform α) :
    ((t.reread none).stepElements implied).length = (t.stepElements implied).length := by
  -- A matrix is written as one step whichever form it is read in, and every other leaf as it was.
  induction t with
  | linear m =>
    rw [reread, behind]
    unfold ofWritten
    split
    · next h =>
      obtain ⟨a, -, rfl⟩ | ⟨rfl, -⟩ := ofMatrix_eq_ok h
      · rfl
      · rfl
    · rfl
  | concatenated first second ihf ihs =>
    rw [reread, stepElements_reread, Option.elim_some, List.length_append, ihf, ihs, stepElements,
      List.length_append]
  | _ => rfl

omit [Scalar α] in
/-- As many steps are combined into the same element only if they are the same. -/
theorem combineSteps_inj (hlength : es.length = es'.length)
    (h : combineSteps es = combineSteps es') : es = es' := by
  unfold combineSteps at h
  -- One step stands by itself, and any other number of them in a concatenation.
  split at h
  · next e =>
    obtain ⟨e', rfl⟩ := List.length_eq_one_iff.1 hlength.symm
    exact congrArg (fun e => [e]) h
  · next hes =>
    split at h
    · next e' =>
      obtain ⟨e, rfl⟩ := List.length_eq_one_iff.1 hlength
      exact absurd rfl (hes e)
    · exact (Element.node.inj h).2.2.2

theorem ofMatrix_of_affine {m : DenseMatrix α} {a : Affine α} (h : Affine.ofMatrix m = .ok a) :
    ofMatrix m = .ok (affine a) := by
  have hplane : Affine.isPlaneMatrix m = true := by
    by_contra hnot
    rw [Affine.ofMatrix, if_neg hnot] at h
    cases h
  rw [ofMatrix, if_pos hplane, h]
  rfl

variable [Scalar.Discrete α]

/-- A matrix is known from its element. -/
theorem matrixElement_inj (hkeeps : Scalar.KeepsCounts α) {m n : DenseMatrix α}
    (hm : (1 ≤ m.rows ∧ m.rows ≤ Method.largestSize) ∧ 1 ≤ m.cols ∧ m.cols ≤ Method.largestSize)
    (hn : (1 ≤ n.rows ∧ n.rows ≤ Method.largestSize) ∧ 1 ≤ n.cols ∧ n.cols ≤ Method.largestSize)
    (h : matrixElement m = matrixElement n) : m = n := by
  -- The parameters of a matrix give it back, so that equal parameters come from equal matrices.
  obtain ⟨m', hm', -, -, heqm⟩ := Method.matrixOfParameters_parametersOfMatrix hkeeps hm.1 hm.2
  obtain ⟨n', hn', -, -, heqn⟩ := Method.matrixOfParameters_parametersOfMatrix hkeeps hn.1 hn.2
  have hparameters := Interpreter.parameters_operationElement Method.matrixName
    (Method.parametersOfMatrix m)
  rw [show operationElement Method.matrixName (Method.parametersOfMatrix m) =
    operationElement Method.matrixName (Method.parametersOfMatrix n) from h,
    Interpreter.parameters_operationElement] at hparameters
  rw [Except.ok.inj hparameters, hm'] at hn'
  rw [← heqm inferInstance, ← heqn inferInstance]
  exact Except.ok.inj hn'

/-- What is read without simplification is written as before exactly when it was canonical. -/
theorem stepElements_reread_eq_iff (hkeeps : Scalar.KeepsCounts α) (implied : Option Nat)
    {admitted : Nat → Prop} {registry : Registry α} (ht : t.Sound ops)
    (hdescribable : t.Describable admitted registry) :
    (t.reread none).stepElements implied = t.stepElements implied ↔ t.Canonical := by
  induction t with
  -- A general matrix is read as affine if its last row allows it, and then has that last row.
  | linear m =>
    have hm : (1 ≤ m.rows ∧ m.rows ≤ 32) ∧ 1 ≤ m.cols ∧ m.cols ≤ 32 :=
      ⟨⟨Nat.le_of_succ_le ht.1, hdescribable.1⟩, Nat.le_of_succ_le ht.2, hdescribable.2⟩
    have h3 : (1 ≤ 3 ∧ 3 ≤ 32) ∧ 1 ≤ 3 ∧ 3 ≤ 32 := by decide
    obtain ⟨s, hs⟩ := exists_ofMatrix (m := m) ht
    rw [reread, behind, ofWritten_eq hs]
    obtain ⟨a, ha, rfl⟩ | ⟨rfl, -⟩ := ofMatrix_eq_ok hs
    · constructor
      · intro h a' ha'
        cases ha.symm.trans ha'
        exact matrixElement_inj hkeeps h3 hm (List.singleton_inj.1 h)
      · intro h
        exact congrArg (fun n => [matrixElement n]) (h a ha)
    · refine iff_of_true rfl fun a ha => ?_
      cases hs.symm.trans (ofMatrix_of_affine ha)
  -- The steps of the first part are as many as before, which tells where those of the second begin.
  | concatenated first second ihf ihs =>
    rw [reread, stepElements_reread, Option.elim_some, stepElements]
    constructor
    · intro h
      obtain ⟨hfirst, hsecond⟩ := List.append_inj h (length_stepElements_reread implied first)
      exact ⟨(ihf ht.1 hdescribable.1).1 hfirst, (ihs ht.2.1 hdescribable.2).1 hsecond⟩
    · rintro ⟨hfirst, hsecond⟩
      rw [(ihf ht.1 hdescribable.1).2 hfirst, (ihs ht.2.1 hdescribable.2).2 hsecond]
  | passThrough leading inner trailing ih =>
    rw [reread, behind, stepElements, stepElements, List.singleton_inj]
    constructor
    · intro h
      -- One child is compared with one child, whether or not it is a concatenation.
      have hinner := List.singleton_inj.1 (Element.node.inj h).2.2.2
      exact (ih ht hdescribable.1).1
        (combineSteps_inj (length_stepElements_reread implied inner) hinner)
    · intro h
      rw [(ih ht hdescribable.1).2 h]
  | _ => exact iff_of_true rfl trivial

end Transform

/-! ## Sizes of elements -/

namespace Element

mutual

/-- The number of operations and pass-throughs in an element. -/
def weight : Element α → Nat
  | node keyword _ _ children =>
    (if keyword = operationKeyword ∨ keyword = passThroughKeyword then 1 else 0) +
      weightAll children

/-- The number of operations and pass-throughs in a list of elements. -/
def weightAll : List (Element α) → Nat
  | [] => 0
  | e :: es => weight e + weightAll es

end

omit [Scalar α] in
theorem weightAll_eq_sum (es : List (Element α)) : weightAll es = (es.map weight).sum := by
  induction es with
  | nil => rfl
  | cons e es ih => rw [weightAll, ih, List.map_cons, List.sum_cons]

omit [Scalar α] in
theorem weight_make (keyword : String) (literals : List (Literal α)) (children : List (Element α)) :
    (Element.make keyword literals children).weight =
      (if keyword = operationKeyword ∨ keyword = passThroughKeyword then 1 else 0) +
        (children.map weight).sum := by
  rw [make, weight, weightAll_eq_sum]

omit [Scalar α] in
theorem weight_operationElement (method : String) (ps : Parameters α) :
    (operationElement method ps).weight = 1 := by
  have hparameters : ((ps.entries.map parameterElement).map weight).sum = 0 := by
    refine List.sum_eq_zero fun n hn => ?_
    obtain ⟨e, he, rfl⟩ := List.mem_map.1 hn
    obtain ⟨p, -, rfl⟩ := List.mem_map.1 he
    exact (weight_make _ _ _).trans rfl
  rw [operationElement, weight_make, hparameters]
  rfl

omit [Scalar α] in
theorem weight_combineSteps (es : List (Element α)) :
    (combineSteps es).weight = (es.map weight).sum := by
  unfold combineSteps
  split
  · exact (Nat.add_zero _).symm
  · rw [weight_make, if_neg (by decide), Nat.zero_add]

/-- Each leaf and each pass-through of a transform is written once. -/
theorem weight_toElement (implied : Option Nat) (t : Transform α) :
    (t.toElement implied).weight = t.size := by
  rw [toElement, weight_combineSteps]
  -- The induction counts the elements of the steps; a concatenation of them weighs nothing itself.
  induction t with
  | affine a =>
    exact (List.sum_singleton).trans (weight_operationElement _ _)
  | linear m => exact (List.sum_singleton).trans (weight_operationElement _ _)
  | concatenated first second ihf ihs =>
    rw [stepElements, List.map_append, List.sum_append, ihf, ihs, size]
  | passThrough leading inner trailing ih =>
    rw [stepElements, List.map_singleton, List.sum_singleton, passThroughElement, weight_make,
      if_pos (.inr rfl), List.map_singleton, List.sum_singleton, weight_combineSteps, ih, size,
      Nat.add_comm]
  | operation op => exact (List.sum_singleton).trans (weight_operationElement _ _)
  | inverseOperation op =>
    rw [stepElements, List.map_singleton, List.sum_singleton, weight_make, if_neg (by decide),
      List.map_singleton, List.sum_singleton, weight_operationElement]
    rfl

end Element

end

/-! ## Elements with the same text -/

variable [Numeral α]

theorem Literal.seen_eq_self {l : Literal α} (h : ∀ w, l.seen ≠ .word w) : l.seen = l := by
  unfold Literal.seen at h ⊢
  split
  · next x =>
    dsimp only at h
    split at h
    · exact absurd rfl (h _)
    · next hx => exact if_neg hx
  · rfl

namespace Element

theorem eq_of_seen_children {cs cs' : List (Element α)}
    (h : List.Forall₂ Similar (cs.map seen) cs')
    (hchildren : ∀ c ∈ cs, ∀ c' ∈ cs', c.seen.Similar c' → c = c') : cs = cs' := by
  induction cs generalizing cs' with
  | nil =>
    cases h
    rfl
  | cons c cs ih =>
    cases h with
    | cons hc hrest =>
      rw [hchildren _ List.mem_cons_self _ List.mem_cons_self hc, ih hrest fun d hd d' hd' =>
        hchildren d (List.mem_cons_of_mem c hd) d' (List.mem_cons_of_mem _ hd')]

/-- An element that looks like one without words is that element. -/
theorem Consists.eq_of_seen {P : Literal α → Prop} {e : Element α} (he : e.Consists P) :
    ∀ {e' : Element α}, e'.Consists NoWord → e.seen.Similar e' → e = e' := by
  induction he with
  | @make keyword literals children _ _ _ ih =>
  intro e' he' h
  rw [seen_make] at h
  cases he' with
  | @make keyword' literals' children' _ hliterals hchildren =>
  obtain ⟨hsimilar⟩ := h
  -- Without words, literals look like themselves.
  have hseen : literals.map Literal.seen = literals :=
    (List.map_congr_left fun l hl =>
      Literal.seen_eq_self (hliterals _ (List.mem_map_of_mem hl))).trans (List.map_id _)
  rw [hseen, eq_of_seen_children hsimilar fun c hc c' hc' => ih c hc (hchildren c' hc')]

end Element

namespace Interpreter

variable {i : Interpreter α} {implied : Option Nat} {before later : List String} {text : String}
  {t u : Transform α} {pool pool' : Pool α}

/-- Transforms with the same text have the same element. -/
theorem toElement_eq_of_text_eq [Numeral.Marked α] (hwritable : (t.toElement implied).Writable)
    (hdepth : (t.toElement implied).depth ≤ largestDepth)
    (hlegible : ∀ x, Mentions x (u.toElement implied) → Scalar.isFinite x = true →
      Numeral.Legible x)
    (h : u.text implied = t.text implied) : u.toElement implied = t.toElement implied := by
  obtain ⟨e, he, hsimilar⟩ := parse_render hwritable hdepth
  have he' : Element.parse (u.toElement implied).render = .ok e :=
    (congrArg Element.parse h).trans he
  obtain ⟨-, -, hseen⟩ := parse_seen ((consists_toElement implied u).of_mentions
    (P := Literal.Regular) (fun _ => trivial) hlegible) he'
  exact (consists_toElement implied u).eq_of_seen (consists_toElement implied t)
    (hseen.trans _ hsimilar.symm)

/-- The text of a transform that came from a text is read and written as it was exactly when the
transform is stable. -/
theorem text_eq_iff_stable [Numeral.Marked α] [Scalar.Discrete α]
    (hrounding : i.builder.options.rounding = none)
    (hregistry : i.builder.registry.SelfContained) (hkeeps : Scalar.KeepsCounts α)
    (htrailing : Scalar.Unmistakable α i.impliedTrailing)
    (h : i.parse text (i.poolAfter before) = (.ok t, pool))
    (himplied : implied = none ∨ implied = some i.impliedTrailing)
    (hagain : i.parse (t.text implied) (i.poolAfter later) = (.ok u, pool'))
    (hlegible : ∀ x, Mentions x (t.toElement implied) ∨ Mentions x (u.toElement implied) →
      Scalar.isFinite x = true → Numeral.Legible x) :
    u.text implied = t.text implied ↔ t.Stable := by
  have hclosed := closed_sound hregistry.sound
  have ht : t.Sound i.builder.registry.Owns := hclosed.parse h
  have hdescribable := (closed_describable hregistry
    (fun n hn => hkeeps.unmistakable (Nat.lt_of_le_of_lt hn (by decide))) htrailing).parse h
  obtain ⟨hwritable, hdepth, hread⟩ := transformOf_of_parse_text hregistry.matrix hkeeps ht
    hdescribable (fun x hx => hlegible x (.inl hx)) hagain
  have hreduces : u.Reduces (t.Kept none) (t.reread none) := by
    have hstart : Follows True (none : Option (Transform α)) none := trivial
    have hnone : ∀ a, (none : Option (Transform α)) = some a →
      a.Sound i.builder.registry.Owns := fun _ heq => nomatch heq
    exact (reduces_stepElements (faithful_owns hrounding) hregistry.sound hregistry.matrix hkeeps
      (eq_impliedTrailing himplied) ht hdescribable (hclosed.poolAfter later) hnone hstart
      (reads_of_combineSteps (stepElements_ne_nil implied t) hread)).congr (by rw [true_and])
  constructor
  · intro htext
    have helement := toElement_eq_of_text_eq hwritable hdepth (fun x hx => hlegible x (.inr hx))
      htext
    -- Nothing was lost, so that nothing was simplified.
    have hsize : u.size = t.size := by
      rw [← weight_toElement implied u, helement, weight_toElement]
    have hkept : t.Kept none := by
      by_contra hnot
      have hlt := hreduces.2 hnot
      rw [size_reread, Option.elim_none] at hlt
      omega
    refine ⟨hkept, (stepElements_reread_eq_iff hkeeps implied ht hdescribable).1 ?_⟩
    rw [toElement_eq_of_forget (hreduces.1 hkept) implied] at helement
    exact combineSteps_inj (length_stepElements_reread implied t) helement
  · rintro ⟨hkept, hcanonical⟩
    have hsteps := (stepElements_reread_eq_iff hkeeps implied ht hdescribable).2 hcanonical
    rw [Transform.text, Transform.text, toElement_eq_of_forget (hreduces.1 hkept) implied,
      toElement, hsteps, toElement]

end Interpreter

namespace Shift

theorem text_eq_iff_stable_undoing : ∃ t u pool pool',
    interpreter.parse undoingText (interpreter.poolAfter []) = (.ok t, pool) ∧
      interpreter.parse (t.text none) (interpreter.poolAfter [undoingText]) = (.ok u, pool') ∧
      u.text none = t.text none ∧ t.Stable := by
  obtain ⟨t, pool, ht, helement⟩ := parse_undoingText
  obtain ⟨u, pool', hu, helement'⟩ : ∃ u pool',
      interpreter.parse undoneElement.render (interpreter.poolAfter [undoingText]) =
        (.ok u, pool') ∧ u.toElement none = undoneElement :=
    toElement_of_parse (by decide +kernel)
  -- The second text is the first one, so that the theorem says that the transform was stable.
  have htext : t.text none = undoneElement.render := congrArg Element.render helement
  have htext' : u.text none = t.text none :=
    (congrArg Element.render helement').trans htext.symm
  rw [← htext] at hu
  refine ⟨t, u, pool, pool', ht, hu, htext', (Interpreter.text_eq_iff_stable rfl
    selfContained_registry keepsCounts_rational (unmistakable_rational 0) ht (.inl rfl) hu ?_).1
      htext'⟩
  rintro x (hx | hx) -
  · exact legible_undoneElement (helement ▸ hx)
  · exact legible_undoneElement (helement' ▸ hx)

end Shift

namespace Double

/-- A displacement that a pass-through keeps apart from the scaling in front of it. -/
def nestedText : String :=
  "CONCAT_MT[PARAM_MT[\"Affine\", PARAMETER[\"elt_0_0\", 2]], " ++
    "CONCAT_MT[PARAM_MT[\"Affine\", PARAMETER[\"elt_0_2\", 5]], " ++
    "PASSTHROUGH_MT[1, 0, PARAM_MT[\"Affine\", PARAMETER[\"num_row\", 2], " ++
    "PARAMETER[\"num_col\", 2], PARAMETER[\"elt_0_0\", 3]]]]]"

/-- The steps as they are written first. -/
def flatText : String :=
  "CONCAT_MT[PARAM_MT[\"Affine\", PARAMETER[\"elt_0_0\", 2]], " ++
    "PARAM_MT[\"Affine\", PARAMETER[\"elt_0_2\", 5]], " ++
    "PASSTHROUGH_MT[1, 0, PARAM_MT[\"Affine\", PARAMETER[\"num_row\", 2], " ++
    "PARAMETER[\"num_col\", 2], PARAMETER[\"elt_0_0\", 3]]]]"

/-- The steps as they are written next, with one matrix instead of two. -/
def mergedText : String :=
  "CONCAT_MT[PARAM_MT[\"Affine\", PARAMETER[\"elt_0_0\", 2], PARAMETER[\"elt_0_2\", 5]], " ++
    "PASSTHROUGH_MT[1, 0, PARAM_MT[\"Affine\", PARAMETER[\"num_row\", 2], " ++
    "PARAMETER[\"num_col\", 2], PARAMETER[\"elt_0_0\", 3]]]]"

/-- The scaling and the displacement meet when the concatenations are flattened. -/
theorem text_ne_nested : ∃ t u pool pool',
    interpreter.parse nestedText (interpreter.poolAfter []) = (.ok t, pool) ∧
      interpreter.parse (t.text none) pool = (.ok u, pool') ∧
      t.text none = flatText ∧ u.text none = mergedText ∧ u.text none ≠ t.text none := by
  have hresult : (interpreter.parse nestedText (interpreter.poolAfter [])).1.toOption.map
      (fun t => (t.text none, (interpreter.parse flatText
        (interpreter.parse nestedText (interpreter.poolAfter [])).2).1.toOption.map
          (·.text none))) = some (flatText, some mergedText) := by
    -- Taking a long text apart is slow, taking apart its pieces is not.
    rw [Interpreter.parse_eq_readAll, Interpreter.parse_eq_readAll]
    delta nestedText flatText
    repeat rw [String.toList_append]
    repeat rw [String.toList_ofList]
    decide +kernel
  have hne : mergedText ≠ flatText := by decide +kernel
  cases hfirst : interpreter.parse nestedText (interpreter.poolAfter []) with
  | mk result pool =>
  rw [hfirst] at hresult
  cases result with
  | error e => cases hresult
  | ok t =>
  obtain ⟨htext, hagain⟩ := Prod.mk.inj (Option.some.inj hresult)
  cases hsecond : interpreter.parse flatText pool with
  | mk result' pool' =>
  rw [hsecond] at hagain
  cases result' with
  | error e => cases hagain
  | ok u =>
  have htext' : u.text none = mergedText := Option.some.inj hagain
  refine ⟨t, u, pool, pool', rfl, htext ▸ hsecond, htext, htext', ?_⟩
  rw [htext, htext']
  exact hne

end Double

end CoordTransform
