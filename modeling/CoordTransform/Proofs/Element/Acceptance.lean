import CoordTransform.Proofs.Builder.Dimensions
import CoordTransform.Proofs.Element.Meaning
import CoordTransform.Proofs.Element.Reachable
import CoordTransform.Proofs.Element.Similarity

/-!
# Accepted Elements

Which elements are transforms is decided by their form, by the methods of the registry and by the
dimensions of their parts. `Accepted` says so, with one rule for each production, and gives every
accepted element its dimensions: those of what the method makes, from the first to the last child
of a concatenation, the other way round for an inverse, and with the copied components for a
pass-through. Whether an inverse exists is left to the transform of the child.

The interpreter accepts exactly these elements, and its transforms have these dimensions, whatever
its builder simplifies, rounds or takes from the pool. So nothing fails in the builder once the
dimensions of the children of a concatenation meet.

Earlier children are in the pool when later ones are interpreted, which is why rules are about an
element in front of a pool.
-/

namespace CoordTransform

variable {α : Type}

namespace Element

/-! ## Literals -/

theorem literal_eq_ok_iff {e : Element α} {index : Nat} {l : Literal α} :
    e.literal index = .ok l ↔ e.literals[index]? = some l := by
  unfold literal
  cases e.literals[index]? with
  | none => exact ⟨fun h => (nomatch h), fun h => (nomatch h)⟩
  | some l' => exact ⟨fun h => by cases h; rfl, fun h => by cases h; rfl⟩

theorem quotedText_eq_ok_iff {e : Element α} {index : Nat} {s : String} :
    e.quotedText index = .ok s ↔ e.literals[index]? = some (.text s) := by
  unfold quotedText
  rw [bind_eq_ok]
  constructor
  · rintro ⟨l, hl, h⟩
    rw [literal_eq_ok_iff] at hl
    cases l with
    | text s' => cases h; exact hl
    | _ => cases h
  · intro h
    exact ⟨.text s, literal_eq_ok_iff.2 h, rfl⟩

variable [Scalar α]

/-- A number that is a whole one and not too large for a count. -/
def IsCount (l : Literal α) (n : Nat) : Prop :=
  ∃ x, l = .number x ∧ Scalar.toNat? x = some n ∧ n ≤ largestCount

theorem natural_eq_ok_iff_count {e : Element α} {index n : Nat} :
    e.natural index = .ok n ↔ ∃ l, e.literals[index]? = some l ∧ IsCount l n := by
  rw [natural_eq_ok_iff]
  constructor
  · rintro ⟨x, hx, hn⟩
    obtain ⟨l, hl, hnumber⟩ := bind_eq_ok.1 hx
    cases l with
    | number _ => cases hnumber; exact ⟨_, literal_eq_ok_iff.1 hl, x, rfl, hn⟩
    | _ => cases hnumber
  · rintro ⟨_, hl, x, rfl, hn⟩
    exact ⟨x, bind_eq_ok.2 ⟨_, literal_eq_ok_iff.2 hl, rfl⟩, hn⟩

/-! ## Parameters -/

omit [Scalar α] in
/-- The named value of a parameter that has a name and a value. -/
def collected? (c : Element α) : Option (String × ParameterValue α) :=
  match c.literals with
  | .text name :: value :: _ => some (name, Interpreter.parameterValue value)
  | _ => none

/-- The parameters among the children. Other children are ignored, and so are parameters without
a value. -/
def collected (e : Element α) : Parameters α :=
  .ofList ((e.children.filter (·.is parameterKeyword)).filterMap collected?)

/-- A name in quotes stands in front of the value, if there is a value. -/
def Named (c : Element α) : Prop :=
  2 ≤ c.literals.length → ∃ name, c.literals[0]? = some (.text name)

omit [Scalar α] in
theorem collected?_of_short {c : Element α} (h : ¬2 ≤ c.literals.length) : c.collected? = none := by
  unfold collected?
  split
  · next heq =>
    rw [heq, List.length_cons, List.length_cons] at h
    omega
  · rfl

omit [Scalar α] in
theorem parameter?_eq_ok_iff {c : Element α} {r : Option (String × ParameterValue α)} :
    Interpreter.parameter? c = .ok r ↔ c.Named ∧ c.collected? = r := by
  unfold Interpreter.parameter?
  split
  · next l value rest hliterals =>
    rw [bind_eq_ok]
    constructor
    · rintro ⟨name, hname, hr⟩
      rw [quotedText_eq_ok_iff] at hname
      refine ⟨fun _ => ⟨name, hname⟩, ?_⟩
      unfold collected?
      rw [hliterals] at hname ⊢
      cases hname
      exact Except.ok.inj hr
    · rintro ⟨hnamed, rfl⟩
      obtain ⟨name, hname⟩ := hnamed (by rw [hliterals]; simp)
      refine ⟨name, quotedText_eq_ok_iff.2 hname, ?_⟩
      unfold collected?
      rw [hliterals] at hname ⊢
      cases hname
      rfl
  · next hliterals =>
    -- Without a value there is nothing to collect, and no name is needed.
    have hshort : ¬2 ≤ c.literals.length := by
      intro hlong
      match hcs : c.literals with
      | [] | [_] => rw [hcs] at hlong; simp at hlong
      | l :: value :: rest => exact hliterals l value rest hcs
    rw [collected?_of_short hshort]
    exact ⟨fun h => ⟨fun hlong => absurd hlong hshort, Except.ok.inj h⟩, fun h => by rw [← h.2]⟩

omit [Scalar α] in
theorem mapM_parameter?_eq_ok_iff {cs : List (Element α)}
    {rs : List (Option (String × ParameterValue α))} :
    cs.mapM Interpreter.parameter? = .ok rs ↔ (∀ c ∈ cs, c.Named) ∧ cs.map collected? = rs := by
  -- Every child is read by itself, and what is read is what is collected of it.
  induction cs generalizing rs with
  | nil =>
    rw [List.mapM_nil]
    exact ⟨fun h => ⟨List.forall_mem_nil _, Except.ok.inj h⟩, fun h => congrArg Except.ok h.2⟩
  | cons c cs ih =>
    simp only [List.mapM_cons, bind_eq_ok, parameter?_eq_ok_iff, ih, List.forall_mem_cons,
      List.map_cons]
    constructor
    · rintro ⟨r, ⟨hc, rfl⟩, rs', ⟨hcs, rfl⟩, h⟩
      exact ⟨⟨hc, hcs⟩, Except.ok.inj h⟩
    · rintro ⟨⟨hc, hcs⟩, rfl⟩
      exact ⟨_, ⟨hc, rfl⟩, _, ⟨hcs, rfl⟩, rfl⟩

omit [Scalar α] in
/-- Parameters are collected when every one of them that has a value has a name. -/
theorem parameters_eq_ok_iff {e : Element α} {ps : Parameters α} :
    Interpreter.parameters e = .ok ps ↔
      (∀ c ∈ e.children, c.is parameterKeyword = true → c.Named) ∧ e.collected = ps := by
  -- Only the children that are parameters have to be named; all others are not even looked at.
  have hall : (∀ c ∈ e.children.filter (·.is parameterKeyword), c.Named) ↔
      ∀ c ∈ e.children, c.is parameterKeyword = true → c.Named := by
    simp only [List.mem_filter, and_imp]
  unfold Interpreter.parameters collected
  simp only [bind_eq_ok, mapM_parameter?_eq_ok_iff, hall]
  constructor
  · rintro ⟨rs, ⟨hnamed, rfl⟩, h⟩
    rw [List.filterMap_map, Function.id_comp] at h
    exact ⟨hnamed, Except.ok.inj h⟩
  · rintro ⟨hnamed, rfl⟩
    refine ⟨_, ⟨hnamed, rfl⟩, ?_⟩
    rw [List.filterMap_map, Function.id_comp]
    rfl

/-! ## Counts -/

/-- The counts of a pass-through; a trailing count that is not written is implied. -/
inductive HasCounts (i : Interpreter α) (e : Element α) (leading : Nat) : Nat → Prop where
  | implied {l : Literal α} : e.literals = [l] → IsCount l leading →
      HasCounts i e leading i.impliedTrailing
  | written {l l' : Literal α} {trailing : Nat} : e.literals = [l, l'] → IsCount l leading →
      IsCount l' trailing → HasCounts i e leading trailing

theorem counts_eq_ok_iff {i : Interpreter α} {e : Element α} {leading trailing : Nat} :
    i.counts e = .ok (leading, trailing) ↔ HasCounts i e leading trailing := by
  simp only [Interpreter.counts_eq_ok_iff, natural_eq_ok_iff_count, List.length_eq_one_iff,
    List.length_eq_two]
  constructor
  · -- One literal leaves the trailing count to the interpreter, two give it.
    rintro ⟨⟨l, hl, hleading⟩, ⟨⟨l₁, hliterals⟩, rfl⟩ | ⟨⟨l₁, l₂, hliterals⟩, l', hl', htrailing⟩⟩
    · rw [hliterals] at hl
      cases hl
      exact .implied hliterals hleading
    · rw [hliterals] at hl hl'
      cases hl
      cases hl'
      exact .written hliterals hleading htrailing
  · intro h
    cases h with
    | @implied l hliterals hleading =>
      exact ⟨⟨l, by rw [hliterals]; rfl, hleading⟩, .inl ⟨⟨l, hliterals⟩, rfl⟩⟩
    | @written l l' _ hliterals hleading htrailing =>
      exact ⟨⟨l, by rw [hliterals]; rfl, hleading⟩,
        .inr ⟨⟨l, l', hliterals⟩, l', by rw [hliterals]; rfl, htrailing⟩⟩

/-! ## Accepted elements -/

/-- The keyword is one of the four productions, in any case. -/
def IsProduction (e : Element α) : Prop :=
  e.is operationKeyword = true ∨ e.is concatenationKeyword = true ∨ e.is inverseKeyword = true ∨
    e.is passThroughKeyword = true

mutual

/-- In front of a pool, the element is a transform from the one dimension to the other. What the
interpreter makes of a child is only asked for its inverse and for the pool behind it. -/
inductive Accepted (i : Interpreter α) : Pool α → Element α → Nat → Nat → Prop where
  | operation {pool : Pool α} {e : Element α} {name : String} {method : Method α}
      {t : Transform α} : e.is operationKeyword = true → e.literals[0]? = some (.text name) →
      (∀ c ∈ e.children, c.is parameterKeyword = true → c.Named) →
      i.builder.registry.get? name = some method → method.create e.collected = .ok t →
      Accepted i pool e t.sourceDim t.targetDim
  | concatenation {pool : Pool α} {e c : Element α} {cs : List (Element α)}
      {source middle target : Nat} : e.is concatenationKeyword = true → e.children = c :: cs →
      Accepted i pool c source middle →
      (∀ first pool', i.transformOf c pool = (.ok (some first), pool') →
        AcceptedSteps i pool' first middle cs target) →
      Accepted i pool e source target
  | inverse {pool : Pool α} {e c : Element α} {source target : Nat} :
      e.is inverseKeyword = true → e.children = [c] → Accepted i pool c source target →
      (∀ t pool', i.transformOf c pool = (.ok (some t), pool') → ∃ u, t.inverse = .ok u) →
      Accepted i pool e target source
  | passThrough {pool : Pool α} {e c : Element α} {leading trailing source target : Nat} :
      e.is passThroughKeyword = true → HasCounts i e leading trailing → e.children = [c] →
      Accepted i pool c source target →
      Accepted i pool e (leading + source + trailing) (leading + target + trailing)

/-- The further children of a concatenation lead from the one dimension to the other: each starts
where the one before it ends. The transform is that of the children before them. -/
inductive AcceptedSteps (i : Interpreter α) :
    Pool α → Transform α → Nat → List (Element α) → Nat → Prop where
  | nil {pool : Pool α} {before : Transform α} {n : Nat} : AcceptedSteps i pool before n [] n
  | cons {pool : Pool α} {before : Transform α} {c : Element α} {cs : List (Element α)}
      {source middle target : Nat} : Accepted i pool c source middle →
      (∀ second both pool₁ pool₂, i.transformOf c pool = (.ok (some second), pool₁) →
        i.builder.concatenate before second pool₁ = (.ok both, pool₂) →
        AcceptedSteps i pool₂ both middle cs target) →
      AcceptedSteps i pool before source (c :: cs) target

end

/-- An operation is accepted for the dimensions of what its method makes, and for no others. -/
theorem accepted_operation_iff {i : Interpreter α} {pool : Pool α} {e : Element α} {name : String}
    {method : Method α} {t : Transform α} {source target : Nat}
    (hkeyword : e.is operationKeyword = true) (hname : e.literals[0]? = some (.text name))
    (hnamed : ∀ c ∈ e.children, c.is parameterKeyword = true → c.Named)
    (hmethod : i.builder.registry.get? name = some method)
    (hcreate : method.create e.collected = .ok t) :
    Accepted i pool e source target ↔ source = t.sourceDim ∧ target = t.targetDim := by
  constructor
  · intro h
    cases h with
    | operation _ hname' _ hmethod' hcreate' =>
      cases hname.symm.trans hname'
      cases hmethod.symm.trans hmethod'
      cases hcreate.symm.trans hcreate'
      exact ⟨rfl, rfl⟩
    -- An element has one keyword, and the other productions have other ones.
    | _ hother => exact absurd hother (Element.not_is hkeyword (by decide))
  · rintro ⟨rfl, rfl⟩
    exact .operation hkeyword hname hnamed hmethod hcreate

end Element

namespace Interpreter

open Element

variable [Scalar α] {ops : Operation α → Prop} {i : Interpreter α} {pool pool' : Pool α}
  {e : Element α} {cs : List (Element α)} {t first : Transform α}

/-! ## Keywords -/

/-- Every production gives a transform or fails. -/
theorem transformOf_none_iff :
    (∃ pool', i.transformOf e pool = (.ok none, pool')) ↔ ¬e.IsProduction := by
  obtain ⟨keyword, offset, literals, children⟩ := e
  -- A computation that ends by wrapping a transform does not end with none.
  have hsome : ∀ {x : Interpretation α (Transform α)} {pool pool' : Pool α},
      ¬(x >>= fun t => pure (some t)) pool = (.ok none, pool') := by
    intro x pool pool' h
    obtain ⟨t, pool₁, -, ht⟩ := stateBind_eq_ok h
    cases (statePure_eq_ok_iff.1 ht).1
  constructor
  · rintro ⟨pool', h⟩ hkeyword
    rw [transformOf.eq_def] at h
    dsimp only at h
    split at h
    · exact hsome h
    split at h
    · split at h
      · exact stateThrow_ne_ok h
      · obtain ⟨_, _, -, h⟩ := stateBind_eq_ok h
        obtain ⟨_, _, -, h⟩ := stateBind_eq_ok h
        exact hsome h
    split at h
    · split at h
      · obtain ⟨_, _, -, h⟩ := stateBind_eq_ok h
        obtain ⟨_, _, -, h⟩ := stateBind_eq_ok h
        exact hsome h
      · exact stateThrow_ne_ok h
    split at h
    · obtain ⟨⟨_, _⟩, _, -, h⟩ := stateBind_eq_ok h
      dsimp only at h
      split at h
      · obtain ⟨_, _, -, h⟩ := stateBind_eq_ok h
        obtain ⟨_, _, -, h⟩ := stateBind_eq_ok h
        exact hsome h
      · exact stateThrow_ne_ok h
    · next hop hconcat hinv hpass =>
      rcases hkeyword with h | h | h | h
      · exact hop h
      · exact hconcat h
      · exact hinv h
      · exact hpass h
  · intro h
    simp only [IsProduction, not_or] at h
    refine ⟨pool, ?_⟩
    rw [transformOf.eq_def]
    dsimp only
    rw [if_neg h.1, if_neg h.2.1, if_neg h.2.2.1, if_neg h.2.2.2]
    rfl

/-! ## Transforms are accepted -/

variable (hregistry : i.builder.registry.Sound ops) (hf : i.builder.Measured ops)

include hregistry in
/-- What comes out of an element is sound, and so is the pool behind it. -/
theorem sound_of_transformOf (hpool : Pool.Sound ops pool)
    (h : i.transformOf e pool = (.ok (some t), pool')) : t.Sound ops ∧ Pool.Sound ops pool' := by
  obtain ⟨hpool', ht⟩ := keeps_transformOf (closed_sound hregistry) e hpool h
  exact ⟨ht _ rfl t rfl, hpool'⟩

include hregistry hf in
theorem steps_of_concatenateAll {parent : Element α}
    (hsteps : ∀ c ∈ cs, ∀ {pool t pool'}, Pool.Sound ops pool →
      i.transformOf c pool = (.ok (some t), pool') →
      Accepted i pool c t.sourceDim t.targetDim) :
    ∀ {pool first pool'}, Pool.Sound ops pool → first.Sound ops →
      i.concatenateAll parent first cs pool = (.ok t, pool') →
      t.sourceDim = first.sourceDim ∧
        AcceptedSteps i pool first first.targetDim cs t.targetDim := by
  -- The induction is on the steps, with the transform of those before them generalized.
  induction cs with
  | nil =>
    intro pool first pool' _ _ h
    rw [concatenateAll] at h
    obtain ⟨rfl, -⟩ := statePure_eq_ok_iff.1 h
    exact ⟨rfl, .nil⟩
  | cons c cs ih =>
    intro pool first pool' hpool hfirst h
    obtain ⟨second, pool₁, both, pool₂, hc, hboth, hrest⟩ := concatenateAll_cons_eq_ok_iff.1 h
    obtain ⟨hsecond, hpool₁⟩ := sound_of_transformOf hregistry hpool hc
    -- Had the dimensions not met, the concatenation would have failed.
    have hdims : first.targetDim = second.sourceDim := by
      by_contra hne
      rw [Builder.concatenate_of_disconnected hne] at hboth
      cases hboth
    obtain ⟨hsame, hsound, hpool₂⟩ := (Builder.gives_concatenate hf.respects hfirst hsecond hdims
      hpool₁).result hboth
    obtain ⟨hsource, hsteps'⟩ := ih (fun d hd => hsteps d (List.mem_cons_of_mem c hd)) hpool₂
      hsound hrest
    refine ⟨hsource.trans hsame.source, ?_⟩
    rw [hdims]
    refine .cons (hsteps c List.mem_cons_self hpool hc) ?_
    intro second' both' pool₁' pool₂' hc' hboth'
    cases hc.symm.trans hc'
    cases hboth.symm.trans hboth'
    exact hsame.target ▸ hsteps'

include hregistry hf in
/-- A transform of an element is one that the element is accepted for. -/
theorem accepted_of_transformOf (e : Element α) : ∀ {pool t pool'}, Pool.Sound ops pool →
    i.transformOf e pool = (.ok (some t), pool') →
    Accepted i pool e t.sourceDim t.targetDim := by
  -- The induction is on the element: children are accepted for the transforms that were made of
  -- them.
  induction e using Element.childInduction with
  | _ e ih =>
  intro pool t pool' hpool h
  cases transformOf_eq_ok_iff.1 h with
  | operation hkeyword hoperation =>
    obtain ⟨name, ps, hname, hps, hcreate⟩ := operation_eq_ok_iff.1 hoperation
    obtain ⟨hnamed, rfl⟩ := parameters_eq_ok_iff.1 hps
    obtain ⟨method, u, hmethod, hu, hpooled⟩ := Builder.create_eq_ok hcreate
    obtain ⟨hsame, -⟩ := (Builder.gives_rounded hf.respects hpool (hregistry hmethod hu)).result
      hpooled
    rw [hsame.source, hsame.target]
    exact .operation hkeyword (quotedText_eq_ok_iff.1 hname) hnamed hmethod hu
  -- The first child makes the transform to which the others are concatenated one after the other.
  | @concatenation c cs first pool₁ hkeyword hchildren hc hall =>
    rw [hchildren] at ih
    obtain ⟨hfirst, hpool₁⟩ := sound_of_transformOf hregistry hpool hc
    obtain ⟨hsource, hsteps⟩ := steps_of_concatenateAll hregistry hf
      (fun d hd => ih d (List.mem_cons_of_mem c hd)) hpool₁ hfirst hall
    rw [hsource]
    refine .concatenation hkeyword hchildren (ih c List.mem_cons_self hpool hc) ?_
    intro first' pool₁' hc'
    cases hc.symm.trans hc'
    exact hsteps
  | @inverse c u hkeyword hchildren hc hu =>
    rw [hchildren] at ih
    obtain ⟨hsound, -⟩ := sound_of_transformOf hregistry hpool hc
    obtain ⟨hsource, htarget⟩ := (Transform.inverseOf_of_inverse hu).dims hsound
    rw [hsource, htarget]
    refine .inverse hkeyword hchildren (ih c List.mem_cons_self hpool hc) ?_
    intro u' pool₁' hc'
    cases hc.symm.trans hc'
    exact ⟨t, hu⟩
  | @passThrough leading trailing c u pool₁ hkeyword hcounts hchildren hc hu =>
    rw [hchildren] at ih
    obtain ⟨hsound, hpool₁⟩ := sound_of_transformOf hregistry hpool hc
    obtain ⟨hsame, -⟩ := (Builder.gives_passThrough hf.respects hpool₁ leading hsound
      trailing).result hu
    rw [hsame.source, hsame.target]
    exact .passThrough hkeyword (Element.counts_eq_ok_iff.1 hcounts) hchildren
      (ih c List.mem_cons_self hpool hc)

/-! ## Accepted elements are transforms -/

include hregistry hf in
theorem concatenateAll_of_steps {parent : Element α}
    (hsteps : ∀ c ∈ cs, ∀ {pool source target}, Pool.Sound ops pool →
      Accepted i pool c source target → ∃ t pool',
        i.transformOf c pool = (.ok (some t), pool') ∧ t.sourceDim = source ∧
          t.targetDim = target) :
    ∀ {pool first target}, Pool.Sound ops pool → first.Sound ops →
      AcceptedSteps i pool first first.targetDim cs target → ∃ t pool',
        i.concatenateAll parent first cs pool = (.ok t, pool') ∧
          t.sourceDim = first.sourceDim ∧ t.targetDim = target := by
  induction cs with
  | nil =>
    intro pool first target _ _ h
    cases h
    exact ⟨first, pool, rfl, rfl, rfl⟩
  | cons c cs ih =>
    intro pool first target hpool hfirst h
    cases h with
    | cons hc hrest =>
      obtain ⟨second, pool₁, hsecond, hsource, rfl⟩ := hsteps c List.mem_cons_self hpool hc
      obtain ⟨hsound, hpool₁⟩ := sound_of_transformOf hregistry hpool hsecond
      -- The dimensions meet, so that the builder cannot fail.
      obtain ⟨both, pool₂, hboth, hsame, hbothSound, hpool₂⟩ :=
        Builder.gives_concatenate hf.respects hfirst hsound hsource.symm hpool₁
      have hsteps' := hrest second both pool₁ pool₂ hsecond hboth
      rw [show second.targetDim = both.targetDim from hsame.target.symm] at hsteps'
      obtain ⟨t, pool', hall, htSource, htTarget⟩ :=
        ih (fun d hd => hsteps d (List.mem_cons_of_mem c hd)) hpool₂ hbothSound hsteps'
      exact ⟨t, pool', concatenateAll_cons_eq_ok_iff.2 ⟨second, pool₁, both, pool₂, hsecond, hboth,
        hall⟩, htSource.trans hsame.source, htTarget⟩

include hregistry hf in
/-- An accepted element is a transform with the dimensions that it is accepted for. -/
theorem transformOf_of_accepted (e : Element α) : ∀ {pool source target}, Pool.Sound ops pool →
    Accepted i pool e source target → ∃ t pool',
      i.transformOf e pool = (.ok (some t), pool') ∧ t.sourceDim = source ∧
        t.targetDim = target := by
  -- The induction is on the element, whose children have transforms of their dimensions.
  induction e using Element.childInduction with
  | _ e ih =>
  intro pool source target hpool h
  cases h with
  | @operation _ _ name method t hkeyword hname hnamed hmethod hcreate =>
    obtain ⟨u, pool', hu, hsame, -⟩ :=
      Builder.gives_create hf.respects hpool hmethod hcreate (hregistry hmethod hcreate)
    exact ⟨u, pool', transformOf_of_production (.operation hkeyword (operation_eq_ok_iff.2
      ⟨name, _, quotedText_eq_ok_iff.2 hname, parameters_eq_ok_iff.2 ⟨hnamed, rfl⟩, hu⟩)),
      hsame.source, hsame.target⟩
  | @concatenation _ _ c cs _ middle _ hkeyword hchildren hc hsteps =>
    rw [hchildren] at ih
    obtain ⟨first, pool₁, hfirst, hsource, rfl⟩ := ih c List.mem_cons_self hpool hc
    obtain ⟨hsound, hpool₁⟩ := sound_of_transformOf hregistry hpool hfirst
    obtain ⟨t, pool', hall, htSource, htTarget⟩ := concatenateAll_of_steps hregistry hf
      (fun d hd => ih d (List.mem_cons_of_mem c hd)) hpool₁ hsound (hsteps first pool₁ hfirst)
    exact ⟨t, pool', transformOf_of_production (.concatenation hkeyword hchildren hfirst hall),
      htSource.trans hsource, htTarget⟩
  | @inverse _ _ c source target hkeyword hchildren hc hinverse =>
    -- What the child gives has an inverse, and of that the dimensions are exchanged.
    rw [hchildren] at ih
    obtain ⟨t, pool', ht, hsource, htarget⟩ := ih c List.mem_cons_self hpool hc
    obtain ⟨u, hu⟩ := hinverse t pool' ht
    have hdims := (Transform.inverseOf_of_inverse hu).dims
      (sound_of_transformOf hregistry hpool ht).1
    exact ⟨u, pool', transformOf_of_production (.inverse hkeyword hchildren ht hu),
      hdims.1.trans htarget, hdims.2.trans hsource⟩
  | @passThrough _ _ c leading trailing source target hkeyword hcounts hchildren hc =>
    rw [hchildren] at ih
    obtain ⟨t, pool₁, ht, rfl, rfl⟩ := ih c List.mem_cons_self hpool hc
    obtain ⟨hsound, hpool₁⟩ := sound_of_transformOf hregistry hpool ht
    obtain ⟨u, pool', hu, hsame, -⟩ :=
      Builder.gives_passThrough hf.respects hpool₁ leading hsound trailing
    exact ⟨u, pool', transformOf_of_production (.passThrough hkeyword
      (Element.counts_eq_ok_iff.2 hcounts) hchildren ht hu), hsame.source, hsame.target⟩

/-! ## The three answers -/

omit [Scalar α] in
/-- An answer is an error exactly when it is neither of the other two. -/
theorem error_iff_of_options {ε β σ : Type} (r : Except ε (Option β) × σ) :
    (∃ error s, r = (.error error, s)) ↔
      ¬(∃ s, r = (.ok none, s)) ∧ ¬∃ b s, r = (.ok (some b), s) := by
  obtain ⟨error | b | b, s⟩ := r <;> simp

/-- The interpreter gives no transform for exactly the elements of other keywords, a transform for
exactly the accepted elements, from the source to the target dimension for which they are accepted,
and an error for all other elements. -/
theorem transformOf_answers (hregistry : i.builder.registry.Sound ops)
    (hf : i.builder.Measured ops) (hpool : Pool.Sound ops pool) (e : Element α) :
    ((∃ pool', i.transformOf e pool = (.ok none, pool')) ↔ ¬e.IsProduction) ∧
    (∀ source target, (∃ t pool', i.transformOf e pool = (.ok (some t), pool') ∧
        t.sourceDim = source ∧ t.targetDim = target) ↔ Accepted i pool e source target) ∧
    ((∃ error pool', i.transformOf e pool = (.error error, pool')) ↔
      e.IsProduction ∧ ¬∃ source target, Accepted i pool e source target) := by
  have haccepted : ∀ source target, (∃ t pool', i.transformOf e pool = (.ok (some t), pool') ∧
      t.sourceDim = source ∧ t.targetDim = target) ↔ Accepted i pool e source target := by
    refine fun source target => ⟨?_, transformOf_of_accepted hregistry hf e hpool⟩
    rintro ⟨t, pool', ht, rfl, rfl⟩
    exact accepted_of_transformOf hregistry hf e hpool ht
  -- An answer is one of three, so that the errors are what is left over.
  refine ⟨transformOf_none_iff, haccepted, ?_⟩
  have hany : (∃ t pool', i.transformOf e pool = (.ok (some t), pool')) ↔
      ∃ source target, Accepted i pool e source target := by
    simp only [← haccepted]
    exact ⟨fun ⟨t, pool', ht⟩ => ⟨_, _, t, pool', ht, rfl, rfl⟩,
      fun ⟨_, _, t, pool', ht, _⟩ => ⟨t, pool', ht⟩⟩
  rw [error_iff_of_options, transformOf_none_iff, not_not, hany]

end Interpreter

/-! ## A shift and its inverse -/

namespace Shift

open Element

/-- A shift by one. A child of another keyword and a parameter without a value stand beside it. -/
def shiftElement : Element ℚ :=
  .node "Param_MT" 0 [.text "Shift"] [.node "PARAMETER" 0 [.text "by", .number 1] [],
    .node "PARAMETER" 0 [.word "by"] [], .node "REMARK" 0 [.number 2, .number 3] []]

theorem accepted_shift (pool : Pool ℚ) : Accepted interpreter pool shiftElement 1 1 := by
  refine .operation (t := .operation (operation 1)) (by decide) rfl ?_ get?_registry
    (by with_unfolding_all rfl)
  intro c hc hparameter hlong
  simp only [shiftElement, Element.children, List.mem_cons, List.not_mem_nil, or_false] at hc
  rcases hc with rfl | rfl | rfl
  · exact ⟨"by", rfl⟩
  · exact absurd hlong (by decide)
  · exact absurd hparameter (by decide)

theorem interpreter_measured : interpreter.builder.Measured IsShift := by
  rintro - _ _ ⟨d, rfl⟩ ⟨d', rfl⟩ -
  exact ⟨rfl, rfl⟩

theorem transformOf_shift : interpreter.transformOf shiftElement [] =
    (.ok (some (.operation (operation 1))), [.operation (operation 1)]) := by
  with_unfolding_all rfl

theorem transformOf_pooled_shift :
    interpreter.transformOf shiftElement [.operation (operation 1)] =
      (.ok (some (.operation (operation 1))), [.operation (operation 1)]) := by
  with_unfolding_all rfl

/-- The shift and its inverse. -/
def shiftAndBack : Element ℚ :=
  .node "CONCAT_MT" 0 [] [shiftElement, .node "INVERSE_MT" 0 [] [shiftElement]]

/-- The shift behind a count in quotes. -/
def quotedCount : Element ℚ := .node "PASSTHROUGH_MT" 0 [.text "1"] [shiftElement]

/-- Steps that meet are accepted; a count that is no number is not. -/
theorem transformOf_answers_shifts :
    (∃ t pool', interpreter.transformOf shiftAndBack [] = (.ok (some t), pool') ∧
      t.sourceDim = 1 ∧ t.targetDim = 1) ∧
    ∃ error pool', interpreter.transformOf quotedCount [] = (.error error, pool') := by
  have hanswers := fun e => Interpreter.transformOf_answers (i := interpreter)
    registry_lawful.sound interpreter_measured (Pool.sound_nil IsShift) e
  have hback : Accepted interpreter [] shiftAndBack 1 1 := by
    refine .concatenation (by decide) rfl (accepted_shift []) ?_
    -- The only transform of the first child is the shift, whose inverse meets it.
    intro first pool' hfirst
    cases transformOf_shift.symm.trans hfirst
    refine .cons (.inverse (by decide) rfl (accepted_shift _) ?_) fun _ _ _ _ _ _ => .nil
    intro t pool' ht
    cases transformOf_pooled_shift.symm.trans ht
    exact ⟨.inverseOperation (operation 1), rfl⟩
  have hquoted : ¬∃ source target, Accepted interpreter [] quotedCount source target := by
    rintro ⟨source, target, h⟩
    cases h with
    | operation hkeyword => exact absurd hkeyword (by decide)
    | concatenation hkeyword => exact absurd hkeyword (by decide)
    | inverse hkeyword => exact absurd hkeyword (by decide)
    -- A quoted count is not a number.
    | passThrough _ hcounts =>
      cases hcounts with
      | implied hliterals hcount =>
        cases hliterals
        obtain ⟨x, hx, -⟩ := hcount
        cases hx
      | written hliterals => cases hliterals
  have hproduction : quotedCount.IsProduction := .inr (.inr (.inr (by decide)))
  exact ⟨((hanswers shiftAndBack).2.1 1 1).2 hback,
    (hanswers quotedCount).2.2.2 ⟨hproduction, hquoted⟩⟩

end Shift

/-! ## Steps of one name -/

namespace Namesake

open Element

/-- The steps of the two methods. -/
def firstStep : Element ℚ := .node "PARAM_MT" 0 [.text "Step_v1"] []

def secondStep : Element ℚ := .node "PARAM_MT" 0 [.text "Step_v2"] []

/-- A step of single numbers, then a step of pairs. -/
def disconnected : Element ℚ := .node "CONCAT_MT" 0 [] [firstStep, secondStep]

/-- A step of the second number of pairs, then a step of pairs. -/
def connected : Element ℚ :=
  .node "CONCAT_MT" 0 [] [.node "PASSTHROUGH_MT" 0 [.number 1, .number 0] [firstStep], secondStep]

theorem accepted_firstStep_iff {pool : Pool ℚ} {source target : Nat} :
    Accepted (interpreter 2) pool firstStep source target ↔ source = 1 ∧ target = 1 :=
  accepted_operation_iff (t := step 1 1) (by decide) rfl (List.forall_mem_nil _) (get?_first 2) rfl

theorem accepted_secondStep_iff {pool : Pool ℚ} {source target : Nat} :
    Accepted (interpreter 2) pool secondStep source target ↔ source = 2 ∧ target = 2 :=
  accepted_operation_iff (t := step 2 (1 + 1)) (by decide) rfl (List.forall_mem_nil _)
    (get?_second 2) rfl

theorem not_accepted_disconnected (source target : Nat) :
    ¬Accepted (interpreter 2) [] disconnected source target := by
  have hfirst : (interpreter 2).transformOf firstStep [] = (.ok (some (step 1 1)), [step 1 1]) := by
    with_unfolding_all rfl
  intro h
  cases h with
  | concatenation _ hchildren hc hsteps =>
    cases hchildren
    obtain ⟨-, rfl⟩ := accepted_firstStep_iff.1 hc
    cases hsteps _ _ hfirst with
    | cons hsecond => exact absurd (accepted_secondStep_iff.1 hsecond).1 (by decide)
  | _ hother => exact absurd hother (by decide)

theorem accepted_connected : Accepted (interpreter 2) [] connected 2 2 := by
  have hcounts : HasCounts (interpreter 2)
      (.node "PASSTHROUGH_MT" 0 [.number 1, .number 0] [firstStep]) 1 0 :=
    .written rfl ⟨1, rfl, by with_unfolding_all rfl, by decide⟩
      ⟨0, rfl, by with_unfolding_all rfl, by decide⟩
  exact .concatenation (by decide) rfl
    (.passThrough (by decide) hcounts rfl (accepted_firstStep_iff.2 ⟨rfl, rfl⟩)) fun _ _ _ =>
      .cons (accepted_secondStep_iff.2 ⟨rfl, rfl⟩) fun _ _ _ _ _ _ => .nil

/-- In place of the second step the interpreter takes the first one from the pool: it accepts steps
that do not meet, and steps that meet fail in the builder. -/
theorem transformOf_ne_accepted :
    (registry (α := ℚ) 2).Lawful IsStep ∧
    (∃ t pool', (interpreter 2).transformOf disconnected [] = (.ok (some t), pool')) ∧
    (∀ source target, ¬Accepted (interpreter 2) [] disconnected source target) ∧
    (∃ pool', (interpreter 2).transformOf connected [] =
      (.error (.transform (.dimensionMismatch .concatenation 2 1)), pool')) ∧
    Accepted (interpreter 2) [] connected 2 2 :=
  ⟨registry_lawful 2, ⟨_, _, by with_unfolding_all rfl⟩, not_accepted_disconnected,
    ⟨_, by with_unfolding_all rfl⟩, accepted_connected⟩

end Namesake

end CoordTransform
