import CoordTransform.Proofs.Builder.Growth
import CoordTransform.Proofs.Transform.Inverse

/-!
# Requests to a Builder

A builder answers one request after the other. The operands of a request are transforms from
outside or what earlier requests have given, so that a transform which pooling has replaced is
operated on later.

The pool makes no difference to the answers: with and without it the builder fails with the same
errors and gives transforms that are the same. What is given may still remember another inverse,
but no request asks for inverses. The pool itself is a set that only grows, and a request that has
been granted is granted again, with the same transform and without a change of the pool.
-/

namespace CoordTransform

open Transform

variable {α : Type}

/-! ## Requests and their history -/

/-- A transform that a request operates on. -/
inductive Operand (α : Type) where
  /-- A transform from outside. -/
  | given (t : Transform α)
  /-- What the request at this place of the history has given. -/
  | made (k : Nat)

/-- A request for a transform. -/
inductive Request (α : Type) where
  | ofMatrix (m : DenseMatrix α)
  | create (name : String) (ps : Parameters α)
  | concatenate (first second : Operand α)
  | passThrough (leading : Nat) (inner : Operand α) (trailing : Nat)

/-- What became of a request: a transform or an error. -/
abbrev Outcome (α : Type) := Except (TransformError α) (Transform α)

/-- A pool, and the outcomes of the requests so far, the oldest one first. -/
structure History (α : Type) where
  pool : Pool α
  outcomes : List (Outcome α)

/-- The transform that an operand stands for, if there is one. -/
def Operand.transform? (outcomes : List (Outcome α)) : Operand α → Option (Transform α)
  | given t => some t
  | made k => outcomes[k]?.bind Except.toOption

namespace Builder

variable [Scalar α]

/-- What the builder does at a request, if there are transforms for all operands. -/
def computation? (f : Builder α) (outcomes : List (Outcome α)) :
    Request α → Option (Build α (Transform α))
  | .ofMatrix m => some (f.ofMatrix m)
  | .create name ps => some (f.create name ps)
  | .concatenate first second => do
    let t ← first.transform? outcomes
    let u ← second.transform? outcomes
    return f.concatenate t u
  | .passThrough leading inner trailing => do
    let t ← inner.transform? outcomes
    return f.passThrough leading t trailing

/-- One more request. It is not made when there is no transform for an operand. -/
def perform (f : Builder α) (h : History α) (r : Request α) : History α :=
  match f.computation? h.outcomes r with
  | none => h
  | some x => ⟨(x h.pool).2, h.outcomes ++ [(x h.pool).1]⟩

/-- The history of a new builder that has answered requests. -/
def history (f : Builder α) (rs : List (Request α)) : History α := rs.foldl f.perform ⟨[], []⟩

end Builder

variable [Scalar α]

/-- The transforms from outside are sound. -/
def Operand.Sound (ops : Operation α → Prop) : Operand α → Prop
  | given t => t.Sound ops
  | made _ => True

/-- The operands that are transforms from outside are sound. -/
def Request.Sound (ops : Operation α → Prop) : Request α → Prop
  | ofMatrix _ => True
  | create _ _ => True
  | concatenate first second => first.Sound ops ∧ second.Sound ops
  | passThrough _ inner _ => inner.Sound ops

/-! ## Two histories side by side -/

section

/-- The history with a pool and the one without: the outcomes are the same errors or twins. -/
structure History.Alike (ops : Operation α → Prop) (h h' : History α) : Prop where
  sound : Pool.Steady ops False h.pool
  outcomes : List.Forall₂ (ResultRel (Twins ops False)) h.outcomes h'.outcomes

variable {ops : Operation α → Prop} {outcomes outcomes' : List (Outcome α)} {h h' : History α}
  {f : Builder α}

/-- Both histories have a transform for an operand, or none of them has. -/
theorem Operand.transform?_alike
    (houtcomes : List.Forall₂ (ResultRel (Twins ops False)) outcomes outcomes') {o : Operand α}
    (ho : o.Sound ops) :
    Option.Rel (Twins ops False) (o.transform? outcomes) (o.transform? outcomes') := by
  -- Both histories are equally long, so that an operand made earlier is there in both or in
  -- neither.
  cases o with
  | given t => exact .some (.refl (show t.Sound ops from ho) False.elim)
  | made k =>
    have hat : Option.Rel (ResultRel (Twins ops False)) outcomes[k]? outcomes'[k]? := by
      by_cases hk : k < outcomes.length
      · have hk' : k < outcomes'.length := houtcomes.length_eq ▸ hk
        rw [List.getElem?_eq_getElem hk, List.getElem?_eq_getElem hk']
        exact .some (houtcomes.get hk hk')
      · have hk' : outcomes'.length ≤ k := houtcomes.length_eq ▸ Nat.le_of_not_lt hk
        rw [List.getElem?_eq_none (Nat.le_of_not_lt hk), List.getElem?_eq_none hk']
        exact .none
    refine optionRel_bind hat fun outcome outcome' h => ?_
    cases h with
    | ok htu => exact .some htu
    | error e => exact .none

variable [Scalar.Discrete α] (hops : Determined ops) (hregistry : f.registry.Sound ops)
include hops hregistry

theorem Builder.computation?_alike
    (houtcomes : List.Forall₂ (ResultRel (Twins ops False)) outcomes outcomes') {r : Request α}
    (hr : r.Sound ops) :
    Option.Rel (fun x y => Agrees ops False x y (Twins ops False)) (f.computation? outcomes r)
      (f.unpooled.computation? outcomes' r) := by
  -- Requests differ in their operands only; with operands alike, each step of the builder is alike.
  cases r with
  | ofMatrix m => exact .some (agrees_ofMatrix hops m)
  | create name ps => exact .some (agrees_create hops hregistry False.elim name ps)
  | concatenate first second =>
    refine optionRel_bind (Operand.transform?_alike houtcomes hr.1) fun t t' ht => ?_
    refine optionRel_bind (Operand.transform?_alike houtcomes hr.2) fun u u' hu => ?_
    exact .some (agrees_concatenate hops ht hu)
  | passThrough leading inner trailing =>
    refine optionRel_bind (Operand.transform?_alike houtcomes hr) fun t t' ht => ?_
    exact .some (agrees_passThrough hops leading ht trailing)

/-- One more request leaves the histories alike. -/
theorem Builder.perform_alike (hh : h.Alike ops h') {r : Request α} (hr : r.Sound ops) :
    (f.perform h r).Alike ops (f.unpooled.perform h' r) := by
  have hrel := computation?_alike hops hregistry hh.outcomes hr
  unfold perform
  generalize f.computation? h.outcomes r = x at hrel
  generalize f.unpooled.computation? h'.outcomes r = y at hrel
  cases hrel with
  | none => exact hh
  | some hagrees =>
    exact ⟨hagrees.steady_pool hh.sound,
      List.rel_append hh.outcomes (.cons (hagrees.result hh.sound h'.pool) .nil)⟩

/-- The histories of all requests are alike. -/
theorem Builder.history_alike {rs : List (Request α)} (hrs : ∀ r ∈ rs, r.Sound ops) :
    (f.history rs).Alike ops (f.unpooled.history rs) := by
  unfold history
  -- A fold from two histories that are alike: the step lemma, once for each request.
  suffices hfold : ∀ h h' : History α, h.Alike ops h' →
      (rs.foldl f.perform h).Alike ops (rs.foldl f.unpooled.perform h') from
    hfold _ _ ⟨fun _ ht => (nomatch ht), .nil⟩
  induction rs with
  | nil => exact fun _ _ => id
  | cons r rs ih =>
    intro h h' hh
    refine ih (fun r' hr' => hrs r' (List.mem_cons_of_mem r hr')) _ _ ?_
    exact perform_alike hops hregistry hh (hrs r List.mem_cons_self)

end

/-! ## Histories grow -/

namespace Operand

variable {outcomes outcomes' : List (Outcome α)} {o : Operand α} {t : Transform α}

omit [Scalar α] in
/-- An operand that stands for a transform keeps on standing for it. -/
theorem transform?_of_prefix (h : o.transform? outcomes = some t)
    (hlater : outcomes <+: outcomes') : o.transform? outcomes' = some t := by
  cases o with
  | given u => exact h
  | made k =>
    obtain ⟨outcome, houtcome, ht⟩ := Option.bind_eq_some_iff.1 h
    obtain ⟨hk, houtcome⟩ := List.getElem?_eq_some_iff.1 houtcome
    have hlater : outcomes'[k]? = some outcome := List.getElem?_eq_some_iff.2
      ⟨hk.trans_le hlater.length_le, (hlater.getElem hk).symm.trans houtcome⟩
    exact Option.bind_eq_some_iff.2 ⟨outcome, hlater, ht⟩

end Operand

namespace Builder

variable {f : Builder α} {outcomes outcomes' : List (Outcome α)} {h later : History α}
  {r : Request α} {x : Build α (Transform α)} {t : Transform α}

theorem computation?_of_prefix (hx : f.computation? outcomes r = some x)
    (hlater : outcomes <+: outcomes') : f.computation? outcomes' r = some x := by
  -- Outcomes are never taken back: what an operand stands for is found in every later history.
  cases r with
  | ofMatrix m => exact hx
  | create name ps => exact hx
  | concatenate first second =>
    obtain ⟨t, ht, hrest⟩ := Option.bind_eq_some_iff.1 hx
    obtain ⟨u, hu, hconcatenate⟩ := Option.bind_eq_some_iff.1 hrest
    exact Option.bind_eq_some_iff.2 ⟨t, Operand.transform?_of_prefix ht hlater,
      Option.bind_eq_some_iff.2 ⟨u, Operand.transform?_of_prefix hu hlater, hconcatenate⟩⟩
  | passThrough leading inner trailing =>
    obtain ⟨t, ht, hpassThrough⟩ := Option.bind_eq_some_iff.1 hx
    exact Option.bind_eq_some_iff.2 ⟨t, Operand.transform?_of_prefix ht hlater, hpassThrough⟩

/-- A request is not made, or it has an outcome and leaves a pool. -/
theorem perform_cases (f : Builder α) (h : History α) (r : Request α) :
    (f.computation? h.outcomes r = none ∧ f.perform h r = h) ∨
      ∃ x outcome pool, f.computation? h.outcomes r = some x ∧ x h.pool = (outcome, pool) ∧
        f.perform h r = ⟨pool, h.outcomes ++ [outcome]⟩ := by
  unfold perform
  cases hx : f.computation? h.outcomes r with
  | none => exact .inl ⟨rfl, rfl⟩
  | some x => exact .inr ⟨x, (x h.pool).1, (x h.pool).2, rfl, rfl, rfl⟩

theorem outcomes_prefix_perform (f : Builder α) (h : History α) (r : Request α) :
    h.outcomes <+: (f.perform h r).outcomes := by
  obtain ⟨-, hsame⟩ | ⟨x, outcome, pool, -, -, hnew⟩ := perform_cases f h r
  · rw [hsame]
  · rw [hnew]
    exact List.prefix_append _ _

/-- The history of some requests and of more after them. -/
theorem history_append (f : Builder α) (before after : List (Request α)) :
    f.history (before ++ after) = after.foldl f.perform (f.history before) :=
  List.foldl_append

/-- No outcome is lost. -/
theorem outcomes_prefix_history (f : Builder α) (before after : List (Request α)) :
    (f.history before).outcomes <+: (f.history (before ++ after)).outcomes := by
  rw [history_append]
  exact List.foldlRecOn (motive := fun h : History α => (f.history before).outcomes <+: h.outcomes)
    after _ (List.prefix_refl _) fun h hh r _ => hh.trans (outcomes_prefix_perform f h r)

variable [Scalar.Discrete α]

theorem accumulates_computation? (hx : f.computation? outcomes r = some x) : Accumulates x := by
  cases r with
  | ofMatrix m =>
    cases hx
    exact accumulates_ofMatrix f m
  | create name ps =>
    cases hx
    exact accumulates_create f name ps
  | concatenate first second =>
    obtain ⟨t, -, hrest⟩ := Option.bind_eq_some_iff.1 hx
    obtain ⟨u, -, hconcatenate⟩ := Option.bind_eq_some_iff.1 hrest
    cases hconcatenate
    exact accumulates_concatenate f t u
  | passThrough leading inner trailing =>
    obtain ⟨t, -, hpassThrough⟩ := Option.bind_eq_some_iff.1 hx
    cases hpassThrough
    exact accumulates_passThrough f leading t trailing

theorem pool_prefix_perform (f : Builder α) (h : History α) (r : Request α) :
    h.pool <+: (f.perform h r).pool := by
  obtain ⟨-, hsame⟩ | ⟨x, outcome, pool, hx, hpool, hnew⟩ := perform_cases f h r
  · rw [hsame]
  · rw [hnew]
    exact (accumulates_computation? hx).grows hpool

theorem distinct_perform (hh : h.pool.Distinct) (r : Request α) :
    (f.perform h r).pool.Distinct := by
  obtain ⟨-, hsame⟩ | ⟨x, outcome, pool, hx, hpool, hnew⟩ := perform_cases f h r
  · rwa [hsame]
  · rw [hnew]
    exact (accumulates_computation? hx).distinct hpool hh

/-- A request that is granted once is granted in every later history, with the same transform and
from the pool that there is. -/
theorem perform_again (hgranted : (f.perform h r).outcomes = h.outcomes ++ [.ok t])
    (hpool : (f.perform h r).pool <+: later.pool)
    (houtcomes : (f.perform h r).outcomes <+: later.outcomes) :
    f.perform later r = ⟨later.pool, later.outcomes ++ [.ok t]⟩ := by
  have hearlier := (outcomes_prefix_perform f h r).trans houtcomes
  -- The request was performed then, since the history has grown by its transform.
  obtain ⟨-, hsame⟩ | ⟨x, outcome, pool, hx, hresult, hnew⟩ := perform_cases f h r
  · rw [hsame] at hgranted
    cases List.self_eq_append_right.1 hgranted
  · rw [hnew] at hgranted hpool
    obtain rfl : outcome = .ok t := by simpa using hgranted
    have hrepeats := (accumulates_computation? hx).repeats hresult hpool
    rw [perform, computation?_of_prefix hx hearlier]
    simp only [hrepeats]

/-- No member of the pool is lost. -/
theorem pool_prefix_history (f : Builder α) (before after : List (Request α)) :
    (f.history before).pool <+: (f.history (before ++ after)).pool := by
  rw [history_append]
  exact List.foldlRecOn (motive := fun h : History α => (f.history before).pool <+: h.pool)
    after _ (List.prefix_refl _) fun h hh r _ => hh.trans (pool_prefix_perform f h r)

theorem distinct_history (f : Builder α) (rs : List (Request α)) : (f.history rs).pool.Distinct :=
  List.foldlRecOn (motive := fun h : History α => h.pool.Distinct) rs _ Pool.distinct_nil
    fun _ hh r _ => distinct_perform hh r

/-! ## The pool makes no difference -/

/-- Whatever is requested, pooling does not show: the same errors, and transforms that are the
same. No two members of the pool are the same and none is lost. A request that has been granted is
granted again at any later time, with the same transform and without a change of the pool. -/
theorem history_unpooled {ops : Operation α → Prop} (hops : Determined ops)
    (hregistry : f.registry.Sound ops) {rs : List (Request α)} (hrs : ∀ r ∈ rs, r.Sound ops) :
    List.Forall₂ (ResultRel fun t u => t.same u = true) (f.history rs).outcomes
        (f.unpooled.history rs).outcomes ∧
      (∀ j k (hj : j < (f.history rs).pool.length) (hk : k < (f.history rs).pool.length),
        (f.history rs).pool[j].same (f.history rs).pool[k] = true → j = k) ∧
      (∀ before after, rs = before ++ after → (f.history before).pool <+: (f.history rs).pool) ∧
      ∀ before r after t, rs = before ++ r :: after →
        (f.history (before ++ [r])).outcomes = (f.history before).outcomes ++ [.ok t] →
        f.perform (f.history rs) r =
          ⟨(f.history rs).pool, (f.history rs).outcomes ++ [.ok t]⟩ := by
  refine ⟨?_, fun j k hj hk => (distinct_history f rs).index_eq hj hk, ?_, ?_⟩
  · refine (history_alike hops hregistry hrs).outcomes.imp fun _ _ halike => ?_
    exact halike.mono fun t u _ _ htu => same_of_forget htu.forget_eq
  · rintro before after rfl
    exact pool_prefix_history f before after
  · -- The history up to the request is a beginning of the whole, in its pool and its outcomes.
    rintro before r after t rfl hgranted
    have hone : f.history (before ++ [r]) = f.perform (f.history before) r := history_append f _ _
    have hsplit : before ++ r :: after = (before ++ [r]) ++ after := by simp
    have hpool := pool_prefix_history f (before ++ [r]) after
    have houtcomes := outcomes_prefix_history f (before ++ [r]) after
    rw [← hsplit, hone] at hpool houtcomes
    rw [hone] at hgranted
    exact perform_again hgranted hpool houtcomes

end Builder

/-! ## Requests for shifts -/

namespace Shift

theorem registry_sound : (registry (α := α)).Sound IsShift := by
  intro name m ps t hm ht
  rcases eq_of_get?_registry hm with rfl | rfl
  · obtain ⟨d, -, hd⟩ := bind_eq_ok.1 ht
    cases hd
    exact ⟨d, rfl⟩
  · obtain ⟨matrix, -, hmatrix⟩ := bind_eq_ok.1 ht
    exact .ofMatrix hmatrix

/-- A builder that pools and rounds. -/
def roundingBuilder : Builder ℚ := ⟨registry, { rounding := some (1 / 100) }⟩

/-- A projective map of the second component. -/
def projectiveSecond : Transform ℚ := .passThrough 1 (.linear Transform.mapOfLine) 0

/-- A shift of the second component, then a projective map of it. -/
def shiftProjected : Request ℚ := .concatenate (.made 1) (.given projectiveSecond)

/-- The shift and the projective map, requested twice, with a request in between that fails. The
second shift is the first one again. -/
def requests : List (Request ℚ) :=
  [.create "Shift" (.ofList [("by", .number 1)]), .passThrough 1 (.made 0) 0, shiftProjected,
    .concatenate (.made 2) (.made 0), .create " shift" (.ofList [("by", .number 1)]),
    .passThrough 1 (.made 4) 0, .concatenate (.made 5) (.given projectiveSecond)]

/-- Two pass-throughs are merged, with a transform for the pool on each of two levels, and merging
them again adds nothing. -/
theorem history_unpooled_projective :
    (roundingBuilder.history requests).pool.length = 4 ∧
      List.Forall₂ (ResultRel fun t u => t.same u = true)
        (roundingBuilder.history requests).outcomes
        (roundingBuilder.unpooled.history requests).outcomes ∧
      (roundingBuilder.history (requests.take 2)).pool <+:
        (roundingBuilder.history requests).pool ∧
      roundingBuilder.perform (roundingBuilder.history requests) shiftProjected =
        ⟨(roundingBuilder.history requests).pool, (roundingBuilder.history requests).outcomes ++
          [.ok (.passThrough 1
            (.concatenated (.operation (operation 1)) (.linear Transform.mapOfLine)) 0)]⟩ := by
  -- What is requested has no operation but the shift, which its parameters determine.
  have hmap : projectiveSecond.Sound IsShift :=
    Transform.Built.sound (.passThrough 1 0 (.ofMatrix (m := Transform.mapOfLine)
      (by with_unfolding_all rfl)))
  have hsound : ∀ r ∈ requests, r.Sound IsShift := by
    simp only [requests, shiftProjected, List.forall_mem_cons, Request.Sound, Operand.Sound]
    exact ⟨trivial, trivial, ⟨trivial, hmap⟩, ⟨trivial, trivial⟩, trivial, trivial,
      ⟨trivial, hmap⟩, fun _ h => nomatch h⟩
  obtain ⟨hsame, -, hgrows, hagain⟩ := Builder.history_unpooled (f := roundingBuilder)
    (fun _ _ ho ho' => ho.eq_of_same ho') registry_sound hsound
  refine ⟨by decide +kernel, hsame, hgrows _ _ (List.take_append_drop 2 _).symm, ?_⟩
  exact hagain (requests.take 2) shiftProjected (requests.drop 3) _ rfl
    (by with_unfolding_all rfl)

end Shift

end CoordTransform
