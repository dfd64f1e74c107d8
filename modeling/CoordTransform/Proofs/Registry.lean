import Mathlib
import CoordTransform.Builder
import CoordTransform.Proofs.Computation
import CoordTransform.Scalar.Double

/-!
# Runs of Registrations

A method answers to its name and to its further names, and a registration puts it under all of
them at once: afterwards it is found under every name that it answers to, and under all other names
nothing has changed (`get?_register`). So a registry that was filled by a run of registrations
finds, under each name, the method that answers to the name and was registered last. A later method
may take over some names of an earlier one and leave it the others.

What a registration reports as replaced was found after the further names had been put in. It is
the method that was there before, except for a method whose name is also one of its further names:
that one replaces itself.
-/

namespace CoordTransform

/-! ## Names of methods -/

namespace Method

variable {α : Type}

/-- Whether a query is the name or one of the further names of a method, up to case and blanks
around it. -/
def AnswersTo (m : Method α) (query : String) : Prop :=
  ∃ name ∈ m.aliases ++ [m.name], Registry.key name = Registry.key query

/-- Whether one of the further names of a method is its name again, up to case and blanks. -/
def RepeatsName (m : Method α) : Prop :=
  ∃ name ∈ m.aliases, Registry.key name = Registry.key m.name

instance (m : Method α) (query : String) : Decidable (m.AnswersTo query) :=
  inferInstanceAs (Decidable (∃ name ∈ m.aliases ++ [m.name], _))

instance (m : Method α) : Decidable m.RepeatsName :=
  inferInstanceAs (Decidable (∃ name ∈ m.aliases, _))

theorem answersTo_iff {m : Method α} {query : String} : m.AnswersTo query ↔
    Registry.key m.name = Registry.key query ∨
      ∃ name ∈ m.aliases, Registry.key name = Registry.key query := by
  simp only [AnswersTo, List.mem_append, List.mem_singleton, or_and_right, exists_or,
    exists_eq_left]
  exact or_comm

end Method

namespace Registry

variable {α : Type} {r : Registry α} {m n : Method α} {ms : List (Method α)} {query : String}

/-! ## One registration -/

theorem get?_insert (r : Registry α) (name : String) (m : Method α) (query : String) :
    (r.insert name m).get? query = if key name = key query then some m else r.get? query := by
  unfold get? insert
  rw [List.find?_cons]
  split
  · next h => rw [if_pos (beq_iff_eq.1 h), Option.map_some]
  · next h => rw [if_neg (beq_eq_false_iff_ne.1 h)]

/-- The further names are put in one by one; which of them comes first makes no difference. -/
theorem get?_insertAliases (r : Registry α) (m : Method α) (query : String) :
    (r.insertAliases m).get? query =
      if ∃ name ∈ m.aliases, key name = key query then some m else r.get? query := by
  unfold insertAliases
  induction m.aliases generalizing r with
  | nil => simp
  | cons name names ih =>
    rw [List.foldl_cons, ih, get?_insert]
    simp only [List.exists_mem_cons_iff]
    by_cases hnames : ∃ name ∈ names, key name = key query
    · rw [if_pos hnames, if_pos (.inr hnames)]
    · simp only [hnames, or_false, if_false]

/-- A registration changes the names that the method answers to, and no others. -/
theorem get?_register (r : Registry α) (m : Method α) (query : String) :
    (r.register m).1.get? query = if m.AnswersTo query then some m else r.get? query := by
  change ((r.insertAliases m).insert m.name m).get? query = _
  rw [get?_insert, get?_insertAliases, ← ite_or]
  exact if_congr Method.answersTo_iff.symm rfl rfl

/-- The report of a registration. -/
theorem register_snd (r : Registry α) (m : Method α) :
    (r.register m).2 = if m.RepeatsName then some m else r.get? m.name :=
  get?_insertAliases r m m.name

/-! ## Runs -/

/-- Registers methods one after the other. -/
def registerAll (r : Registry α) (ms : List (Method α)) : Registry α :=
  ms.foldl (fun r m => (r.register m).1) r

/-- The built-in registry starts with a registration, too. -/
theorem registerAll_builtin [Scalar α] (ms : List (Method α)) :
    builtin.registerAll ms = empty.registerAll (Method.matrix :: ms) := rfl

theorem registerAll_append_singleton (r : Registry α) (ms : List (Method α)) (m : Method α) :
    r.registerAll (ms ++ [m]) = ((r.registerAll ms).register m).1 :=
  List.foldl_concat ..

/-- The last method of a run that answers to a query. -/
def Latest (ms : List (Method α)) (query : String) (m : Method α) : Prop :=
  ∃ before after, ms = before ++ m :: after ∧ m.AnswersTo query ∧
    ∀ n ∈ after, ¬n.AnswersTo query

/-- One more method is the last one that answers, or leaves the last one as it was. -/
theorem latest_append_singleton : Latest (ms ++ [m]) query n ↔
    if m.AnswersTo query then m = n else Latest ms query n := by
  constructor
  · rintro ⟨before, after, hms, hanswers, hafter⟩
    rcases List.eq_nil_or_concat after with rfl | ⟨after, last, rfl⟩
    · -- The method that was added is the last of all, and it answers.
      obtain ⟨rfl, hm⟩ := List.append_inj' hms rfl
      cases hm
      rw [if_pos hanswers]
    · rw [List.concat_eq_append, ← List.cons_append, ← List.append_assoc] at hms
      obtain ⟨rfl, hm⟩ := List.append_inj' hms rfl
      cases hm
      -- It does not answer, so the last answer is among the methods before it.
      rw [List.concat_eq_append, List.forall_mem_append] at hafter
      rw [if_neg (hafter.2 m (List.mem_singleton_self m))]
      exact ⟨before, after, rfl, hanswers, hafter.1⟩
  · split
    · next hanswers =>
      rintro rfl
      exact ⟨ms, [], rfl, hanswers, List.forall_mem_nil _⟩
    · next hanswers =>
      rintro ⟨before, after, rfl, hn, hafter⟩
      refine ⟨before, after ++ [m], by rw [List.append_assoc, List.cons_append], hn, ?_⟩
      rw [List.forall_mem_append, List.forall_mem_singleton]
      exact ⟨hafter, hanswers⟩

/-- After a run the last method that answers to a name is found under it. -/
theorem get?_registerAll : (empty.registerAll ms).get? query = some m ↔ Latest ms query m := by
  -- The last registration decides, or else the run without it does.
  induction ms using List.reverseRecOn generalizing m with
  | nil => simp [registerAll, get?, empty, Latest]
  | append_singleton ms last ih =>
    rw [registerAll_append_singleton, get?_register, latest_append_singleton]
    split
    · exact Option.some_inj
    · exact ih

theorem get?_registerAll_eq_none :
    (empty.registerAll ms).get? query = none ↔ ∀ m ∈ ms, ¬m.AnswersTo query := by
  induction ms using List.reverseRecOn with
  | nil => simp [registerAll, get?, empty]
  | append_singleton ms last ih =>
    rw [registerAll_append_singleton, get?_register, List.forall_mem_append,
      List.forall_mem_singleton]
    split
    · next hanswers => simp [hanswers]
    · next hanswers => rw [ih, and_iff_left hanswers]

theorem contains_registerAll :
    (empty.registerAll ms).contains query = true ↔ ∃ m ∈ ms, m.AnswersTo query := by
  rw [contains, Option.isSome_iff_ne_none, ne_eq, get?_registerAll_eq_none]
  push Not
  rfl

end Registry

/-! ## Creating by name -/

namespace Builder

variable {α : Type} [Scalar α] {f : Builder α} {name : String} {m : Method α}

theorem create_of_unknown (h : f.registry.get? name = none) (ps : Parameters α) (pool : Pool α) :
    f.create name ps pool = (.error (.unknownMethod name), pool) := by
  unfold create
  rw [h]
  rfl

/-- What a method makes is rounded and pooled, and its errors are passed on. -/
theorem create_of_known (h : f.registry.get? name = some m) (ps : Parameters α) (pool : Pool α) :
    f.create name ps pool =
      match m.create ps with
      | .ok t => f.pooled (f.rounded t) pool
      | .error e => (.error e, pool) := by
  unfold create
  rw [h]
  dsimp only
  cases m.create ps with
  | ok t => exact stateBind_of_ok rfl
  | error e => exact stateBind_of_error rfl

/-- Pooling never fails. -/
theorem pooled_ne_error (f : Builder α) (t : Transform α) (pool : Pool α)
    (e : TransformError α) : (f.pooled t pool).1 ≠ .error e := by
  unfold pooled
  split
  · exact fun h => nomatch h
  · exact fun h => nomatch h

/-- A creation fails with an error when the method does. -/
theorem create_eq_error_iff_of_known (h : f.registry.get? name = some m) {ps : Parameters α}
    {pool : Pool α} {e : TransformError α} :
    (f.create name ps pool).1 = .error e ↔ m.create ps = .error e := by
  rw [create_of_known h]
  cases m.create ps with
  | ok t => exact iff_of_false (pooled_ne_error f _ pool e) fun heq => nomatch heq
  | error e' => exact Iff.rfl

end Builder

/-! ## The main results -/

namespace Registry

variable {α : Type}

/-- After any run of registrations, the method that is found under a query is the one that answers
to it and was registered last. There is one under the query exactly when some method of the run
answers to it. A builder with this registry creates by calling that method; it does not know the
method exactly when there is none, unless the method itself reports such a failure. -/
theorem get?_latest [Scalar α] (ms : List (Method α)) (query : String) :
    (∀ m, (empty.registerAll ms).get? query = some m ↔ Latest ms query m) ∧
    ((empty.registerAll ms).contains query = true ↔ ∃ m ∈ ms, m.AnswersTo query) ∧
    ∀ (f : Builder α) (ps : Parameters α) (pool : Pool α), f.registry = empty.registerAll ms →
      ((∀ m ∈ ms, ¬m.AnswersTo query) →
        f.create query ps pool = (.error (.unknownMethod query), pool)) ∧
      (∀ m, Latest ms query m → f.create query ps pool =
        match m.create ps with
        | .ok t => f.pooled (f.rounded t) pool
        | .error e => (.error e, pool)) ∧
      ∀ name, (f.create query ps pool).1 = .error (.unknownMethod name) ↔
        ((∀ m ∈ ms, ¬m.AnswersTo query) ∧ name = query) ∨
          ∃ m, Latest ms query m ∧ m.create ps = .error (.unknownMethod name) := by
  refine ⟨fun m => get?_registerAll, contains_registerAll, fun f ps pool hf => ?_⟩
  rw [← get?_registerAll_eq_none, ← hf]
  simp only [← get?_registerAll, ← hf]
  refine ⟨fun h => Builder.create_of_unknown h ps pool,
    -- The two sides are about the same lookup, which finds a method or none.
    fun m h => Builder.create_of_known h ps pool, fun name => ?_⟩
  cases hmethod : f.registry.get? query with
  | none =>
    rw [Builder.create_of_unknown hmethod]
    simp [eq_comm]
  | some m => simp [Builder.create_eq_error_iff_of_known hmethod]

/-- A method that makes one displacement, whatever the parameters are. -/
def displacing (name : String) (aliases : List String) (dx : Float) : Method Float where
  name := name
  aliases := aliases
  create _ := .ok (.affine (.displacement dx 0))

/-- A method with two further names. -/
def swapping : Method Float := displacing "Swap" ["Axis_Swap", " Flip XY "] 1

/-- A method whose name is one of the further names of the other one. -/
def axisSwapping : Method Float := displacing "axis_swap" [] 2

/-- A builder whose registry was filled with the built-in method and the two above. -/
def overlapping : Builder Float := ⟨empty.registerAll [.matrix, swapping, axisSwapping], {}⟩

/-- The later method takes over one name of the earlier one, which is still found under its other
further name. -/
theorem get?_latest_overlapping :
    (builtin.registerAll [swapping, axisSwapping]).get? "flip xy" = some swapping ∧
    (builtin.registerAll [swapping, axisSwapping]).get? " AXIS_SWAP" = some axisSwapping ∧
    overlapping.create "Flip XY" .empty [] =
      (.ok (.affine (.displacement 1 0)), [.affine (.displacement 1 0)]) ∧
    overlapping.create "FlipXY" .empty [] = (.error (.unknownMethod "FlipXY"), []) := by
  have hflip : Latest [.matrix, swapping, axisSwapping] "flip xy" swapping :=
    ⟨[.matrix], [axisSwapping], rfl, by decide +kernel, by decide +kernel⟩
  have hcreate : Latest [.matrix, swapping, axisSwapping] "Flip XY" swapping :=
    ⟨[.matrix], [axisSwapping], rfl, by decide +kernel, by decide +kernel⟩
  have haxis : Latest [.matrix, swapping, axisSwapping] " AXIS_SWAP" axisSwapping :=
    ⟨[.matrix, swapping], [], rfl, by decide +kernel, by decide +kernel⟩
  rw [registerAll_builtin]
  refine ⟨((get?_latest _ _).1 swapping).2 hflip, ((get?_latest _ _).1 axisSwapping).2 haxis,
    ?_, ?_⟩
  · exact ((get?_latest _ _).2.2 overlapping .empty [] rfl).2.1 swapping hcreate
  · exact ((get?_latest _ _).2.2 overlapping .empty [] rfl).1 (by decide +kernel)

/-- A registration reports the method that was found under the name before, unless the name is also
one of the further names: then it reports the new method. -/
theorem register_replaced (ms : List (Method α)) (m : Method α) :
    (∀ old, ((empty.registerAll ms).register m).2 = some old ↔
      if m.RepeatsName then m = old else Latest ms m.name old) ∧
    (((empty.registerAll ms).register m).2 = (empty.registerAll ms).get? m.name ↔
      (m.RepeatsName → Latest ms m.name m)) := by
  rw [register_snd]
  split
  · -- The further names come first, so that the name displaces the new method itself.
    next hrepeats =>
    refine ⟨fun old => Option.some_inj, ?_⟩
    rw [eq_comm, get?_registerAll]
    exact ⟨fun h _ => h, fun h => h hrepeats⟩
  · -- The name displaces what was found under it before.
    next hrepeats =>
    refine ⟨fun old => get?_registerAll, ?_⟩
    exact iff_of_true rfl fun h => absurd h hrepeats

/-- The name `Swap` is free, and the method that is registered under it replaces itself. -/
theorem register_free_name :
    ((empty : Registry Float).registerAll [.matrix]).get? "Swap" = none ∧
    ((empty.registerAll [.matrix]).register (displacing "Swap" ["swap"] 1)).2 =
      some (displacing "Swap" ["swap"] 1) := by
  refine ⟨get?_registerAll_eq_none.2 (by decide +kernel), ?_⟩
  rw [register_snd, if_pos (by decide +kernel)]

end Registry

end CoordTransform
