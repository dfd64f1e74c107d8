import Mathlib
import CoordTransform.Datum.Search
import CoordTransform.Proofs.Matrix.Inverse
import CoordTransform.Proofs.Rational

/-!
# Datum Searches in Closed Form

A search between datums calls itself for the two legs through an intermediate. Both legs follow a
record that is known to exist, so neither of them searches any further: `Answers` says what a
search gives, case by case and without recursion.

Exclusions matter only to a search that is started with some of them. They stop it at its first
step, and never at a leg.
-/

namespace CoordTransform

variable {α : Type} [Angular α]

/-! ## Records -/

namespace BursaWolf

/-- The inverse of the matrix of a record; without one, the matrix is singular. -/
def backward (p : BursaWolf α) : Except (TransformError α) (DenseMatrix α) :=
  match p.toMatrix.inverse with
  | .ok n => .ok n
  | .error _ => .error .singularMatrix

/-- The matrix of a record is square, so it has an inverse or is singular. -/
theorem inverse_toMatrix (p : BursaWolf α) : p.toMatrix.inverse = p.backward := by
  unfold backward
  rcases DenseMatrix.inverse_of_square (m := p.toMatrix) rfl with ⟨n, hn⟩ | hsingular
  · rw [hn]
  · rw [hsingular]

/-- The matrix of a record taken backward is 4x4, too. -/
theorem shape_of_backward {p : BursaWolf α} {n : DenseMatrix α} (h : p.backward = .ok n) :
    n.rows = 4 ∧ n.cols = 4 := by
  rw [← inverse_toMatrix] at h
  exact (DenseMatrix.shape_inverse h).2

end BursaWolf

omit [Angular α] in
/-- A datum has a record to every target of its records. -/
theorem Datum.shiftTo?_of_mem {d : Datum α} {p : BursaWolf α} (h : p ∈ d.shifts) :
    ∃ q, d.shiftTo? p.target = some q := by
  refine Option.isSome_iff_exists.1 (List.find?_isSome.2 ⟨p, h, ?_⟩)
  exact beq_self_eq_true _

namespace Catalog

/-! ## First results -/

omit [Angular α] in
/-- When candidates that are not known give nothing, and known ones always something, the first
known candidate decides. -/
theorem firstResult_eq_of_known {β ε : Type} {search : Nat → Except ε (Option β)}
    {known : Nat → Bool} {ws : List Nat}
    (hunknown : ∀ w ∈ ws, known w = false → search w = .ok none)
    (hknown : ∀ w ∈ ws, known w = true → search w ≠ .ok none) :
    firstResult search ws = (ws.find? known).elim (.ok none) search := by
  induction ws with
  | nil => rfl
  | cons w ws ih =>
    have hrest := ih (fun v hv => hunknown v (List.mem_cons_of_mem w hv))
      (fun v hv => hknown v (List.mem_cons_of_mem w hv))
    rw [firstResult, List.find?_cons]
    -- An unknown candidate is passed over; the first known one ends the search with what it gives.
    cases hw : known w with
    | false =>
      rw [hunknown w List.mem_cons_self hw]
      exact hrest
    | true =>
      have hsome := hknown w List.mem_cons_self hw
      change _ = search w
      cases hsearch : search w with
      | error e => rfl
      | ok r =>
        cases r with
        | none => exact absurd hsearch hsome
        | some m => rfl

/-! ## What a search answers -/

/-- The matrix that a record between two known datums gives: the first record of `source` to
`target`, or else the first one of `target` to `source`, taken backward. -/
inductive Recorded (c : Catalog α) (source target : Nat) :
    Except (TransformError α) (DenseMatrix α) → Prop where
  | forward {s t : Datum α} {p : BursaWolf α} : c.get? source = some s → c.get? target = some t →
      s.shiftTo? target = some p → Recorded c source target (.ok p.toMatrix)
  | backward {s t : Datum α} {p : BursaWolf α} : c.get? source = some s →
      c.get? target = some t → s.shiftTo? target = none → t.shiftTo? source = some p →
      Recorded c source target p.backward

/-- Both datums are known, and neither has a record to the other. -/
def Undecided (c : Catalog α) (source target : Nat) (s t : Datum α) : Prop :=
  c.get? source = some s ∧ c.get? target = some t ∧ s.shiftTo? target = none ∧
    t.shiftTo? source = none

/-- The first known datum that a record of `s` and a record of `t` both lead to, in the order of
the records of `s` and then of `t`. -/
def junction? (c : Catalog α) (s t : Datum α) : Option Nat :=
  ((s.shifts ×ˢ t.shifts).find? fun pair =>
    pair.1.target == pair.2.target && (c.get? pair.1.target).isSome).map (·.1.target)

/-- The answer of a search, as far as it depends on the records and the exclusions. -/
inductive Answers (c : Catalog α) (source target : Nat) (excluded : List Nat) :
    Except (TransformError α) (Option (DenseMatrix α)) → Prop where
  | unknown : c.get? source = none ∨ c.get? target = none →
      Answers c source target excluded (.ok none)
  | recorded {m : Except (TransformError α) (DenseMatrix α)} : c.Recorded source target m →
      Answers c source target excluded (m.map some)
  | blocked {s t : Datum α} : c.Undecided source target s t →
      source ∈ excluded ∨ target ∈ excluded → Answers c source target excluded (.ok none)
  | joined {s t : Datum α} {w : Nat} {p : BursaWolf α}
      {m : Except (TransformError α) (DenseMatrix α)} : c.Undecided source target s t →
      source ∉ excluded → target ∉ excluded → c.junction? s t = some w →
      s.shiftTo? w = some p → c.Recorded w target m →
      Answers c source target excluded (m.map fun n => some (n.product p.toMatrix))
  | apart {s t : Datum α} : c.Undecided source target s t → source ∉ excluded →
      target ∉ excluded → c.junction? s t = none → Answers c source target excluded (.ok none)

variable {c : Catalog α} {source target w : Nat} {excluded : List Nat} {s t : Datum α}
  {m : Except (TransformError α) (DenseMatrix α)}

/-! ## Searches that take no second step -/

theorem resolveExcluding_of_unknown (h : c.get? source = none ∨ c.get? target = none) :
    c.resolveExcluding source target excluded = .ok none := by
  rw [resolveExcluding.eq_def]
  split
  · next hs ht =>
    rcases h with h | h
    · rw [h] at hs
      cases hs
    · rw [h] at ht
      cases ht
  · rfl

/-- A record between the two datums decides the search, whatever is excluded. -/
theorem Recorded.resolveExcluding_eq (h : c.Recorded source target m) (excluded : List Nat) :
    c.resolveExcluding source target excluded = m.map some := by
  -- A record of the source is looked up first, and one of the target only without it.
  cases h with
  | forward hs ht hp =>
    rw [resolveExcluding.eq_def]
    split
    · next hs' ht' =>
      cases hs.symm.trans hs'
      rw [hp]
      rfl
    · next hnone => exact absurd ht (hnone _ _ hs)
  | backward hs ht hnone hp =>
    rw [resolveExcluding.eq_def]
    split
    · next hs' ht' =>
      cases hs.symm.trans hs'
      cases ht.symm.trans ht'
      rw [hnone, hp]
      dsimp only
      rw [BursaWolf.inverse_toMatrix]
    · next hunknown => exact absurd ht (hunknown _ _ hs)

theorem Undecided.resolveExcluding_of_excluded (h : c.Undecided source target s t)
    (hexcluded : source ∈ excluded ∨ target ∈ excluded) :
    c.resolveExcluding source target excluded = .ok none := by
  -- Nothing is recorded, so that the exclusions decide.
  obtain ⟨hs, ht, hforward, hbackward⟩ := h
  rw [resolveExcluding.eq_def]
  split
  · next hs' ht' =>
    cases hs.symm.trans hs'
    cases ht.symm.trans ht'
    rw [hforward, hbackward]
    exact dif_pos (by simpa using hexcluded)
  · rfl

/-- The search through an intermediate `w`, which excludes both ends. -/
def searchThrough (c : Catalog α) (source target : Nat) (excluded : List Nat) (w : Nat) :
    Except (TransformError α) (Option (DenseMatrix α)) := do
  match ← c.resolveExcluding source w (source :: target :: excluded) with
  | none => return none
  | some first =>
    match ← c.resolveExcluding w target (source :: target :: excluded) with
    | none => return none
    | some second => return some (← second.multiply first)

theorem Undecided.resolveExcluding_of_open (h : c.Undecided source target s t)
    (hsource : source ∉ excluded) (htarget : target ∉ excluded) :
    c.resolveExcluding source target excluded =
      firstResult (c.searchThrough source target excluded) (intermediates s t) := by
  obtain ⟨hs, ht, hforward, hbackward⟩ := h
  rw [resolveExcluding.eq_def]
  split
  · next hs' ht' =>
    cases hs.symm.trans hs'
    cases ht.symm.trans ht'
    rw [hforward, hbackward]
    exact dif_neg (by simpa using ⟨hsource, htarget⟩)
  · next hunknown => exact absurd ht (hunknown _ _ hs)

/-! ## Legs -/

omit [Angular α] in
theorem mem_intermediates {w : Nat} : w ∈ intermediates s t ↔
    ∃ p ∈ s.shifts, ∃ q ∈ t.shifts, p.target = w ∧ q.target = w := by
  simp only [intermediates, List.mem_flatMap, List.mem_filterMap, Option.ite_none_right_eq_some,
    beq_iff_eq, Option.some.injEq]
  constructor
  · rintro ⟨p, hp, q, hq, hsame, rfl⟩
    exact ⟨p, hp, q, hq, rfl, hsame.symm⟩
  · rintro ⟨p, hp, q, hq, rfl, hsame⟩
    exact ⟨p, hp, q, hq, hsame.symm, rfl⟩

omit [Angular α] in
/-- The junction is the first known candidate. -/
theorem find?_intermediates (c : Catalog α) (s t : Datum α) :
    (intermediates s t).find? (fun w => (c.get? w).isSome) = c.junction? s t := by
  -- Pairs of records with equal targets are what the candidates are taken from, in the same order.
  have hpairs : intermediates s t = (s.shifts ×ˢ t.shifts).filterMap fun pair =>
      if pair.1.target == pair.2.target then some pair.1.target else none := by
    change _ = (s.shifts.flatMap fun p => t.shifts.map (Prod.mk p)).filterMap _
    rw [List.filterMap_flatMap]
    simp only [List.filterMap_map]
    rfl
  have htest : ∀ pair : BursaWolf α × BursaWolf α,
      (if pair.1.target == pair.2.target then some pair.1.target else none).any
        (fun w => (c.get? w).isSome) =
      (pair.1.target == pair.2.target && (c.get? pair.1.target).isSome) := by
    intro pair
    cases pair.1.target == pair.2.target <;> rfl
  rw [hpairs, List.find?_filterMap, junction?]
  simp only [htest]
  cases hfind : (s.shifts ×ˢ t.shifts).find? fun pair =>
      pair.1.target == pair.2.target && (c.get? pair.1.target).isSome with
  | none => rfl
  | some pair =>
    have hpair := List.find?_some hfind
    rw [Bool.and_eq_true] at hpair
    exact if_pos hpair.1

/-- The matrix of a leg is 4x4. -/
theorem Recorded.shape {n : DenseMatrix α} (h : c.Recorded source target (.ok n)) :
    n.rows = 4 ∧ n.cols = 4 := by
  generalize hm : (Except.ok n : Except (TransformError α) (DenseMatrix α)) = m at h
  cases h with
  | forward hs ht hp =>
    cases hm
    exact ⟨rfl, rfl⟩
  | backward hs ht hnone hp => exact BursaWolf.shape_of_backward hm.symm

/-- The first leg to a known candidate follows the first record of the source to it. -/
theorem recorded_first (hs : c.get? source = some s) (hw : w ∈ intermediates s t)
    (hknown : (c.get? w).isSome = true) :
    ∃ p, s.shiftTo? w = some p ∧ c.Recorded source w (.ok p.toMatrix) := by
  obtain ⟨p, hp, q, hq, rfl, -⟩ := mem_intermediates.1 hw
  obtain ⟨d, hd⟩ := Option.isSome_iff_exists.1 hknown
  obtain ⟨p', hp'⟩ := Datum.shiftTo?_of_mem hp
  exact ⟨p', hp', .forward hs hd hp'⟩

/-- The second leg follows a record of the candidate, or one of the target backward. -/
theorem recorded_second (ht : c.get? target = some t) (hw : w ∈ intermediates s t)
    (hknown : (c.get? w).isSome = true) : ∃ m, c.Recorded w target m := by
  obtain ⟨p, hp, q, hq, -, rfl⟩ := mem_intermediates.1 hw
  obtain ⟨d, hd⟩ := Option.isSome_iff_exists.1 hknown
  obtain ⟨q', hq'⟩ := Datum.shiftTo?_of_mem hq
  cases hdirect : d.shiftTo? target with
  | some p' => exact ⟨_, .forward hd ht hdirect⟩
  | none => exact ⟨_, .backward hd ht hdirect hq'⟩

omit [Angular α] in
/-- Neither leg to or from a candidate is left to a search. -/
theorem not_undecided_legs (hs : c.get? source = some s) (ht : c.get? target = some t)
    (hw : w ∈ intermediates s t) (a b : Datum α) :
    ¬c.Undecided source w a b ∧ ¬c.Undecided w target a b := by
  obtain ⟨p, hp, q, hq, hpw, hqw⟩ := mem_intermediates.1 hw
  constructor
  · -- A record from the source to the candidate decides the first leg.
    rintro ⟨ha, -, hnone, -⟩
    cases hs.symm.trans ha
    obtain ⟨p', hp'⟩ := Datum.shiftTo?_of_mem hp
    rw [hpw, hnone] at hp'
    cases hp'
  · -- A record from the target to the candidate decides the second leg.
    rintro ⟨-, hb, -, hnone⟩
    cases ht.symm.trans hb
    obtain ⟨q', hq'⟩ := Datum.shiftTo?_of_mem hq
    rw [hqw, hnone] at hq'
    cases hq'

theorem searchThrough_of_unknown (hw : c.get? w = none) :
    c.searchThrough source target excluded w = .ok none := by
  unfold searchThrough
  rw [resolveExcluding_of_unknown (.inr hw)]
  rfl

/-- Two recorded legs are multiplied, the second one from the left. -/
theorem searchThrough_of_recorded {p : BursaWolf α} (hfirst : c.Recorded source w (.ok p.toMatrix))
    (hsecond : c.Recorded w target m) : c.searchThrough source target excluded w =
      m.map fun n => some (n.product p.toMatrix) := by
  unfold searchThrough
  rw [hfirst.resolveExcluding_eq, hsecond.resolveExcluding_eq]
  cases m with
  | error e => rfl
  | ok n =>
    dsimp only [Except.map, bind, Except.bind]
    rw [DenseMatrix.multiply_eq_ok (n := p.toMatrix) hsecond.shape.2]
    rfl

/-- A search for an intermediate goes through the junction. -/
theorem Undecided.firstResult_eq (h : c.Undecided source target s t) :
    firstResult (c.searchThrough source target excluded) (intermediates s t) =
      (c.junction? s t).elim (.ok none) (c.searchThrough source target excluded) := by
  rw [← find?_intermediates]
  refine firstResult_eq_of_known ?_ ?_
  · intro w _ hunknown
    exact searchThrough_of_unknown (by simpa using hunknown)
  -- Both legs to a known candidate are recorded, so the search through it is no failure to find.
  · intro w hw hknown
    obtain ⟨p, -, hfirst⟩ := recorded_first h.1 hw hknown
    obtain ⟨m, hsecond⟩ := recorded_second h.2.1 hw hknown
    rw [searchThrough_of_recorded hfirst hsecond]
    cases m <;> exact fun hnone => nomatch hnone

omit [Angular α] in
theorem mem_of_junction? (h : c.junction? s t = some w) :
    w ∈ intermediates s t ∧ (c.get? w).isSome = true := by
  rw [← find?_intermediates] at h
  exact ⟨List.mem_of_find?_eq_some h, by simpa only using List.find?_some h⟩

/-! ## Searches in closed form -/

/-- What the cases say, the search answers. -/
theorem Answers.resolveExcluding_eq {r : Except (TransformError α) (Option (DenseMatrix α))}
    (h : c.Answers source target excluded r) :
    c.resolveExcluding source target excluded = r := by
  -- In the last two cases the search runs over the candidates, of which the junction decides.
  cases h with
  | unknown h => exact resolveExcluding_of_unknown h
  | recorded h => exact h.resolveExcluding_eq excluded
  | blocked h hexcluded => exact h.resolveExcluding_of_excluded hexcluded
  | joined h hsource htarget hjunction hp hsecond =>
    obtain ⟨hw, hknown⟩ := mem_of_junction? hjunction
    obtain ⟨p', hp', hfirst⟩ := recorded_first h.1 hw hknown
    cases hp.symm.trans hp'
    rw [h.resolveExcluding_of_open hsource htarget, h.firstResult_eq, hjunction]
    exact searchThrough_of_recorded hfirst hsecond
  | apart h hsource htarget hjunction =>
    rw [h.resolveExcluding_of_open hsource htarget, h.firstResult_eq, hjunction]
    rfl

/-- One of the cases applies. -/
theorem exists_answers (c : Catalog α) (source target : Nat) (excluded : List Nat) :
    ∃ r, c.Answers source target excluded r := by
  cases hs : c.get? source with
  | none => exact ⟨_, .unknown (.inl hs)⟩
  | some s =>
  cases ht : c.get? target with
  | none => exact ⟨_, .unknown (.inr ht)⟩
  | some t =>
  cases hforward : s.shiftTo? target with
  | some p => exact ⟨_, .recorded (.forward hs ht hforward)⟩
  | none =>
  cases hbackward : t.shiftTo? source with
  | some p => exact ⟨_, .recorded (.backward hs ht hforward hbackward)⟩
  | none =>
  have hundecided : c.Undecided source target s t := ⟨hs, ht, hforward, hbackward⟩
  -- Nothing is recorded, so that exclusions are looked at, and then the candidates.
  by_cases hexcluded : source ∈ excluded ∨ target ∈ excluded
  · exact ⟨_, .blocked hundecided hexcluded⟩
  · rw [not_or] at hexcluded
    cases hjunction : c.junction? s t with
    | none => exact ⟨_, .apart hundecided hexcluded.1 hexcluded.2 hjunction⟩
    | some w =>
      obtain ⟨hw, hknown⟩ := mem_of_junction? hjunction
      obtain ⟨p, hp, -⟩ := recorded_first hs hw hknown
      obtain ⟨m, hsecond⟩ := recorded_second ht hw hknown
      exact ⟨_, .joined hundecided hexcluded.1 hexcluded.2 hjunction hp hsecond⟩

theorem answers_iff {r : Except (TransformError α) (Option (DenseMatrix α))} :
    c.Answers source target excluded r ↔ c.resolveExcluding source target excluded = r := by
  constructor
  · exact Answers.resolveExcluding_eq
  · rintro rfl
    obtain ⟨r, hr⟩ := exists_answers c source target excluded
    rwa [hr.resolveExcluding_eq]

/-- A search without exclusions fails to find a matrix only for want of records. -/
theorem resolve_eq_none_iff : c.resolve source target = .ok none ↔
    (c.get? source = none ∨ c.get? target = none) ∨
      ∃ s t, c.Undecided source target s t ∧ c.junction? s t = none := by
  constructor
  · intro hnone
    -- The answer is generalized, since only some of the cases can give it.
    generalize hr : (Except.ok none : Except (TransformError α) (Option (DenseMatrix α))) = r
      at hnone
    cases answers_iff.2 hnone with
    | unknown hunknown => exact .inl hunknown
    | @recorded m _ => cases m <;> cases hr
    | blocked _ hexcluded => rcases hexcluded with hmem | hmem <;> cases hmem
    | @joined _ _ _ _ m _ _ _ _ _ _ => cases m <;> cases hr
    | apart hundecided _ _ hjunction => exact .inr ⟨_, _, hundecided, hjunction⟩
  · rintro (hunknown | ⟨s, t, hundecided, hjunction⟩)
    · exact resolveExcluding_of_unknown hunknown
    · exact answers_iff.1 (.apart hundecided List.not_mem_nil List.not_mem_nil hjunction)

/-- A search answers as the cases say. The legs through a candidate follow records, so that no
search but the outermost one looks for an intermediate, and a search without exclusions is never
kept from one. -/
theorem search_closed_form (c : Catalog α) (source target : Nat) (excluded : List Nat) :
    (∀ r, c.resolveExcluding source target excluded = r ↔ c.Answers source target excluded r) ∧
    (∀ s t w, c.get? source = some s → c.get? target = some t → w ∈ intermediates s t →
      ∀ a b, ¬c.Undecided source w a b ∧ ¬c.Undecided w target a b) ∧
    (c.resolve source target = .ok none ↔
      (c.get? source = none ∨ c.get? target = none) ∨
        ∃ s t, c.Undecided source target s t ∧ c.junction? s t = none) :=
  ⟨fun _ => answers_iff.symm, fun _ _ _ hs ht hw => not_undecided_legs hs ht hw,
    resolve_eq_none_iff⟩

/-- Records in a cycle, from a datum to itself, twice to one target, and to a datum that is not
there. -/
def tangled : Catalog ℚ :=
  ⟨[{ name := "A", shifts := [.displacement 9 1 0 0, ⟨2, 10, 0, 0, 0, 0, 0, 1000000⟩,
        .displacement 2 1 1 1] },
    { name := "B", shifts := [.displacement 9 0 1 0, .displacement 1 3 0 0,
        .displacement 2 0 5 0] },
    { name := "C", shifts := [.displacement 0 0 0 7] }]⟩

theorem search_closed_form_tangled :
    (∃ m, tangled.resolveExcluding 0 1 [] = .ok (some m) ∧
      m.toRows = [[2, 0, 0, 10], [0, 2, 0, -5], [0, 0, 2, 0], [0, 0, 0, 1]]) ∧
    tangled.resolveExcluding 0 1 [1] = .ok none ∧
    ∀ a b, ¬tangled.Undecided 0 2 a b ∧ ¬tangled.Undecided 2 1 a b := by
  have hundecided : tangled.Undecided 0 1 tangled.datums[0] tangled.datums[1] :=
    ⟨rfl, rfl, rfl, rfl⟩
  -- The first leg follows the first of two records, the second leg goes back along its record.
  have hlegs : ((BursaWolf.displacement (2 : Nat) (0 : ℚ) 5 0).backward.toOption.map fun n =>
      (n.product (BursaWolf.mk 2 10 0 0 0 0 0 1000000).toMatrix).toRows) =
      some [[2, 0, 0, 10], [0, 2, 0, -5], [0, 0, 2, 0], [0, 0, 0, 1]] := by decide +kernel
  refine ⟨?_, ?_, ?_⟩
  · cases hback : (BursaWolf.displacement (2 : Nat) (0 : ℚ) 5 0).backward with
    | error e =>
      rw [hback] at hlegs
      cases hlegs
    | ok n =>
      rw [hback] at hlegs
      have hsecond : tangled.Recorded 2 1 (.ok n) := hback ▸ .backward rfl rfl rfl rfl
      refine ⟨_, ((search_closed_form tangled 0 1 []).1 _).2 ?_, Option.some.inj hlegs⟩
      exact .joined (m := .ok n) hundecided List.not_mem_nil List.not_mem_nil rfl rfl hsecond
  · exact ((search_closed_form tangled 0 1 [1]).1 _).2 (.blocked hundecided (.inr (by decide)))
  · exact (search_closed_form tangled 0 1 []).2.1 _ _ 2 rfl rfl (by decide)

end Catalog

end CoordTransform
