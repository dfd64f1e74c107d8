import CoordTransform.Proofs.Datum.ClosedForm

/-!
# Which Candidate Decides a Search

Two datums without a record between them may have several intermediates in common. A search skips
those that are not in the catalogue and takes the first one that is. Its first leg follows a record
and gives a matrix. The second leg may have to invert one, and when that matrix is singular the
search ends with an error: a candidate further on is not tried, even when both of its legs have
matrices.
-/

namespace CoordTransform.Catalog

variable {α : Type} [Angular α] {c : Catalog α} {source target w : Nat} {s t : Datum α}

/-- There is a matrix to `w` and a matrix from `w`. -/
def Passable (c : Catalog α) (source target w : Nat) : Prop :=
  (∃ m, c.resolve source w = .ok (some m)) ∧ ∃ n, c.resolve w target = .ok (some n)

/-- A datum to which there is a matrix is in the catalogue. -/
theorem isSome_get?_of_resolve {m : DenseMatrix α} (h : c.resolve source w = .ok (some m)) :
    (c.get? w).isSome = true := by
  rw [Option.isSome_iff_ne_none]
  intro hnone
  have hunknown : c.resolve source w = .ok none := resolveExcluding_of_unknown (.inr hnone)
  cases hunknown.symm.trans h

/-- The search goes through the first known candidate, along the first record to it. -/
theorem Undecided.resolve_eq (h : c.Undecided source target s t) {v : Nat}
    (hv : c.junction? s t = some v) : ∃ p, s.shiftTo? v = some p ∧
      c.resolve source v = .ok (some p.toMatrix) ∧
      c.resolve source target =
        (c.resolve v target).map fun r => r.map fun n => n.product p.toMatrix := by
  obtain ⟨hmem, hknown⟩ := mem_of_junction? hv
  -- Both legs are decided by records, whether or not they can be passed.
  obtain ⟨p, hp, hfirst⟩ := recorded_first h.1 hmem hknown
  obtain ⟨m, hsecond⟩ := recorded_second h.2.1 hmem hknown
  have hwhole : c.resolve source target = m.map fun n => some (n.product p.toMatrix) :=
    answers_iff.1 (.joined h List.not_mem_nil List.not_mem_nil hv hp hsecond)
  have hleg : c.resolve v target = m.map some := hsecond.resolveExcluding_eq []
  refine ⟨p, hp, hfirst.resolveExcluding_eq [], ?_⟩
  rw [hwhole, hleg]
  cases m <;> rfl

/-- The second leg fails when it has to go back along a record with a singular matrix. -/
theorem Undecided.second_leg_eq_error_iff (h : c.Undecided source target s t) {v : Nat}
    {d : Datum α} (hv : v ∈ intermediates s t) (hd : c.get? v = some d) (e : TransformError α) :
    c.resolve v target = .error e ↔ e = .singularMatrix ∧ d.shiftTo? target = none ∧
      ∃ q, t.shiftTo? v = some q ∧ q.toMatrix.inverse = .error .singularMatrix := by
  obtain ⟨m, hsecond⟩ := recorded_second h.2.1 hv (by rw [hd]; rfl)
  have hleg : c.resolve v target = m.map some := hsecond.resolveExcluding_eq []
  rw [hleg]
  -- The leg goes forward along its own record, or back along the one of the target.
  cases hsecond with
  | forward hd' _ hp =>
    cases hd.symm.trans hd'
    rw [hp]
    exact ⟨fun he => (nomatch he), fun he => nomatch he.2.1⟩
  | @backward _ t' q hd' ht' hnone hq =>
    cases hd.symm.trans hd'
    cases h.2.1.symm.trans ht'
    rw [← BursaWolf.inverse_toMatrix]
    -- Matrices of shifts are square, so that elimination gives an inverse or finds them singular.
    rcases DenseMatrix.inverse_of_square (m := q.toMatrix) rfl with ⟨n, hn⟩ | hsingular
    · rw [hn]
      refine ⟨fun he => (nomatch he), ?_⟩
      rintro ⟨-, -, q', hq', hsingular⟩
      cases hq.symm.trans hq'
      cases hn.symm.trans hsingular
    · rw [hsingular]
      constructor
      · rintro ⟨⟩
        exact ⟨rfl, hnone, q, hq, hsingular⟩
      · rintro ⟨rfl, -, -⟩
        rfl

/-- A search between datums that have a passable candidate does not end without a result, and it is
the first known candidate that decides: there is a matrix exactly when that one is passable, too.
Otherwise its second leg would have to go back along a record with a singular matrix. -/
theorem resolve_of_candidate (h : c.Undecided source target s t) (hw : w ∈ intermediates s t)
    (hpassable : c.Passable source target w) :
    ∃ v d, (intermediates s t).find? (fun u => (c.get? u).isSome) = some v ∧ c.get? v = some d ∧
      c.resolve source target ≠ .ok none ∧
      ((∃ r, c.resolve source target = .ok (some r)) ↔ c.Passable source target v) ∧
      ∀ e, c.resolve source target = .error e ↔ e = .singularMatrix ∧ d.shiftTo? target = none ∧
        ∃ q, t.shiftTo? v = some q ∧ q.toMatrix.inverse = .error .singularMatrix := by
  obtain ⟨⟨m, hm⟩, -⟩ := hpassable
  obtain ⟨v, hv⟩ : ∃ v, (intermediates s t).find? (fun u => (c.get? u).isSome) = some v :=
    Option.isSome_iff_exists.1 (List.find?_isSome.2 ⟨w, hw, isSome_get?_of_resolve hm⟩)
  -- Whether or not it is the passable one, the search goes through the first known candidate.
  have hjunction : c.junction? s t = some v := (find?_intermediates c s t).symm.trans hv
  obtain ⟨hmem, hknown⟩ := mem_of_junction? hjunction
  obtain ⟨d, hd⟩ := Option.isSome_iff_exists.1 hknown
  obtain ⟨p, -, hfirst, hwhole⟩ := h.resolve_eq hjunction
  obtain ⟨r, hsecond⟩ := recorded_second h.2.1 hmem hknown
  have hleg : c.resolve v target = r.map some := hsecond.resolveExcluding_eq []
  have herror := h.second_leg_eq_error_iff hmem hd
  refine ⟨v, d, hv, hd, ?_, ?_, fun e => ?_⟩
  · rw [hwhole, hleg]
    -- The second leg has a matrix or fails, so that the search does not end with nothing.
    cases r <;> exact fun hnone => nomatch hnone
  · rw [Passable, hwhole, hleg]
    cases r with
    | error e => exact ⟨fun ⟨_, hr⟩ => (nomatch hr), fun ⟨_, _, hn⟩ => nomatch hn⟩
    | ok n => exact ⟨fun _ => ⟨⟨_, hfirst⟩, n, rfl⟩, fun _ => ⟨_, rfl⟩⟩
  · rw [← herror e, hwhole]
    cases c.resolve v target with
    | error e' => exact Iff.rfl
    | ok r' => exact ⟨fun hr => (nomatch hr), fun hr => nomatch hr⟩

/-! ## Two candidates -/

/-- A datum with displacements to some datums, and one with records to the datums 2 and 3. Its
record to 2 takes all points to one. -/
def collapsing (targets : List Nat) : Catalog Float :=
  ⟨[{ name := "A", shifts := targets.map fun w => .displacement w 1 0 0 },
    { name := "B", shifts := [⟨2, 0, 0, 0, 0, 0, 0, -1000000⟩, .displacement 3 0 1 0] },
    { name := "C" }, { name := "D" }]⟩

/-- There is a way through the datum 3, whatever the order of the records. -/
theorem passable_collapsing {targets : List Nat} {s : Datum Float} {p : BursaWolf Float}
    (hs : (collapsing targets).get? 0 = some s) (hp : s.shiftTo? 3 = some p) :
    (collapsing targets).Passable 0 1 3 := by
  have hfirst : (collapsing targets).Recorded 0 3 (.ok p.toMatrix) := .forward hs rfl hp
  have hsecond : (collapsing targets).Recorded 3 1
      (BursaWolf.displacement 3 (0 : Float) 1 0).backward := .backward rfl rfl rfl rfl
  have hinverse : (BursaWolf.displacement 3 (0 : Float) 1 0).backward.toBool = true := by
    decide +kernel
  -- Elimination is run on doubles; all that matters is that it succeeds.
  cases hback : (BursaWolf.displacement 3 (0 : Float) 1 0).backward with
  | error e =>
    rw [hback] at hinverse
    cases hinverse
  | ok n =>
    rw [hback] at hsecond
    exact ⟨⟨_, hfirst.resolveExcluding_eq []⟩, n, hsecond.resolveExcluding_eq []⟩

/-- The way through the datum 3 is found when it comes first. -/
theorem resolve_of_candidate_first : ∃ r, (collapsing [3, 2]).resolve 0 1 = .ok (some r) := by
  have hpassable : (collapsing [3, 2]).Passable 0 1 3 := passable_collapsing rfl rfl
  have hundecided : (collapsing [3, 2]).Undecided 0 1 _ _ := ⟨rfl, rfl, rfl, rfl⟩
  obtain ⟨v, d, hv, -, -, hfound, -⟩ := resolve_of_candidate hundecided (by decide) hpassable
  have hthree : v = 3 := Option.some.inj (hv.symm.trans (by decide))
  exact hfound.2 (hthree ▸ hpassable)

/-- It is not found behind the datum 2, from which there is no way on. -/
theorem resolve_behind_singular : (collapsing [2, 3]).Passable 0 1 3 ∧
    (∃ s t, (collapsing [2, 3]).Undecided 0 1 s t ∧ 3 ∈ intermediates s t) ∧
      (collapsing [2, 3]).resolve 0 1 = .error .singularMatrix := by
  have hsecond : (collapsing [2, 3]).Recorded 2 1
      (BursaWolf.mk 2 (0 : Float) 0 0 0 0 0 (-1000000)).backward := .backward rfl rfl rfl rfl
  have hsingular : (BursaWolf.mk 2 (0 : Float) 0 0 0 0 0 (-1000000)).toMatrix.inverse.toBool =
      false := by decide +kernel
  have hundecided : (collapsing [2, 3]).Undecided 0 1 _ _ := ⟨rfl, rfl, rfl, rfl⟩
  obtain ⟨p, -, -, hwhole⟩ := hundecided.resolve_eq (v := 2) rfl
  refine ⟨passable_collapsing rfl rfl, ⟨_, _, hundecided, by decide⟩, ?_⟩
  -- The second leg is the one that ends the search.
  have hleg : (collapsing [2, 3]).resolve 2 1 = .error .singularMatrix := by
    refine (hsecond.resolveExcluding_eq []).trans ?_
    unfold BursaWolf.backward
    cases hinverse : (BursaWolf.mk 2 (0 : Float) 0 0 0 0 0 (-1000000)).toMatrix.inverse with
    | error e => rfl
    | ok n =>
      rw [hinverse] at hsingular
      cases hsingular
  rw [hwhole, hleg]
  rfl

end CoordTransform.Catalog
