import CoordTransform.Datum.Catalog
import CoordTransform.DenseMatrix.Arithmetic
import CoordTransform.Transform.Basic

/-!
# Paths between Datums

The matrix from a source datum to a target datum is, in this order of preference,

1. the matrix of the source's first record to the target,
2. the inverse of the matrix of the target's first record to the source,
3. the product of two legs through a common intermediate datum, one that both the source and the
   target have a record to.

A search for an intermediate excludes its two ends from being ends of further such searches. That
there is no path is a result and no error; only a matrix that cannot be inverted is an error.
-/

namespace CoordTransform.Catalog

variable {α : Type}

/-! ## Candidates -/

/-- The targets that a record of `s` and a record of `t` have in common, in the order of the
records of `s` and then of `t`. -/
def intermediates (s t : Datum α) : List Nat :=
  s.shifts.flatMap fun p => t.shifts.filterMap fun q =>
    if p.target == q.target then some p.target else none

/-- The first result that a search yields on a list of candidates; an error ends the search. -/
def firstResult {β ε : Type} (search : Nat → Except ε (Option β)) :
    List Nat → Except ε (Option β)
  | [] => .ok none
  | w :: ws =>
    match search w with
    | .error e => .error e
    | .ok (some m) => .ok (some m)
    | .ok none => firstResult search ws

/-- The datums that may still be ends of a search for an intermediate. -/
def openCount (c : Catalog α) (excluded : List Nat) : Nat :=
  ((List.range c.size).filter fun d => !excluded.contains d).length

/-- Excluding more leaves no more candidates in a list. -/
theorem countP_exclude_le (x y : Nat) (excluded l : List Nat) :
    l.countP (fun d => !(x :: y :: excluded).contains d) ≤
      l.countP fun d => !excluded.contains d :=
  List.countP_mono_left fun d _ => by
    simp only [List.contains_cons, Bool.not_or, Bool.and_eq_true]
    exact fun h => h.2.2

/-- Excluding a candidate that was open leaves fewer. -/
theorem countP_exclude_lt {x : Nat} (y : Nat) {excluded : List Nat}
    (hx : excluded.contains x = false) {l : List Nat} (h : x ∈ l) :
    l.countP (fun d => !(x :: y :: excluded).contains d) <
      l.countP fun d => !excluded.contains d := by
  obtain ⟨l₁, l₂, rfl⟩ := List.append_of_mem h
  have h₁ := countP_exclude_le x y excluded l₁
  have h₂ := countP_exclude_le x y excluded l₂
  rw [List.countP_append, List.countP_append, List.countP_cons_of_neg (by simp),
    List.countP_cons_of_pos (by rw [hx]; rfl)]
  omega

/-- A search for an intermediate leaves fewer open datums. -/
theorem openCount_lt (c : Catalog α) {source : Nat} (target : Nat) {excluded : List Nat}
    (hs : source < c.size) (he : excluded.contains source = false) :
    c.openCount (source :: target :: excluded) < c.openCount excluded := by
  simp only [openCount, ← List.countP_eq_length_filter]
  exact countP_exclude_lt target he (List.mem_range.2 hs)

theorem lt_size_of_get? {c : Catalog α} {id : Nat} {d : Datum α} (h : c.get? id = some d) :
    id < c.size :=
  (List.getElem?_eq_some_iff.1 h).1

/-! ## The search -/

variable [Angular α]

/-- The matrix from a source to a target, where no excluded datum is an end of a search for an
intermediate. -/
def resolveExcluding (c : Catalog α) (source target : Nat) (excluded : List Nat) :
    Except (TransformError α) (Option (DenseMatrix α)) :=
  match _hs : c.get? source, c.get? target with
  | some s, some t =>
    match s.shiftTo? target with
    | some p => .ok (some p.toMatrix)
    | none =>
      match t.shiftTo? source with
      | some p => p.toMatrix.inverse.map some
      | none =>
        -- An end that has been excluded has been searched from before.
        if _hx : excluded.contains source || excluded.contains target then .ok none
        else
          -- Both legs exclude the same ends, whatever the first leg has passed through.
          let branch := source :: target :: excluded
          firstResult (fun w => do
            match ← c.resolveExcluding source w branch with
            | none => return none
            | some first =>
              match ← c.resolveExcluding w target branch with
              | none => return none
              | some second => return some (← second.multiply first)) (intermediates s t)
  | _, _ => .ok none
termination_by c.openCount excluded
decreasing_by
  all_goals
    apply openCount_lt c target (lt_size_of_get? _hs)
    simp only [Bool.or_eq_true, not_or, Bool.not_eq_true] at _hx
    exact _hx.1

/-- The matrix from a source to a target. -/
def resolve (c : Catalog α) (source target : Nat) :
    Except (TransformError α) (Option (DenseMatrix α)) :=
  c.resolveExcluding source target []

/-- The transform of geocentric coordinates from a source to a target. -/
def resolveTransform (c : Catalog α) (source target : Nat) :
    Except (TransformError α) (Option (Transform α)) := do
  match ← c.resolve source target with
  | none => return none
  | some m => return some (← Transform.ofMatrix m)

end CoordTransform.Catalog
