import Mathlib
import CoordTransform.DenseMatrix.Elimination
import CoordTransform.Proofs.Matrix.Algebra

/-!
# Elimination Factors a Matrix

Elimination keeps both triangular factors in one matrix. `Factors a f i` says that, after the
columns before `i`, multiplying the factors back gives the matrix `a` with its rows exchanged.
One column of the elimination takes `Factors a f i` to `Factors a f (i + 1)`, so that elimination
without a zero on the diagonal ends with a complete factorisation.

The two triangular solutions undo the two factors, column by column of the right-hand side.
-/

namespace CoordTransform.DenseMatrix

open Finset

variable {α : Type} [Scalar α]

/-! ## Shapes -/

@[simp] theorem rows_swapRows (m : DenseMatrix α) (i j : Nat) :
    (m.swapRows i j).rows = m.rows := rfl

@[simp] theorem cols_swapRows (m : DenseMatrix α) (i j : Nat) :
    (m.swapRows i j).cols = m.cols := rfl

@[simp] theorem rows_scaleColumn (m : DenseMatrix α) (i : Nat) :
    (m.scaleColumn i).rows = m.rows := rfl

@[simp] theorem cols_scaleColumn (m : DenseMatrix α) (i : Nat) :
    (m.scaleColumn i).cols = m.cols := rfl

@[simp] theorem rows_reduceBelow (m : DenseMatrix α) (i : Nat) :
    (m.reduceBelow i).rows = m.rows := rfl

@[simp] theorem cols_reduceBelow (m : DenseMatrix α) (i : Nat) :
    (m.reduceBelow i).cols = m.cols := rfl

@[simp] theorem rows_solveLowerStep (l b : DenseMatrix α) (i : Nat) :
    (solveLowerStep l b i).rows = b.rows := rfl

@[simp] theorem cols_solveLowerStep (l b : DenseMatrix α) (i : Nat) :
    (solveLowerStep l b i).cols = b.cols := rfl

@[simp] theorem rows_solveUpperStep (u b : DenseMatrix α) (i : Nat) :
    (solveUpperStep u b i).rows = b.rows := rfl

@[simp] theorem cols_solveUpperStep (u b : DenseMatrix α) (i : Nat) :
    (solveUpperStep u b i).cols = b.cols := rfl

/-! ## Exchanges of rows -/

theorem entry_swapRows {m : DenseMatrix α} {r c : Nat} (hr : r < m.rows) (hc : c < m.cols)
    (i j : Nat) : (m.swapRows i j).entry r c = m.entry (Equiv.swap i j r) c := by
  rw [swapRows, entry_ofFn _ hr hc, Equiv.swap_apply_def]
  simp only [beq_iff_eq]

/-- The rows that a list of exchanges, the earliest first, brings to each place. -/
def exchangedRow : List (Nat × Nat) → Equiv.Perm Nat
  | [] => Equiv.refl Nat
  | x :: xs => (exchangedRow xs).trans (Equiv.swap x.1 x.2)

theorem swap_lt {n i j r : Nat} (hi : i < n) (hj : j < n) (hr : r < n) :
    Equiv.swap i j r < n := by
  rw [Equiv.swap_apply_def]
  split_ifs <;> assumption

/-- Exchanges within a matrix keep its rows within it, in both directions. -/
theorem exchangedRow_lt {n : Nat} {xs : List (Nat × Nat)} (hxs : ∀ x ∈ xs, x.1 < n ∧ x.2 < n)
    {r : Nat} (hr : r < n) : exchangedRow xs r < n ∧ (exchangedRow xs).symm r < n := by
  induction xs generalizing r with
  | nil => exact ⟨hr, hr⟩
  | cons x xs ih =>
    obtain ⟨hi, hj⟩ := hxs x List.mem_cons_self
    have htail : ∀ x ∈ xs, x.1 < n ∧ x.2 < n := fun y hy => hxs y (List.mem_cons_of_mem x hy)
    constructor
    · exact swap_lt hi hj (ih htail hr).1
    · exact (ih htail (swap_lt hi hj hr)).2

@[simp] theorem rows_foldl_swapRows (xs : List (Nat × Nat)) (m : DenseMatrix α) :
    (xs.foldl (fun b x => b.swapRows x.1 x.2) m).rows = m.rows := by
  induction xs generalizing m with
  | nil => rfl
  | cons x xs ih => exact ih _

@[simp] theorem cols_foldl_swapRows (xs : List (Nat × Nat)) (m : DenseMatrix α) :
    (xs.foldl (fun b x => b.swapRows x.1 x.2) m).cols = m.cols := by
  induction xs generalizing m with
  | nil => rfl
  | cons x xs ih => exact ih _

theorem entry_foldl_swapRows {xs : List (Nat × Nat)} {m : DenseMatrix α}
    (hxs : ∀ x ∈ xs, x.1 < m.rows ∧ x.2 < m.rows) {r c : Nat} (hr : r < m.rows)
    (hc : c < m.cols) :
    (xs.foldl (fun b x => b.swapRows x.1 x.2) m).entry r c = m.entry (exchangedRow xs r) c := by
  induction xs generalizing m with
  | nil => rfl
  | cons x xs ih =>
    have htail : ∀ y ∈ xs, y.1 < m.rows ∧ y.2 < m.rows :=
      fun y hy => hxs y (List.mem_cons_of_mem x hy)
    rw [List.foldl_cons, ih (m := m.swapRows x.1 x.2) htail hr hc,
      entry_swapRows (exchangedRow_lt htail hr).1 hc]
    rfl

/-- Exchanges of row `i` with rows below it leave the rows before `i` in their places. -/
theorem exchangedRow_of_lt {xs : List (Nat × Nat)} {i k : Nat}
    (hxs : ∀ x ∈ xs, x.1 = i ∧ i < x.2) (hk : k < i) : exchangedRow xs k = k := by
  induction xs with
  | nil => rfl
  | cons x xs ih =>
    obtain ⟨hx, hlt⟩ := hxs x List.mem_cons_self
    rw [exchangedRow, Equiv.trans_apply, ih fun y hy => hxs y (List.mem_cons_of_mem x hy),
      Equiv.swap_apply_of_ne_of_ne (by omega) (by omega)]

variable [Scalar.Exact α]

/-! ## The pivot -/

/-- The pivot lies on or below the diagonal, and is zero only if the diagonal is. -/
theorem pivotRow_spec (m : DenseMatrix α) {i : Nat} (hi : i < m.rows) :
    (i ≤ m.pivotRow i ∧ m.pivotRow i < m.rows) ∧
      (m.entry i i ≠ 0 → m.entry (m.pivotRow i) i ≠ 0) := by
  unfold pivotRow
  refine List.foldlRecOn
    (motive := fun best => (i ≤ best ∧ best < m.rows) ∧ (m.entry i i ≠ 0 → m.entry best i ≠ 0))
    _ _ ⟨⟨le_refl i, hi⟩, id⟩ ?_
  intro best hbest r hr
  have hrange : i + 1 ≤ r ∧ r < m.rows := by
    rw [List.mem_range'_1] at hr
    omega
  split
  · next hlt =>
    refine ⟨⟨by omega, hrange.2⟩, fun _ hzero => ?_⟩
    -- a zero entry is never strictly the largest
    rw [hzero, Scalar.Exact.abs_not_lt_zero] at hlt
    cases hlt
  · exact hbest

/-- A column without a pivot stays as it is. Otherwise the pivot is brought to the diagonal, by one
exchange or none, before the rows below are reduced. -/
theorem eliminateColumn_cases (e : Elimination α) {i : Nat} (hi : i < e.factors.rows)
    (hic : i < e.factors.cols) :
    (e.factors.entry (e.factors.pivotRow i) i = 0 ∧ eliminateColumn e i = e) ∨
      ∃ xs : List (Nat × Nat), (∀ x ∈ xs, x.1 = i ∧ i < x.2 ∧ x.2 < e.factors.rows) ∧
        (xs.foldl (fun b x => b.swapRows x.1 x.2) e.factors).entry i i ≠ 0 ∧
        eliminateColumn e i = ⟨((xs.foldl (fun b x => b.swapRows x.1 x.2)
          e.factors).scaleColumn i).reduceBelow i, e.exchanges ++ xs⟩ := by
  obtain ⟨⟨hip, hp⟩, -⟩ := pivotRow_spec e.factors hi
  simp only [eliminateColumn]
  split
  · -- All of the column below the diagonal is zero.
    next hzero => exact .inl ⟨(Scalar.isZero_iff _).1 hzero, rfl⟩
  · next hpivot =>
    rw [Scalar.isZero_iff] at hpivot
    split
    · -- The largest entry is on the diagonal already.
      next hsame =>
      rw [eq_of_beq hsame] at hpivot
      exact .inr ⟨[], by simp, hpivot, by simp⟩
    · -- The rows of the largest entry and of the diagonal change places.
      next hother =>
      rw [beq_iff_eq] at hother
      refine .inr ⟨[(i, e.factors.pivotRow i)], ?_, ?_, rfl⟩
      · intro x hx
        rw [List.mem_singleton.1 hx]
        exact ⟨rfl, by dsimp only; omega, hp⟩
      · rwa [List.foldl_cons, List.foldl_nil, entry_swapRows hi hic, Equiv.swap_apply_left]

/-! ## One column of the elimination -/

/-- The entries after one column of the elimination with the pivot in place. -/
theorem entry_eliminated {g : DenseMatrix α} {i r c : Nat} (hi : i < g.rows) (hic : i < g.cols)
    (hr : r < g.rows) (hc : c < g.cols) :
    ((g.scaleColumn i).reduceBelow i).entry r c =
      if i < r then
        if c = i then g.entry r i / g.entry i i
        else if i < c then g.entry r c - g.entry r i / g.entry i i * g.entry i c
        else g.entry r c
      else g.entry r c := by
  -- Scaling comes first, so that the multipliers are in place when the rows are reduced.
  have hscaled : ∀ s < g.rows, ∀ d < g.cols, (g.scaleColumn i).entry s d =
      if i < s ∧ d = i then g.entry s i / g.entry i i else g.entry s d := by
    intro s hs d hd
    rw [scaleColumn, entry_ofFn _ hs hd]
    simp only [Bool.and_eq_true, decide_eq_true_eq, beq_iff_eq]
    split
    · next h => rw [h.2]; ring
    · rfl
  rw [reduceBelow, rows_scaleColumn, cols_scaleColumn, entry_ofFn _ hr hc, hscaled i hi c hc,
    hscaled r hr i hic, hscaled r hr c hc]
  simp only [Bool.and_eq_true, decide_eq_true_eq, lt_irrefl, false_and, if_false, and_true]
  -- Only rows below `i` change, and in them only the columns from `i` on.
  by_cases hir : i < r
  · rcases lt_trichotomy i c with hlt | heq | hgt
    · have hne : c ≠ i := by omega
      simp only [hir, hlt, hne, and_self, and_false, if_true, if_false]
      ring
    · subst heq
      simp [hir]
    · have hne : c ≠ i := by omega
      have hnlt : ¬i < c := by omega
      simp [hir, hne, hnlt]
  · simp [hir]

/-- After the columns before `i`, the factors kept in `f` multiply back to `a`: the multipliers
below the diagonal times the rows of the upper factor, and the rows that are still at work. -/
def Factors (a f : DenseMatrix α) (i : Nat) : Prop :=
  ∀ r < f.rows, ∀ c < f.cols, a.entry r c =
    (∑ k ∈ range i, if k < r ∧ k ≤ c then f.entry r k * f.entry k c else 0) +
      if c < i ∧ c < r then 0 else f.entry r c

/-- Exchanging two rows that are still at work exchanges them in the product. -/
theorem Factors.swapRows {a f : DenseMatrix α} {i p : Nat} (h : Factors a f i)
    (hrows : a.rows = f.rows) (hcols : a.cols = f.cols) (hi : i < f.rows) (hip : i ≤ p)
    (hp : p < f.rows) (hwide : f.rows ≤ f.cols) :
    Factors (a.swapRows i p) (f.swapRows i p) i := by
  intro r hr c hc
  rw [rows_swapRows] at hr
  rw [cols_swapRows] at hc
  have hr' : Equiv.swap i p r < f.rows := swap_lt hi hp hr
  -- rows before `i` stay, the others stay behind them
  have hlow : ∀ k < i, Equiv.swap i p k = k := fun k hk =>
    Equiv.swap_apply_of_ne_of_ne (by omega) (by omega)
  have hside : ∀ k < i, (k < Equiv.swap i p r ↔ k < r) := by
    intro k hk
    rw [Equiv.swap_apply_def]
    split_ifs <;> omega
  rw [entry_swapRows (hrows ▸ hr) (hcols ▸ hc), entry_swapRows hr hc, h _ hr' c hc]
  congr 1
  · refine sum_congr rfl fun k hk => ?_
    have hki : k < i := mem_range.1 hk
    rw [entry_swapRows hr (by omega), entry_swapRows (by omega) hc, hlow k hki]
    simp only [hside k hki]
  · by_cases hci : c < i
    · simp only [hci, true_and, hside c hci]
    · simp [hci]

theorem Factors.foldl_swapRows {xs : List (Nat × Nat)} {a f : DenseMatrix α} {i : Nat}
    (h : Factors a f i) (hrows : a.rows = f.rows) (hcols : a.cols = f.cols) (hi : i < f.rows)
    (hwide : f.rows ≤ f.cols) (hxs : ∀ x ∈ xs, x.1 = i ∧ i < x.2 ∧ x.2 < f.rows) :
    Factors (xs.foldl (fun b x => b.swapRows x.1 x.2) a)
      (xs.foldl (fun b x => b.swapRows x.1 x.2) f) i := by
  induction xs generalizing a f with
  | nil => exact h
  | cons x xs ih =>
    obtain ⟨hx, hlt, hp⟩ := hxs x List.mem_cons_self
    rw [List.foldl_cons, List.foldl_cons, hx]
    exact ih (h.swapRows hrows hcols hi (le_of_lt hlt) hp hwide) hrows hcols hi hwide
      fun y hy => hxs y (List.mem_cons_of_mem x hy)

/-- One column of the elimination moves one row into the upper factor. -/
theorem Factors.step {a f : DenseMatrix α} {i : Nat} (h : Factors a f i) (hi : i < f.rows)
    (hwide : f.rows ≤ f.cols) (hpivot : f.entry i i ≠ 0) :
    Factors a ((f.scaleColumn i).reduceBelow i) (i + 1) := by
  intro r hr c hc
  change r < f.rows at hr
  change c < f.cols at hc
  have hentry : ∀ s < f.rows, ∀ d < f.cols, _ := fun s hs d hd =>
    entry_eliminated hi (lt_of_lt_of_le hi hwide) hs hd
  -- The terms before `i` read entries that this column leaves alone.
  have hold : (∑ k ∈ range i, if k < r ∧ k ≤ c then
      ((f.scaleColumn i).reduceBelow i).entry r k * ((f.scaleColumn i).reduceBelow i).entry k c
        else 0) =
      ∑ k ∈ range i, if k < r ∧ k ≤ c then f.entry r k * f.entry k c else 0 := by
    refine sum_congr rfl fun k hk => ?_
    have hki : k < i := mem_range.1 hk
    rw [hentry r hr k (by omega), hentry k (by omega) c hc]
    simp [show k ≠ i by omega, show ¬i < k by omega]
  rw [h r hr c hc, sum_range_succ, hold, hentry r hr i (by omega), hentry i hi c hc,
    hentry r hr c hc]
  -- What a row below `i` gains by the term of index `i`, it loses in the last summand.
  by_cases hir : i < r
  · rcases lt_trichotomy i c with hlt | heq | hgt
    · simp [hir, hlt, le_of_lt hlt, show c ≠ i by omega, show ¬c < i by omega,
        show ¬c < i + 1 by omega]
    · subst heq
      simp [hir, hpivot]
    · simp [hir, hgt, show ¬i ≤ c by omega, show c < i + 1 by omega, show c < r by omega]
  · have hlast : (c < i + 1 ∧ c < r) ↔ (c < i ∧ c < r) := by omega
    rw [if_congr hlast rfl rfl]
    simp [hir]

/-! ## The whole elimination -/

/-- The state of an elimination of `m` after the columns before `i`. The factorisation is claimed
only while no pivot is zero. -/
structure Elimination.Reached (m : DenseMatrix α) (e : Elimination α) (i : Nat) : Prop where
  rows : e.factors.rows = m.rows
  cols : e.factors.cols = m.cols
  exchanges : ∀ x ∈ e.exchanges, x.1 < m.rows ∧ x.2 < m.rows
  factors : (∀ k < i, e.factors.entry k k ≠ 0) →
    Factors (e.exchanges.foldl (fun b x => b.swapRows x.1 x.2) m) e.factors i

theorem Elimination.Reached.start (m : DenseMatrix α) : Elimination.Reached m ⟨m, []⟩ 0 where
  rows := rfl
  cols := rfl
  exchanges := by simp
  factors _ := fun r _ c _ => by simp

/-- One column of the elimination, with a pivot or without. -/
theorem Elimination.Reached.step {m : DenseMatrix α} {e : Elimination α} {i : Nat}
    (h : Reached m e i) (hi : i < m.rows) (hwide : m.rows ≤ m.cols) :
    Reached m (eliminateColumn e i) (i + 1) := by
  have hirows : i < e.factors.rows := h.rows ▸ hi
  have hfwide : e.factors.rows ≤ e.factors.cols := by rw [h.rows, h.cols]; exact hwide
  obtain ⟨hzero, hsame⟩ | ⟨xs, hxs, hpivot, hcolumn⟩ :=
    eliminateColumn_cases e hirows (by omega)
  · rw [hsame]
    -- a column without a pivot has a zero on the diagonal for good
    refine ⟨h.rows, h.cols, h.exchanges, fun hdiag => absurd (hdiag i (by omega)) ?_⟩
    exact fun hne => (pivotRow_spec e.factors hirows).2 hne hzero
  · rw [hcolumn]
    refine ⟨by simp [h.rows], by simp [h.cols], ?_, fun hdiag => ?_⟩
    · intro x hx
      rcases List.mem_append.1 hx with hx | hx
      · exact h.exchanges x hx
      · obtain ⟨rfl, -, hp⟩ := hxs x hx
        exact ⟨hi, h.rows ▸ hp⟩
    · rw [List.foldl_append]
      refine Factors.step ?_ (by simpa) (by simpa) hpivot
      refine Factors.foldl_swapRows (h.factors fun k hk => ?_) (by simp [h.rows]) (by simp [h.cols])
        hirows hfwide hxs
      -- The diagonal before `i` is the same before and after this column.
      have hdiagonal := hdiag k (by omega)
      rwa [entry_eliminated (by simpa) (by simp; omega) (by simp; omega) (by simp; omega),
        if_neg (by omega), entry_foldl_swapRows (fun x hx => by have := hxs x hx; omega) (by omega)
        (by omega), exchangedRow_of_lt (fun x hx => ⟨(hxs x hx).1, (hxs x hx).2.1⟩) hk] at hdiagonal

omit [Scalar.Exact α] in
/-- What holds at first and is kept by every column holds after the elimination. -/
theorem eliminate_induction {m : DenseMatrix α} {P : Elimination α → Nat → Prop}
    (hstart : P ⟨m, []⟩ 0)
    (hstep : ∀ e, ∀ i < m.rows, P e i → P (eliminateColumn e i) (i + 1)) :
    P m.eliminate m.rows := by
  have hrun : ∀ i ≤ m.rows, P ((List.range i).foldl eliminateColumn ⟨m, []⟩) i := by
    intro i
    induction i with
    | zero => exact fun _ => hstart
    | succ i ih =>
      intro hi
      rw [List.range_succ, List.foldl_append]
      exact hstep _ i (by omega) (ih (by omega))
  exact hrun m.rows le_rfl

/-- Elimination of a square matrix without a zero on the final diagonal is a factorisation. -/
theorem factors_eliminate {m : DenseMatrix α} (hwide : m.rows ≤ m.cols) :
    Elimination.Reached m m.eliminate m.rows :=
  eliminate_induction (.start m) fun _ _ hi h => h.step hi hwide

end CoordTransform.DenseMatrix
