import Mathlib
import CoordTransform.Proofs.Matrix.Elimination

/-!
# Inverses by Elimination

The inverse is found column by column of the identity: first with the lower factor, from the top,
then with the upper factor, from the bottom. `solveLower_sum` and `solveUpper_sum` say that the
two solutions undo the two factors. Together with the factorisation they give
`product_of_eliminate_inverse?`: what elimination answers is an inverse.
-/

namespace CoordTransform.DenseMatrix

open Finset

variable {α : Type} [Scalar α]

/-! ## Shapes of solutions -/

@[simp] theorem rows_foldl_solveLowerStep (l : DenseMatrix α) (is : List Nat)
    (b : DenseMatrix α) : (is.foldl (solveLowerStep l) b).rows = b.rows := by
  induction is generalizing b with
  | nil => rfl
  | cons i is ih => exact ih _

@[simp] theorem cols_foldl_solveLowerStep (l : DenseMatrix α) (is : List Nat)
    (b : DenseMatrix α) : (is.foldl (solveLowerStep l) b).cols = b.cols := by
  induction is generalizing b with
  | nil => rfl
  | cons i is ih => exact ih _

@[simp] theorem rows_foldr_solveUpperStep (u : DenseMatrix α) (is : List Nat)
    (b : DenseMatrix α) : (is.foldr (fun i b => solveUpperStep u b i) b).rows = b.rows := by
  induction is with
  | nil => rfl
  | cons i is ih => exact ih

@[simp] theorem cols_foldr_solveUpperStep (u : DenseMatrix α) (is : List Nat)
    (b : DenseMatrix α) : (is.foldr (fun i b => solveUpperStep u b i) b).cols = b.cols := by
  induction is with
  | nil => rfl
  | cons i is ih => exact ih

theorem rows_eliminateColumn (e : Elimination α) (i : Nat) :
    (eliminateColumn e i).factors.rows = e.factors.rows := by
  simp only [eliminateColumn]
  split
  · rfl
  · split <;> rfl

theorem rows_eliminate (m : DenseMatrix α) : m.eliminate.factors.rows = m.rows := by
  unfold eliminate
  exact List.foldlRecOn (motive := fun e : Elimination α => e.factors.rows = m.rows) _ _ rfl
    fun e he i _ => (rows_eliminateColumn e i).trans he

theorem shape_inverse? {x : DenseMatrix α} {e : Elimination α} (h : e.inverse? = some x) :
    x.rows = e.factors.rows ∧ x.cols = e.factors.rows := by
  simp only [Elimination.inverse?] at h
  split at h
  · cases h
  · cases h
    rw [List.foldl_reverse]
    simp

variable [Scalar.Exact α]

/-! ## The lower factor -/

/-- The lower factor, with ones on its diagonal, applied to the solution so far. -/
theorem solveLower_stage (l b : DenseMatrix α) {i : Nat} (hi : i ≤ b.rows) {r c : Nat}
    (hr : r < b.rows) (hc : c < b.cols) :
    b.entry r c =
      (∑ k ∈ range i, if k < r then
        l.entry r k * ((List.range i).foldl (solveLowerStep l) b).entry k c else 0) +
        ((List.range i).foldl (solveLowerStep l) b).entry r c := by
  induction i generalizing r with
  | zero => simp
  | succ i ih =>
    rw [List.range_succ, List.foldl_append, List.foldl_cons, List.foldl_nil]
    set s := (List.range i).foldl (solveLowerStep l) b with hs
    have hrows : s.rows = b.rows := by simp [hs]
    have hcols : s.cols = b.cols := by simp [hs]
    have hentry : ∀ k < b.rows, (solveLowerStep l s i).entry k c =
        if i < k then -s.entry i c * l.entry k i + s.entry k c else s.entry k c := fun k hk =>
      entry_ofFn _ (hrows ▸ hk) (hcols ▸ hc)
    have hold : (∑ k ∈ range i, if k < r then l.entry r k * (solveLowerStep l s i).entry k c
        else 0) = ∑ k ∈ range i, if k < r then l.entry r k * s.entry k c else 0 := by
      refine sum_congr rfl fun k hk => ?_
      have hki : k < i := mem_range.1 hk
      rw [hentry k (by omega), if_neg (show ¬i < k by omega)]
    rw [ih (by omega) hr, sum_range_succ, hold, hentry r hr, hentry i (by omega)]
    -- What the step takes from a row below `i` is the new term of the sum.
    by_cases hir : i < r
    · simp only [hir, if_true, lt_irrefl, if_false]
      ring
    · simp [hir]

theorem solveLower_sum (l b : DenseMatrix α) {r c : Nat} (hr : r < b.rows) (hc : c < b.cols) :
    b.entry r c =
      (∑ k ∈ range b.rows, if k < r then
        l.entry r k * ((List.range (b.rows - 1)).foldl (solveLowerStep l) b).entry k c else 0) +
        ((List.range (b.rows - 1)).foldl (solveLowerStep l) b).entry r c := by
  obtain ⟨n, hn⟩ : ∃ n, b.rows = n + 1 := ⟨b.rows - 1, by omega⟩
  -- the last row has no entry below it to clear
  rw [solveLower_stage l b (i := b.rows - 1) (by omega) hr hc, hn, Nat.add_sub_cancel,
    sum_range_succ, if_neg (show ¬n < r by omega), add_zero]

/-! ## The upper factor -/

/-- The upper factor applied to the solution so far, where the rows from `j` on are solved. -/
theorem solveUpper_stage (u y : DenseMatrix α) (hdiag : ∀ k < y.rows, u.entry k k ≠ 0) (m : Nat)
    {j : Nat} (hj : j + m = y.rows) {r c : Nat} (hr : r < y.rows) (hc : c < y.cols) :
    y.entry r c =
      (if r < j then
        ((List.range' j m).foldr (fun i b => solveUpperStep u b i) y).entry r c else 0) +
      ∑ k ∈ Ico j y.rows, if r ≤ k then
        u.entry r k * ((List.range' j m).foldr (fun i b => solveUpperStep u b i) y).entry k c
          else 0 := by
  induction m generalizing j r with
  | zero =>
    have hlast : j = y.rows := by omega
    subst hlast
    simp [hr]
  | succ m ih =>
    rw [List.range'_succ, List.foldr_cons]
    -- The rows below `j` are solved; the step solves row `j` and clears its column above.
    set s := (List.range' (j + 1) m).foldr (fun i b => solveUpperStep u b i) y with hs
    have hrows : s.rows = y.rows := by simp [hs]
    have hcols : s.cols = y.cols := by simp [hs]
    have hentry : ∀ k < y.rows, (solveUpperStep u s j).entry k c =
        if k = j then s.entry j c / u.entry j j
        else if k < j then -(s.entry j c / u.entry j j) * u.entry k j + s.entry k c
        else s.entry k c := by
      intro k hk
      rw [solveUpperStep, entry_ofFn _ (hrows ▸ hk) (hcols ▸ hc)]
      simp only [beq_iff_eq]
    have hold : (∑ k ∈ Ico (j + 1) y.rows, if r ≤ k then
        u.entry r k * (solveUpperStep u s j).entry k c else 0) =
        ∑ k ∈ Ico (j + 1) y.rows, if r ≤ k then u.entry r k * s.entry k c else 0 := by
      refine sum_congr rfl fun k hk => ?_
      obtain ⟨hjk, hk⟩ := mem_Ico.1 hk
      rw [hentry k hk, if_neg (show k ≠ j by omega), if_neg (show ¬k < j by omega)]
    have hjrows : j < y.rows := by omega
    have hpivot := hdiag j hjrows
    rw [ih (j := j + 1) (by omega) hr, ← hs, sum_eq_sum_Ico_succ_bot hjrows, hold, hentry r hr,
      hentry j hjrows]
    rcases lt_trichotomy r j with hlt | heq | hgt
    · simp only [hlt, le_of_lt hlt, show r < j + 1 by omega, show r ≠ j by omega, if_true,
        if_false]
      ring
    · subst heq
      simp only [lt_irrefl, le_refl, show r < r + 1 by omega, if_true, if_false]
      field_simp
      ring
    · simp [show ¬r < j by omega, show ¬r < j + 1 by omega, show ¬r ≤ j by omega]

theorem solveUpper_sum (u y : DenseMatrix α) (hdiag : ∀ k < y.rows, u.entry k k ≠ 0) {r c : Nat}
    (hr : r < y.rows) (hc : c < y.cols) :
    y.entry r c = ∑ k ∈ range y.rows, if r ≤ k then
      u.entry r k * ((List.range y.rows).reverse.foldl (solveUpperStep u) y).entry k c else 0 := by
  have hstage := solveUpper_stage u y hdiag y.rows (j := 0) (by omega) hr hc
  rw [List.foldl_reverse, List.range_eq_range', range_eq_Ico]
  simpa using hstage

/-! ## Factors as matrices -/

/-- The first `n` rows and columns as a matrix in the sense of linear algebra. -/
def square (n : Nat) (m : DenseMatrix α) : Matrix (Fin n) (Fin n) α :=
  Matrix.of fun r c => m.entry r c

omit [Scalar.Exact α] in
@[simp] theorem square_apply (n : Nat) (m : DenseMatrix α) (r c : Fin n) :
    square n m r c = m.entry r c := rfl

/-- The lower factor that `f` keeps below its diagonal. -/
def lowerFactor (n : Nat) (f : DenseMatrix α) : Matrix (Fin n) (Fin n) α :=
  Matrix.of fun r c => if c.val < r.val then f.entry r c else if c.val = r.val then 1 else 0

/-- The upper factor that `f` keeps on and above its diagonal. -/
def upperFactor (n : Nat) (f : DenseMatrix α) : Matrix (Fin n) (Fin n) α :=
  Matrix.of fun r c => if r.val ≤ c.val then f.entry r c else 0

omit [Scalar.Exact α] in
theorem upperFactor_apply (n : Nat) (f : DenseMatrix α) (r c : Fin n) :
    upperFactor n f r c = if r.val ≤ c.val then f.entry r c else 0 := rfl

/-- A row of the lower factor takes the rows above it, weighted, and the row itself. -/
theorem sum_lowerFactor (n : Nat) (f : DenseMatrix α) (r : Fin n) (v : Nat → α) :
    ∑ k : Fin n, lowerFactor n f r k * v k =
      (∑ k ∈ range n, if k < r.val then f.entry r k * v k else 0) + v r := by
  -- Entries below the diagonal and the one on it, in separate sums.
  have hterm : ∀ k : Fin n, lowerFactor n f r k * v k =
      (if k.val < r.val then f.entry r k * v k else 0) + if k = r then v k else 0 := by
    intro k
    rw [lowerFactor, Matrix.of_apply]
    by_cases hlt : k.val < r.val
    · simp [hlt, show k ≠ r from fun h => by simp [h] at hlt]
    · by_cases heq : k = r
      · simp [heq]
      · simp [hlt, heq, show k.val ≠ r.val from fun h => heq (Fin.ext h)]
  rw [sum_congr rfl fun k _ => hterm k, sum_add_distrib, sum_ite_eq' univ r,
    if_pos (mem_univ r), sum_range]

/-- A complete factorisation is a product of matrices. -/
theorem Factors.square_eq {a f : DenseMatrix α} {n : Nat} (h : Factors a f n)
    (hrows : f.rows = n) (hcols : f.cols = n) :
    square n a = lowerFactor n f * upperFactor n f := by
  ext r c
  rw [Matrix.mul_apply, sum_congr rfl fun k _ => by rw [upperFactor_apply n f k c],
    sum_lowerFactor n f r fun k => if k ≤ c.val then f.entry k c else 0, square_apply,
    h r (hrows ▸ r.isLt) c (hcols ▸ c.isLt)]
  congr 1
  · refine sum_congr rfl fun k _ => ?_
    by_cases hkr : k < r.val <;> by_cases hkc : k ≤ c.val <;> simp [hkr, hkc]
  · by_cases hcr : c.val < r.val
    · simp [hcr, show ¬r.val ≤ c.val by omega]
    · simp [hcr, show r.val ≤ c.val by omega]

/-! ## The inverse -/

/-- What is known of an answer of elimination: no zero on the diagonal, and the two solutions. -/
theorem eq_of_inverse? {e : Elimination α} {x : DenseMatrix α} (h : e.inverse? = some x) :
    (∀ k < e.factors.rows, e.factors.entry k k ≠ 0) ∧
      x = (List.range e.factors.rows).reverse.foldl (solveUpperStep e.factors)
        ((List.range (e.factors.rows - 1)).foldl (solveLowerStep e.factors)
          (e.exchanges.foldl (fun b x => b.swapRows x.1 x.2) (identity e.factors.rows))) := by
  simp only [Elimination.inverse?] at h
  split at h
  · cases h
  · next hany =>
    cases h
    refine ⟨fun k hk hzero => hany ?_, rfl⟩
    rw [List.any_eq_true]
    exact ⟨k, List.mem_range.2 hk, by rw [hzero, Scalar.isZero_iff]⟩

/-- The lower and then the upper solution of a right-hand side undo the factors. -/
theorem factors_mul_solution {f b : DenseMatrix α} {n : Nat} (hrows : b.rows = n)
    (hcols : b.cols = n) (hdiag : ∀ k < n, f.entry k k ≠ 0) :
    lowerFactor n f * (upperFactor n f * square n ((List.range n).reverse.foldl
      (solveUpperStep f) ((List.range (n - 1)).foldl (solveLowerStep f) b))) = square n b := by
  set y := (List.range (n - 1)).foldl (solveLowerStep f) b with hy
  have hyrows : y.rows = n := by simp [hy, hrows]
  have hycols : y.cols = n := by simp [hy, hcols]
  -- The upper factor takes the solution back to `y`, the lower factor takes `y` back to `b`.
  have hupper : upperFactor n f * square n ((List.range n).reverse.foldl (solveUpperStep f) y) =
      square n y := by
    ext r c
    have hr := r.isLt
    have hc := c.isLt
    have hsum := solveUpper_sum f y (hyrows.symm ▸ hdiag) (r := r) (c := c) (by omega) (by omega)
    rw [hyrows, sum_range] at hsum
    rw [Matrix.mul_apply, square_apply, hsum]
    refine sum_congr rfl fun k _ => ?_
    rw [upperFactor_apply, square_apply]
    split <;> simp
  rw [hupper]
  ext r c
  have hr := r.isLt
  have hc := c.isLt
  have hsum := solveLower_sum f b (r := r) (c := c) (by omega) (by omega)
  rw [hrows, ← hy] at hsum
  exact (sum_lowerFactor n f r fun k => y.entry k c).trans hsum.symm

/-- Exchanging the rows of both sides alike changes no equation between them. -/
theorem mul_eq_one_of_exchanged {m x : DenseMatrix α} {n : Nat} {xs : List (Nat × Nat)}
    (hrows : m.rows = n) (hcols : m.cols = n) (hxs : ∀ x ∈ xs, x.1 < n ∧ x.2 < n)
    (h : square n (xs.foldl (fun b x => b.swapRows x.1 x.2) m) * square n x =
      square n (xs.foldl (fun b x => b.swapRows x.1 x.2) (identity n))) :
    square n m * square n x = 1 := by
  ext r c
  obtain ⟨-, hback⟩ := exchangedRow_lt hxs r.isLt
  -- Row `r` is found, on both sides, at the place that the exchanges have given it.
  have hplace : exchangedRow xs ((exchangedRow xs).symm r) = r := Equiv.apply_symm_apply _ _
  have hentry := congrFun (congrFun h ⟨(exchangedRow xs).symm r, hback⟩) c
  have hrow : ∀ k : Fin n, square n (xs.foldl (fun b x => b.swapRows x.1 x.2) m)
      ⟨(exchangedRow xs).symm r, hback⟩ k = square n m r k := by
    intro k
    rw [square_apply, square_apply, entry_foldl_swapRows (hrows ▸ hxs)
      (hrows ▸ hback) (hcols ▸ k.isLt), hplace]
  have hone : square n (xs.foldl (fun b x => b.swapRows x.1 x.2) (identity n))
      ⟨(exchangedRow xs).symm r, hback⟩ c = (1 : Matrix (Fin n) (Fin n) α) r c := by
    rw [square_apply, entry_foldl_swapRows (m := identity n) hxs hback c.isLt, hplace,
      entry_identity r.isLt c.isLt, Matrix.one_apply]
    simp only [Fin.ext_iff]
  rw [Matrix.mul_apply, hone] at hentry
  rw [Matrix.mul_apply, ← hentry]
  exact sum_congr rfl fun k _ => by rw [hrow k]

/-- What elimination answers for a square matrix is an inverse. -/
theorem mul_eliminate_inverse? {m x : DenseMatrix α} (hsquare : m.rows = m.cols)
    (h : m.eliminate.inverse? = some x) : square m.rows m * square m.rows x = 1 := by
  obtain ⟨hrows, hcols, hexchanges, hfactors⟩ := factors_eliminate (le_of_eq hsquare)
  obtain ⟨hdiag, hx⟩ := eq_of_inverse? h
  rw [hrows] at hdiag hx
  refine mul_eq_one_of_exchanged rfl hsquare.symm hexchanges ?_
  rw [(hfactors hdiag).square_eq hrows (hcols.trans hsquare.symm), Matrix.mul_assoc, hx]
  exact factors_mul_solution (by simp) (by simp) hdiag

end CoordTransform.DenseMatrix
