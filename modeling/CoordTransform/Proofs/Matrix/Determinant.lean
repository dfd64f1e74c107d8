import Mathlib
import CoordTransform.Proofs.Matrix.Inverse

/-!
# Determinants in Exact Arithmetic

The determinant that is computed, by a closed form or by elimination, is the determinant of linear
algebra. For elimination this needs the choice of the pivots: a column is skipped only when nothing
but zeros are left in it, so that skipping it changes no factor.

From the determinants follows when there is an inverse. `exists_inverse_iff` says that a matrix
is inverted exactly when it is invertible: no test for a singular matrix is too strict.
-/

namespace CoordTransform.DenseMatrix

open Finset

variable {α : Type} [Scalar α] [Scalar.Exact α]

/-! ## Products and exchanges as matrices -/

theorem square_product {m n : DenseMatrix α} {k : Nat} (hrows : m.rows = k) (hinner : m.cols = k)
    (hcols : n.cols = k) : square k (m.product n) = square k m * square k n := by
  ext r c
  rw [Matrix.mul_apply, square_apply, entry_product (hrows ▸ r.isLt) (hcols ▸ c.isLt), hinner,
    sum_range]
  rfl

omit [Scalar.Exact α] in
theorem square_identity (k : Nat) : square k (identity k : DenseMatrix α) = 1 := by
  ext r c
  rw [square_apply, entry_identity r.isLt c.isLt, Matrix.one_apply]
  simp only [Fin.ext_iff]

omit [Scalar.Exact α] in
/-- Square matrices of one size are determined by their entries. -/
theorem eq_of_square_eq {m n : DenseMatrix α} {k : Nat} (hm : m.rows = k ∧ m.cols = k)
    (hn : n.rows = k ∧ n.cols = k) (h : square k m = square k n) : m = n := by
  refine ext_entry (hm.1.trans hn.1.symm) (hm.2.trans hn.2.symm) fun r c hr hc => ?_
  exact congrFun (congrFun h ⟨r, hm.1 ▸ hr⟩) ⟨c, hm.2 ▸ hc⟩

/-- Exchanging two rows negates the determinant. -/
theorem det_swapRows {m : DenseMatrix α} {n i j : Nat} (hrows : m.rows = n) (hcols : m.cols = n)
    (hi : i < n) (hj : j < n) (hne : i ≠ j) :
    (square n (m.swapRows i j)).det = -(square n m).det := by
  have hswap : square n (m.swapRows i j) =
      (square n m).submatrix (Equiv.swap ⟨i, hi⟩ ⟨j, hj⟩) id := by
    ext r c
    rw [square_apply, entry_swapRows (hrows ▸ r.isLt) (hcols ▸ c.isLt), Matrix.submatrix_apply,
      square_apply, Equiv.swap_apply_def, Equiv.swap_apply_def]
    simp only [Fin.ext_iff, id_eq]
    split_ifs <;> rfl
  rw [hswap, Matrix.det_permute, Equiv.Perm.sign_swap (by simpa using hne)]
  simp

/-- Each exchange of different rows negates the determinant once more. -/
theorem det_foldl_swapRows {xs : List (Nat × Nat)} {m : DenseMatrix α} {n : Nat}
    (hrows : m.rows = n) (hcols : m.cols = n)
    (hxs : ∀ x ∈ xs, (x.1 < n ∧ x.2 < n) ∧ x.1 ≠ x.2) :
    (square n (xs.foldl (fun b x => b.swapRows x.1 x.2) m)).det =
      (-1) ^ xs.length * (square n m).det := by
  induction xs generalizing m with
  | nil => simp
  | cons x xs ih =>
    obtain ⟨⟨hi, hj⟩, hne⟩ := hxs x List.mem_cons_self
    rw [List.foldl_cons, ih (m := m.swapRows x.1 x.2) hrows hcols fun y hy =>
      hxs y (List.mem_cons_of_mem x hy), det_swapRows hrows hcols hi hj hne, List.length_cons]
    ring

/-! ## Columns without a pivot -/

/-- A column whose entries below the diagonal are zero already is a column of the upper factor,
also when its diagonal is zero. -/
theorem Factors.skip {a f : DenseMatrix α} {i : Nat} (h : Factors a f i)
    (hzero : ∀ r, i ≤ r → r < f.rows → f.entry r i = 0) : Factors a f (i + 1) := by
  intro r hr c hc
  rw [h r hr c hc, sum_range_succ]
  by_cases hir : i < r
  · -- the new term has a multiplier of zero
    rw [hzero r (by omega) hr]
    rcases lt_trichotomy i c with hlt | rfl | hgt
    · simp [show ¬c < i by omega, show ¬c < i + 1 by omega]
    · simp [hir, hzero r (by omega) hr]
    · simp [hgt, show c < i + 1 by omega, show c < r by omega]
  · -- The row is at or above the new column, and the sum has no new term.
    have hlast : (c < i + 1 ∧ c < r) ↔ (c < i ∧ c < r) := by omega
    rw [if_congr hlast rfl rfl]
    simp [hir]

variable [Scalar.Definite α]

/-- When the entry chosen as a pivot is zero, so are all the entries that it was chosen from. -/
theorem column_eq_zero {m : DenseMatrix α} {i : Nat} (hpivot : m.entry (m.pivotRow i) i = 0) :
    ∀ r, i ≤ r → r < m.rows → m.entry r i = 0 := by
  -- The choice only ever moves to a greater absolute value.
  have hchoice : ∀ (rs : List Nat) (best : Nat), m.entry (rs.foldl (fun best r =>
      if Scalar.numLt (Scalar.abs (m.entry best i)) (Scalar.abs (m.entry r i)) then r else best)
        best) i = 0 → m.entry best i = 0 ∧ ∀ r ∈ rs, m.entry r i = 0 := by
    intro rs
    induction rs with
    | nil => exact fun best hbest => ⟨hbest, by simp⟩
    | cons r rs ih =>
      intro best hbest
      obtain ⟨hstep, hrest⟩ := ih _ hbest
      dsimp only at hstep
      split at hstep
      · next hlt =>
        rw [hstep, Scalar.Exact.abs_not_lt_zero] at hlt
        cases hlt
      · next hnlt =>
        have hr : m.entry r i = 0 := by
          by_contra hne
          rw [hstep] at hnlt
          exact hnlt (Scalar.Definite.abs_zero_lt hne)
        refine ⟨hstep, fun s hs => ?_⟩
        rcases List.mem_cons.1 hs with rfl | hs
        · exact hr
        · exact hrest s hs
  obtain ⟨hdiagonal, hbelow⟩ := hchoice _ _ hpivot
  intro r hir hr
  rcases Nat.eq_or_lt_of_le hir with rfl | hlt
  · exact hdiagonal
  · exact hbelow r (List.mem_range'_1.2 (by omega))

/-! ## Elimination -/

/-- The state of an elimination of `m` after the columns before `i`, whether or not they had
pivots. -/
structure Elimination.Factored (m : DenseMatrix α) (e : Elimination α) (i : Nat) : Prop where
  rows : e.factors.rows = m.rows
  cols : e.factors.cols = m.cols
  exchanges : ∀ x ∈ e.exchanges, (x.1 < m.rows ∧ x.2 < m.rows) ∧ x.1 ≠ x.2
  factors : Factors (e.exchanges.foldl (fun b x => b.swapRows x.1 x.2) m) e.factors i

omit [Scalar.Definite α] in
theorem Elimination.Factored.start (m : DenseMatrix α) : Elimination.Factored m ⟨m, []⟩ 0 where
  rows := rfl
  cols := rfl
  exchanges := by simp
  factors := fun r _ c _ => by simp

/-- One column of the elimination keeps the factorisation. -/
theorem Elimination.Factored.step {m : DenseMatrix α} {e : Elimination α} {i : Nat}
    (h : Factored m e i) (hi : i < m.rows) (hwide : m.rows ≤ m.cols) :
    Factored m (eliminateColumn e i) (i + 1) := by
  have hirows : i < e.factors.rows := h.rows ▸ hi
  have hfwide : e.factors.rows ≤ e.factors.cols := by rw [h.rows, h.cols]; exact hwide
  obtain ⟨hzero, hsame⟩ | ⟨xs, hxs, hpivot, hcolumn⟩ :=
    eliminateColumn_cases e hirows (by omega)
  · -- The column had no pivot and was left as it is.
    rw [hsame]
    exact ⟨h.rows, h.cols, h.exchanges, h.factors.skip (column_eq_zero hzero)⟩
  · -- The pivot is on the diagonal, perhaps after an exchange, and the column was reduced by it.
    rw [hcolumn]
    refine ⟨by simp [h.rows], by simp [h.cols], ?_, ?_⟩
    · intro x hx
      rcases List.mem_append.1 hx with hx | hx
      · exact h.exchanges x hx
      · obtain ⟨rfl, hlt, hp⟩ := hxs x hx
        exact ⟨⟨hi, h.rows ▸ hp⟩, ne_of_lt hlt⟩
    · rw [List.foldl_append]
      exact (h.factors.foldl_swapRows (by simp [h.rows]) (by simp [h.cols]) hirows hfwide hxs).step
        (by simpa) (by simpa) hpivot

theorem factored_eliminate {m : DenseMatrix α} (hwide : m.rows ≤ m.cols) :
    Elimination.Factored m m.eliminate m.rows :=
  eliminate_induction (.start m) fun _ _ hi h => h.step hi hwide

/-! ## Determinants -/

omit [Scalar.Definite α] in
theorem det_lowerFactor (n : Nat) (f : DenseMatrix α) : (lowerFactor n f).det = 1 := by
  rw [Matrix.det_of_isLowerTriangular (lowerFactor n f) fun r c hrc => ?_]
  · simp [lowerFactor]
  · have hlt : r.val < c.val := hrc
    rw [lowerFactor, Matrix.of_apply, if_neg (by omega), if_neg (by omega)]

omit [Scalar.Definite α] in
theorem det_upperFactor (n : Nat) (f : DenseMatrix α) :
    (upperFactor n f).det = ∏ k ∈ range n, f.entry k k := by
  have htriangular : (upperFactor n f).IsUpperTriangular := fun r c hrc => by
    have hlt : c.val < r.val := hrc
    rw [upperFactor_apply, if_neg (by omega)]
  rw [Matrix.det_of_isUpperTriangular htriangular, prod_range]
  simp [upperFactor]

omit [Scalar.Definite α] in
/-- The determinant of an elimination as a product. -/
theorem Elimination.determinant_eq (e : Elimination α) : e.determinant =
    (-1) ^ e.exchanges.length * ∏ k ∈ range e.factors.rows, e.factors.entry k k := by
  -- The diagonal is multiplied one by one, from the left.
  have hdiagonal : ∀ n, (List.range n).foldl (fun d i => d * e.factors.entry i i) 1 =
      ∏ k ∈ range n, e.factors.entry k k := by
    intro n
    induction n with
    | zero => rfl
    | succ n ih => rw [List.range_succ, List.foldl_append, ih, prod_range_succ]; rfl
  -- The sign is given by the parity of the number of exchanges.
  have hsign : (if e.exchanges.length % 2 == 0 then 1 else -1 : α) =
      (-1) ^ e.exchanges.length := by
    rcases Nat.even_or_odd e.exchanges.length with heven | hodd
    · rw [heven.neg_one_pow, if_pos (by simp [Nat.even_iff.1 heven])]
    · rw [hodd.neg_one_pow, if_neg (by simp [Nat.odd_iff.1 hodd])]
  simp only [Elimination.determinant]
  rw [hdiagonal, hsign, mul_comm]

/-- The determinant that elimination finds. -/
theorem determinant_eliminate {m : DenseMatrix α} (hsquare : m.rows = m.cols) :
    m.eliminate.determinant = (square m.rows m).det := by
  obtain ⟨hrows, hcols, hexchanges, hfactors⟩ := factored_eliminate (le_of_eq hsquare)
  have hexchanged := det_foldl_swapRows rfl hsquare.symm hexchanges
  rw [hfactors.square_eq hrows (hcols.trans hsquare.symm), Matrix.det_mul, det_lowerFactor,
    det_upperFactor, one_mul] at hexchanged
  rw [Elimination.determinant_eq, hrows, hexchanged, ← mul_assoc, ← pow_add, Even.neg_one_pow,
    one_mul]
  exact ⟨_, rfl⟩

omit [Scalar.Definite α] in
/-- The closed form for three rows. -/
theorem determinant3_eq (m : DenseMatrix α) : m.determinant3 = (square 3 m).det := by
  rw [Matrix.det_fin_three]
  simp only [square_apply, determinant3, minor2]
  simp
  ring

/-- Every form of the determinant gives the determinant. -/
theorem squareDeterminant_eq {m : DenseMatrix α} {n : Nat} (hrows : m.rows = n)
    (hcols : m.cols = n) : m.squareDeterminant = (square n m).det := by
  unfold squareDeterminant
  -- The forms up to three rows are the determinant written out, the last one is that of
  -- elimination.
  split
  · next h =>
    obtain rfl : n = 0 := hrows.symm.trans h
    exact Matrix.det_fin_zero.symm
  · next h =>
    obtain rfl : n = 1 := hrows.symm.trans h
    exact (Matrix.det_fin_one (square 1 m)).symm
  · next h =>
    obtain rfl : n = 2 := hrows.symm.trans h
    rw [Matrix.det_fin_two]
    simp only [square_apply, minor2]
    simp
    ring
  · next h =>
    obtain rfl : n = 3 := hrows.symm.trans h
    exact determinant3_eq m
  · subst hrows
    exact determinant_eliminate hcols.symm

omit [Scalar.Definite α] in
/-- The determinant that the inverse of four rows is computed with. -/
theorem adjugate4_det (m : DenseMatrix α) :
    m.entry 0 0 * m.adjugate4 0 0 + m.entry 1 0 * m.adjugate4 0 1 +
      m.entry 2 0 * m.adjugate4 0 2 + m.entry 3 0 * m.adjugate4 0 3 = (square 4 m).det := by
  rw [Matrix.det_succ_column_zero]
  simp [Fin.sum_univ_succ, Matrix.det_fin_three, adjugate4, others, Fin.succAbove]
  ring

/-! ## When there is an inverse -/

omit [Scalar.Definite α] in
/-- Elimination finds an inverse unless its determinant is zero. -/
theorem Elimination.exists_inverse? {e : Elimination α} (h : e.determinant ≠ 0) :
    ∃ x, e.inverse? = some x := by
  rw [Elimination.determinant_eq] at h
  have hdiagonal : ∀ k ∈ range e.factors.rows, e.factors.entry k k ≠ 0 :=
    prod_ne_zero_iff.1 (right_ne_zero_of_mul h)
  refine ⟨_, if_neg ?_⟩
  rw [List.any_eq_true]
  rintro ⟨k, hk, hzero⟩
  exact hdiagonal k (mem_range.2 (List.mem_range.1 hk)) ((Scalar.isZero_iff _).1 hzero)

/-- The form of the inverse for a size answers whenever the determinant is not zero. -/
theorem exists_squareInverse? {m : DenseMatrix α} {n : Nat} (hrows : m.rows = n)
    (hcols : m.cols = n) (hdet : m.squareDeterminant ≠ 0) : ∃ x, m.squareInverse? = some x := by
  -- Every form tests the determinant that belongs to it, but for the one of four rows.
  have hform := squareDeterminant_eq hrows hcols
  unfold squareDeterminant at hdet hform
  unfold squareInverse?
  split
  · exact ⟨m, rfl⟩
  · next h =>
    rw [h] at hdet
    exact ⟨_, if_neg (by simpa using hdet)⟩
  · next h =>
    rw [h] at hdet
    exact ⟨_, if_neg (by simpa using hdet)⟩
  · next h =>
    rw [h] at hdet
    exact ⟨_, if_neg (by simpa using hdet)⟩
  · next h =>
    rw [h] at hdet hform
    obtain rfl : n = 4 := hrows.symm.trans h
    refine ⟨_, if_neg ?_⟩
    rw [Scalar.isZero_iff, adjugate4_det, ← hform]
    exact hdet
  · next h₀ h₁ h₂ h₃ _ =>
    split at hdet
    · next h => exact absurd h h₀
    · next h => exact absurd h h₁
    · next h => exact absurd h h₂
    · next h => exact absurd h h₃
    · exact Elimination.exists_inverse? hdet

/-- A square matrix has an inverse exactly when its determinant is not zero. -/
theorem exists_inverse_iff {m : DenseMatrix α} {n : Nat} (hrows : m.rows = n)
    (hcols : m.cols = n) : (∃ x, m.inverse = .ok x) ↔ IsUnit (square n m) := by
  have hsquare : m.rows = m.cols := hrows.trans hcols.symm
  have hdeterminant : m.determinant = .ok m.squareDeterminant := if_pos (beq_iff_eq.2 hsquare)
  constructor
  · -- An inverse on one side is an inverse on the other one too.
    rintro ⟨x, hx⟩
    obtain ⟨-, hxrows, hxcols⟩ := shape_inverse hx
    rw [hrows] at hxrows hxcols
    have hproduct := congrArg (square n) (product_inverse hx)
    rw [hrows, square_product hxrows hxcols hcols, square_identity] at hproduct
    exact .of_mul_eq_one _ (mul_eq_one_comm.1 hproduct)
  · -- The determinant of a unit is not zero, and with that no form fails.
    intro hunit
    have hdet : m.squareDeterminant ≠ 0 := by
      rw [squareDeterminant_eq hrows hcols]
      exact ((Matrix.isUnit_iff_isUnit_det _).1 hunit).ne_zero
    obtain ⟨x, hx⟩ := exists_squareInverse? hrows hcols hdet
    refine ⟨x, ?_⟩
    unfold inverse
    rw [hdeterminant]
    dsimp only [bind, Except.bind]
    rw [if_neg (by simpa using hdet), hx]
    rfl

omit [Scalar.Definite α] in
/-- The inverse that is computed is the inverse. -/
theorem square_inverse {m x : DenseMatrix α} {n : Nat} (hrows : m.rows = n)
    (h : m.inverse = .ok x) : square n x = (square n m)⁻¹ := by
  obtain ⟨hsquare, hxrows, hxcols⟩ := shape_inverse h
  rw [hrows] at hxrows hxcols
  have hproduct := congrArg (square n) (product_inverse h)
  rw [hrows, square_product hxrows hxcols (hsquare.symm.trans hrows), square_identity] at hproduct
  exact (Matrix.inv_eq_left_inv hproduct).symm

end CoordTransform.DenseMatrix
