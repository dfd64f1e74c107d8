import Mathlib
import CoordTransform.Proofs.Double.Range
import CoordTransform.Proofs.Matrix.Inverse
import CoordTransform.Scalar.Double

/-!
# When Inverse Matrices Are Finite

A matrix is inverted when its determinant is finite and not zero. This leaves the last operation on
each entry of the inverse open: up to three rows and from five rows on it is a division by the
determinant or by a pivot, with four rows a multiplication with the reciprocal of a determinant.
Each of them may overflow. `InverseFits` says that none does.
-/

namespace CoordTransform.DenseMatrix

open Double (FitsProduct FitsQuotient)

/-! ## Closed forms -/

/-- The numerators of the inverse of a 2x2 matrix. -/
def adjugate2 {α : Type} [Scalar α] (m : DenseMatrix α) (r c : Nat) : α :=
  match r, c with
  | 0, 0 => m.entry 1 1
  | 0, _ => -m.entry 0 1
  | _, 0 => -m.entry 1 0
  | _, _ => m.entry 0 0

/-- The numerators of the inverse of a 3x3 matrix. -/
def adjugate3 {α : Type} [Scalar α] (m : DenseMatrix α) (r c : Nat) : α :=
  match r, c with
  | 0, 0 => m.minor2 1 2 1 2
  | 0, 1 => m.entry 0 2 * m.entry 2 1 - m.entry 2 2 * m.entry 0 1
  | 0, _ => m.entry 0 1 * m.entry 1 2 - m.entry 1 1 * m.entry 0 2
  | 1, 0 => -m.minor2 1 2 0 2
  | 1, 1 => m.entry 0 0 * m.entry 2 2 - m.entry 2 0 * m.entry 0 2
  | 1, _ => m.entry 0 2 * m.entry 1 0 - m.entry 1 2 * m.entry 0 0
  | _, 0 => m.minor2 1 2 0 1
  | _, 1 => m.entry 0 1 * m.entry 2 0 - m.entry 2 1 * m.entry 0 0
  | _, _ => m.entry 0 0 * m.entry 1 1 - m.entry 1 0 * m.entry 0 1

/-- The determinant of a 4x4 matrix along its first column. -/
def determinant4 {α : Type} [Scalar α] (m : DenseMatrix α) : α :=
  m.entry 0 0 * m.adjugate4 0 0 + m.entry 1 0 * m.adjugate4 0 1 +
    m.entry 2 0 * m.adjugate4 0 2 + m.entry 3 0 * m.adjugate4 0 3

section

variable {α : Type} [Scalar α] {m n : DenseMatrix α}

theorem inverse2?_eq (m : DenseMatrix α) :
    m.inverse2? = dividedBy? (m.minor2 0 1 0 1) 2 m.adjugate2 := rfl

theorem inverse3?_eq (m : DenseMatrix α) :
    m.inverse3? = dividedBy? m.determinant3 3 m.adjugate3 := rfl

theorem inverse4?_eq_some (h : m.inverse4? = some n) :
    n = ofFn 4 4 fun r c => m.adjugate4 r c * (1 / m.determinant4) := by
  unfold inverse4? at h
  dsimp only at h
  split at h
  · cases h
  · cases h
    rfl

/-! ## Back substitution -/

/-- The right-hand sides when row `i` is about to be solved. -/
def Elimination.rightSide (e : Elimination α) (i : Nat) : DenseMatrix α :=
  let n := e.factors.rows
  let permuted := e.exchanges.foldl (fun b x => b.swapRows x.1 x.2) (identity n)
  let forward := (List.range (n - 1)).foldl (solveLowerStep e.factors) permuted
  (List.range' (i + 1) (n - (i + 1))).foldr (fun k b => solveUpperStep e.factors b k) forward

theorem rows_rightSide (e : Elimination α) (i : Nat) :
    (e.rightSide i).rows = e.factors.rows ∧ (e.rightSide i).cols = e.factors.rows := by
  simp [Elimination.rightSide]

/-- A row that is solved is not changed by the rows above it. -/
theorem entry_foldr_solveUpperStep (u : DenseMatrix α) {is : List Nat} {b : DenseMatrix α}
    {r c : Nat} (his : ∀ k ∈ is, k < r) (hr : r < b.rows) (hc : c < b.cols) :
    (is.foldr (fun k b => solveUpperStep u b k) b).entry r c = b.entry r c := by
  induction is with
  | nil => rfl
  | cons k is ih =>
    have hk := his k List.mem_cons_self
    rw [List.foldr_cons, solveUpperStep, entry_ofFn _ (by simpa) (by simpa)]
    rw [if_neg (by simpa using hk.ne'), if_neg (by omega)]
    exact ih fun j hj => his j (List.mem_cons_of_mem k hj)

/-- Each entry of the inverse is a quotient by the pivot of its row. -/
theorem entry_of_inverse? {e : Elimination α} {x : DenseMatrix α} (h : e.inverse? = some x)
    {r c : Nat} (hr : r < e.factors.rows) (hc : c < e.factors.rows) :
    x.entry r c = (e.rightSide r).entry r c / e.factors.entry r r := by
  -- Rows are solved from the last one on: `r` comes behind the larger ones and before the smaller.
  have hsplit : List.range e.factors.rows =
      List.range r ++ r :: List.range' (r + 1) (e.factors.rows - (r + 1)) :=
    calc List.range e.factors.rows = List.range' 0 (r + (e.factors.rows - (r + 1) + 1)) := by
          rw [List.range_eq_range']
          congr 1
          omega
      _ = List.range' 0 r ++ List.range' (0 + r) (e.factors.rows - (r + 1) + 1) :=
          List.range'_append_1.symm
      _ = _ := by rw [Nat.zero_add, List.range'_succ, List.range_eq_range']
  unfold Elimination.inverse? at h
  dsimp only at h
  split at h
  · cases h
  · cases h
    obtain ⟨hrows, hcols⟩ := rows_rightSide e r
    rw [List.foldl_reverse, hsplit, List.foldr_append, List.foldr_cons]
    -- The steps behind the one for row `r` do not write to this row.
    change ((List.range r).foldr _ (solveUpperStep e.factors (e.rightSide r) r)).entry r c = _
    rw [entry_foldr_solveUpperStep _ (by simp) (by simpa [hrows]) (by simpa [hcols]),
      solveUpperStep, entry_ofFn _ (by rwa [hrows]) (by rwa [hcols])]
    simp

end

/-! ## Finite matrices -/

/-- All entries are finite. -/
def IsFinite (m : DenseMatrix Float) : Prop :=
  ∀ r < m.rows, ∀ c < m.cols, (m.entry r c).isFinite = true

instance (m : DenseMatrix Float) : Decidable m.IsFinite :=
  inferInstanceAs (Decidable (∀ r < m.rows, ∀ c < m.cols, (m.entry r c).isFinite = true))

/-- The operation that ends the computation of an entry of the inverse does not overflow. -/
def EntryFits (m : DenseMatrix Float) (r c : Nat) : Prop :=
  match m.rows with
  | 0 | 1 => FitsQuotient 1 (m.entry 0 0)
  | 2 => FitsQuotient (m.adjugate2 r c) (m.minor2 0 1 0 1)
  | 3 => FitsQuotient (m.adjugate3 r c) m.determinant3
  | 4 => FitsProduct (m.adjugate4 r c) (1 / m.determinant4)
  | _ => FitsQuotient ((m.eliminate.rightSide r).entry r c) (m.eliminate.factors.entry r r)

/-- No entry of the inverse overflows in the operation that ends its computation. -/
def InverseFits (m : DenseMatrix Float) : Prop := ∀ r < m.rows, ∀ c < m.rows, m.EntryFits r c

/-- A product of which every partial product is taken up is finite only if all factors are. -/
theorem isFinite_of_foldl_mul {f : Nat → Float} {is : List Nat} {x : Float}
    (h : (is.foldl (fun d i => d * f i) x).isFinite = true) :
    x.isFinite = true ∧ ∀ i ∈ is, (f i).isFinite = true := by
  induction is generalizing x with
  | nil => exact ⟨h, by simp⟩
  | cons i is ih =>
    obtain ⟨hproduct, hrest⟩ := ih h
    obtain ⟨hx, hi⟩ := Double.isFinite_of_mul hproduct
    exact ⟨hx, List.forall_mem_cons.2 ⟨hi, hrest⟩⟩

/-- The pivots of an elimination with a finite determinant are finite. -/
theorem isFinite_pivot {e : Elimination Float} (h : e.determinant.isFinite = true) {r : Nat}
    (hr : r < e.factors.rows) : (e.factors.entry r r).isFinite = true := by
  unfold Elimination.determinant at h
  exact (isFinite_of_foldl_mul (Double.isFinite_of_mul h).1).2 r (List.mem_range.2 hr)

variable {m n : DenseMatrix Float}

/-- The determinant of a matrix that has an inverse is finite. -/
theorem isFinite_determinant (h : m.inverse = .ok n) : m.squareDeterminant.isFinite = true := by
  obtain ⟨d, hd, hrest⟩ := bind_eq_ok.1 h
  have hsquare : m.isSquare = true := beq_iff_eq.2 (squareInverse?_of_inverse h).1
  unfold determinant at hd
  rw [if_pos hsquare, Except.ok.injEq] at hd
  subst hd
  dsimp only at hrest
  split at hrest
  · cases hrest
  · next hregular =>
    simp only [Bool.or_eq_true, Bool.not_eq_true', not_or, Bool.not_eq_false] at hregular
    exact hregular.2

theorem isFinite_ofFn_iff {k : Nat} {f : Nat → Nat → Float} (hrows : m.rows = k)
    (hf : ∀ r < k, ∀ c < k, (f r c).isFinite = true ↔ m.EntryFits r c) :
    (ofFn k k f).IsFinite ↔ m.InverseFits := by
  unfold InverseFits
  rw [hrows]
  refine forall₂_congr fun r hr => forall₂_congr fun c hc => ?_
  change r < k at hr
  change c < k at hc
  rw [entry_ofFn f hr hc]
  exact hf r hr c hc

theorem isFinite_divided_iff {k : Nat} {d : Float} {f : Nat → Nat → Float} (hrows : m.rows = k)
    (hd : d.isFinite = true) (hf : ∀ r c, m.EntryFits r c ↔ FitsQuotient (f r c) d) :
    (ofFn k k fun r c => f r c / d).IsFinite ↔ m.InverseFits :=
  isFinite_ofFn_iff hrows fun r _ c _ => (Double.isFinite_div_iff hd).trans (hf r c).symm

/-- From five rows on the entries are divided by the pivots, whose product is the determinant. -/
theorem isFinite_eliminate_iff (hrows : 5 ≤ m.rows) (hd : m.squareDeterminant.isFinite = true)
    (h : m.eliminate.inverse? = some n) : n.IsFinite ↔ m.InverseFits := by
  -- With five rows or more every definition takes its last form.
  obtain ⟨k, hk⟩ := Nat.exists_eq_add_of_le' hrows
  have hdeterminant : m.eliminate.determinant.isFinite = true := by
    unfold squareDeterminant at hd
    rwa [hk] at hd
  have hfits : ∀ r c, m.EntryFits r c ↔
      FitsQuotient ((m.eliminate.rightSide r).entry r c) (m.eliminate.factors.entry r r) :=
    fun r c => by simp only [EntryFits, hk]
  obtain ⟨hrows', hcols⟩ := shape_inverse? h
  rw [rows_eliminate] at hrows' hcols
  unfold IsFinite InverseFits
  rw [hrows', hcols]
  refine forall₂_congr fun r hr => forall₂_congr fun c hc => ?_
  rw [hfits, entry_of_inverse? h (by rwa [rows_eliminate]) (by rwa [rows_eliminate])]
  exact Double.isFinite_div_iff (isFinite_pivot hdeterminant (by rwa [rows_eliminate]))

/-- An inverse is finite exactly when no last operation overflows. -/
theorem isFinite_inverse_iff (h : m.inverse = .ok n) : n.IsFinite ↔ m.InverseFits := by
  obtain ⟨hsquare, hinverse⟩ := squareInverse?_of_inverse h
  have hd := isFinite_determinant h
  -- The last operation on an entry is a division by the determinant, or a product for four rows.
  unfold squareInverse? at hinverse
  split at hinverse
  · next hrows =>
    cases hinverse
    simp [IsFinite, InverseFits, hrows]
  · next hrows =>
    unfold squareDeterminant at hd
    rw [hrows] at hd
    split at hinverse
    · cases hinverse
    · cases hinverse
      exact isFinite_divided_iff hrows hd fun r c => by simp only [EntryFits, hrows]
  · next hrows =>
    unfold squareDeterminant at hd
    rw [hrows] at hd
    rw [inverse2?_eq] at hinverse
    obtain ⟨-, rfl⟩ := dividedBy?_eq_some hinverse
    exact isFinite_divided_iff hrows hd fun r c => by simp only [EntryFits, hrows]
  · next hrows =>
    unfold squareDeterminant at hd
    rw [hrows] at hd
    rw [inverse3?_eq] at hinverse
    obtain ⟨-, rfl⟩ := dividedBy?_eq_some hinverse
    exact isFinite_divided_iff hrows hd fun r c => by simp only [EntryFits, hrows]
  · next hrows =>
    rw [inverse4?_eq_some hinverse]
    refine isFinite_ofFn_iff hrows fun r hr c hc => ?_
    simpa only [EntryFits, hrows] using Double.isFinite_mul_iff
  · next h0 h1 h2 h3 h4 =>
    simp only [imp_false] at h0 h1 h2 h3 h4
    exact isFinite_eliminate_iff (by omega) hd hinverse

end CoordTransform.DenseMatrix
