import Mathlib
import CoordTransform.DenseMatrix.Inverse
import CoordTransform.Proofs.Computation
import CoordTransform.Proofs.Matrix.EliminationInverse

/-!
# Inverse Matrices

`product_inverse` says that the inverse of a matrix, in whichever way it was found, is an inverse:
its product with the matrix is the identity. Sizes up to four have closed forms, which are
adjugates over a determinant; above, elimination finds the inverse.
-/

namespace CoordTransform.DenseMatrix

open Finset

variable {α : Type} [Scalar α]

/-! ## Shapes -/

/-- What `m.inverse` answers when it answers: the form for its size, of a square matrix. -/
theorem squareInverse?_of_inverse {m n : DenseMatrix α} (h : m.inverse = .ok n) :
    m.rows = m.cols ∧ m.squareInverse? = some n := by
  -- The determinant is asked for first, and only square matrices have one.
  obtain ⟨d, hd, hrest⟩ := bind_eq_ok.1 h
  have hsquare : m.rows = m.cols := by
    unfold determinant at hd
    split at hd
    · next hsquare => exact eq_of_beq hsquare
    · cases hd
  refine ⟨hsquare, ?_⟩
  dsimp only at hrest
  split at hrest
  · cases hrest
  · split at hrest
    · next x hx =>
      cases hrest
      exact hx
    · cases hrest

theorem dividedBy?_eq_some {d : α} {n : Nat} {f : Nat → Nat → α} {x : DenseMatrix α}
    (h : dividedBy? d n f = some x) :
    Scalar.isZero d = false ∧ x = ofFn n n fun r c => f r c / d := by
  unfold dividedBy? at h
  split at h
  · cases h
  · next hd =>
    cases h
    exact ⟨by simpa using hd, rfl⟩

theorem shape_squareInverse? {m n : DenseMatrix α} (hsquare : m.rows = m.cols)
    (h : m.squareInverse? = some n) : n.rows = m.rows ∧ n.cols = m.rows := by
  unfold squareInverse? at h
  -- The forms by size, each with as many rows and columns as the matrix.
  split at h
  · cases h; exact ⟨rfl, hsquare.symm⟩
  · next hrows =>
    split at h
    · cases h
    · cases h; exact ⟨hrows.symm, hrows.symm⟩
  · next hrows =>
    rw [(dividedBy?_eq_some h).2]
    exact ⟨hrows.symm, hrows.symm⟩
  · next hrows =>
    rw [(dividedBy?_eq_some h).2]
    exact ⟨hrows.symm, hrows.symm⟩
  · next hrows =>
    simp only [inverse4?] at h
    split at h
    · cases h
    · cases h; exact ⟨hrows.symm, hrows.symm⟩
  · obtain ⟨hr, hc⟩ := shape_inverse? h
    rw [hr, hc, rows_eliminate]
    exact ⟨rfl, rfl⟩

/-- An inverse has the shape of the matrix, which is square. -/
theorem shape_inverse {m n : DenseMatrix α} (h : m.inverse = .ok n) :
    m.rows = m.cols ∧ n.rows = m.rows ∧ n.cols = m.rows := by
  obtain ⟨hsquare, hinverse⟩ := squareInverse?_of_inverse h
  exact ⟨hsquare, shape_squareInverse? hsquare hinverse⟩

theorem inverse_of_not_square {m : DenseMatrix α} (hm : m.rows ≠ m.cols) :
    m.inverse = .error (m.shapeError .square) := by
  have hdeterminant : m.determinant = .error (m.shapeError .square) := if_neg (mt beq_iff_eq.1 hm)
  unfold inverse
  rw [hdeterminant]
  rfl

/-- Only singularity stands between a square matrix and its inverse. -/
theorem inverse_of_square {m : DenseMatrix α} (hsquare : m.rows = m.cols) :
    (∃ n, m.inverse = .ok n) ∨ m.inverse = .error .singularMatrix := by
  have hdeterminant : m.determinant = .ok m.squareDeterminant := if_pos (beq_iff_eq.2 hsquare)
  unfold inverse
  rw [hdeterminant]
  dsimp only [bind, Except.bind]
  split
  · exact .inr rfl
  · split
    · next n _ => exact .inl ⟨n, rfl⟩
    · exact .inr rfl

variable [Scalar.Exact α]

/-! ## Closed forms -/

/-- Adjugates: numerators whose product with the matrix is the determinant on the diagonal. -/
def Adjugates (m : DenseMatrix α) (n : Nat) (f : Nat → Nat → α) (d : α) : Prop :=
  ∀ r < n, ∀ c < n, ∑ k ∈ range n, f r k * m.entry k c = if r = c then d else 0

/-- An adjugate, over a determinant that is not zero, is an inverse. -/
theorem Adjugates.product_eq {m : DenseMatrix α} {n : Nat} {f g : Nat → Nat → α} {d : α}
    (h : Adjugates m n f d) (hd : d ≠ 0) (hg : ∀ r c, g r c = f r c / d) (hcols : m.cols = n) :
    (ofFn n n g).product m = identity n := by
  refine ext_entry rfl hcols fun r c hr hc => ?_
  change r < n at hr
  rw [cols_product, hcols] at hc
  rw [entry_product hr (hcols ▸ hc), entry_identity hr hc, cols_ofFn]
  -- The divisor is taken out of the sum, and the adjugate gives the sum.
  calc ∑ k ∈ range n, (ofFn n n g).entry r k * m.entry k c
      = (∑ k ∈ range n, f r k * m.entry k c) * (1 / d) := by
        rw [sum_mul]
        refine sum_congr rfl fun k hk => ?_
        rw [entry_ofFn _ hr (mem_range.1 hk), hg]
        ring
    _ = if r = c then 1 else 0 := by
        rw [h r hr c hc]
        split
        · rw [mul_one_div, div_self hd]
        · rw [zero_mul]

/-- Cramer's rule for two rows. -/
theorem adjugates_two (m : DenseMatrix α) :
    Adjugates m 2 (fun r c =>
      match r, c with
      | 0, 0 => m.entry 1 1
      | 0, _ => -m.entry 0 1
      | _, 0 => -m.entry 1 0
      | _, _ => m.entry 0 0) (m.minor2 0 1 0 1) := by
  intro r hr c hc
  rw [sum_range_succ, sum_range_one, minor2]
  interval_cases r <;> interval_cases c <;> simp <;> ring

/-- Cramer's rule for three rows. -/
theorem adjugates_three (m : DenseMatrix α) :
    Adjugates m 3 (fun r c =>
      match r, c with
      | 0, 0 => m.minor2 1 2 1 2
      | 0, 1 => m.entry 0 2 * m.entry 2 1 - m.entry 2 2 * m.entry 0 1
      | 0, _ => m.entry 0 1 * m.entry 1 2 - m.entry 1 1 * m.entry 0 2
      | 1, 0 => -m.minor2 1 2 0 2
      | 1, 1 => m.entry 0 0 * m.entry 2 2 - m.entry 2 0 * m.entry 0 2
      | 1, _ => m.entry 0 2 * m.entry 1 0 - m.entry 1 2 * m.entry 0 0
      | _, 0 => m.minor2 1 2 0 1
      | _, 1 => m.entry 0 1 * m.entry 2 0 - m.entry 2 1 * m.entry 0 0
      | _, _ => m.entry 0 0 * m.entry 1 1 - m.entry 1 0 * m.entry 0 1) m.determinant3 := by
  intro r hr c hc
  rw [sum_range_succ, sum_range_succ, sum_range_one, determinant3]
  interval_cases r <;> interval_cases c <;> simp [minor2] <;> ring

/-- Cramer's rule for four rows; the determinant is taken along the first column. -/
theorem adjugates_four (m : DenseMatrix α) :
    Adjugates m 4 m.adjugate4 (m.entry 0 0 * m.adjugate4 0 0 + m.entry 1 0 * m.adjugate4 0 1 +
      m.entry 2 0 * m.adjugate4 0 2 + m.entry 3 0 * m.adjugate4 0 3) := by
  intro r hr c hc
  rw [sum_range_succ, sum_range_succ, sum_range_succ, sum_range_one]
  interval_cases r <;> interval_cases c <;> simp [adjugate4, others] <;> ring

/-! ## All sizes -/

/-- What elimination answers is an inverse on the left, too. -/
theorem product_eliminate_inverse? {m n : DenseMatrix α} (hsquare : m.rows = m.cols)
    (h : m.eliminate.inverse? = some n) : n.product m = identity m.rows := by
  obtain ⟨hrows, hcols⟩ := shape_inverse? h
  rw [rows_eliminate] at hrows hcols
  -- Square matrices that are inverse on one side are so on both.
  have hleft : square m.rows n * square m.rows m = 1 :=
    mul_eq_one_comm.1 (mul_eliminate_inverse? hsquare h)
  refine ext_entry hrows hsquare.symm fun r c hr hc => ?_
  have hr' : r < m.rows := hrows ▸ hr
  have hc' : c < m.rows := hsquare ▸ hc
  have hentry := congrFun (congrFun hleft ⟨r, hr'⟩) ⟨c, hc'⟩
  rw [Matrix.mul_apply, Matrix.one_apply] at hentry
  simp only [square_apply, Fin.mk.injEq] at hentry
  rw [entry_product (m := n) (n := m) hr hc, entry_identity hr' hc', hcols, sum_range, hentry]

theorem product_squareInverse? {m n : DenseMatrix α} (hsquare : m.rows = m.cols)
    (h : m.squareInverse? = some n) : n.product m = identity m.rows := by
  -- One case for every closed form, from no rows to four, and elimination for the rest.
  unfold squareInverse? at h
  split at h
  · next hrows =>
    cases h
    rw [hrows]
    exact ext_entry hrows (hsquare ▸ hrows) fun r c hr _ => absurd hr (by simp [hrows])
  · next hrows =>
    split at h
    · cases h
    · next hd =>
      cases h
      rw [Scalar.isZero_iff] at hd
      -- The adjugate of a single entry is one.
      have hadj : Adjugates m 1 (fun _ _ => 1) (m.entry 0 0) := by
        intro r hr c hc
        interval_cases r
        interval_cases c
        simp
      rw [hrows]
      exact hadj.product_eq hd (fun _ _ => rfl) (hsquare ▸ hrows)
  · next hrows =>
    obtain ⟨hd, rfl⟩ := dividedBy?_eq_some h
    rw [Scalar.isZero_eq_false_iff] at hd
    rw [hrows]
    exact (adjugates_two m).product_eq hd (fun _ _ => rfl) (hsquare ▸ hrows)
  · next hrows =>
    obtain ⟨hd, rfl⟩ := dividedBy?_eq_some h
    rw [Scalar.isZero_eq_false_iff] at hd
    rw [hrows]
    exact (adjugates_three m).product_eq hd (fun _ _ => rfl) (hsquare ▸ hrows)
  · next hrows =>
    simp only [inverse4?] at h
    split at h
    · cases h
    · next hd =>
      cases h
      rw [hrows]
      exact (adjugates_four m).product_eq (by simpa using hd) (fun _ _ => by ring)
        (hsquare ▸ hrows)
  · exact product_eliminate_inverse? hsquare h

/-- The inverse of a matrix, multiplied with it, is the identity. -/
theorem product_inverse {m n : DenseMatrix α} (h : m.inverse = .ok n) :
    n.product m = identity m.rows := by
  obtain ⟨hsquare, hinverse⟩ := squareInverse?_of_inverse h
  exact product_squareInverse? hsquare hinverse

end CoordTransform.DenseMatrix
