import Mathlib
import CoordTransform.Affine.Inverse
import CoordTransform.Transform.Application
import CoordTransform.Proofs.Matrix.Inverse

/-!
# Projective Maps in Homogeneous Coordinates

A point is continued by a one to a homogeneous vector. A matrix takes a point to another one when
it takes the vector of the first to a multiple, not zero, of the vector of the second. This is the
map that `applyMatrix` computes by dividing through the last component. Read in this way, products
of matrices are composites of maps, and the inverse matrix is the converse relation: the divisors
of two steps multiply, and the divisor of the way back is the reciprocal.
-/

namespace CoordTransform.Transform

open Finset DenseMatrix

variable {α : Type} [Scalar α]

/-! ## Homogeneous vectors -/

/-- The components of a point, and ones behind them. -/
def homogeneous (p : List α) (k : Nat) : α := p[k]?.getD 1

theorem homogeneous_of_lt {p : List α} {k : Nat} (h : k < p.length) : homogeneous p k = p[k] := by
  simp [homogeneous, h]

theorem homogeneous_of_le {p : List α} {k : Nat} (h : p.length ≤ k) : homogeneous p k = 1 := by
  simp [homogeneous, h]

/-- Points of one length with the same components are equal. -/
theorem eq_of_homogeneous {p q : List α} (hlength : p.length = q.length)
    (h : ∀ k < p.length, homogeneous p k = homogeneous q k) : p = q := by
  refine List.ext_getElem hlength fun k hp hq => ?_
  have hk := h k hp
  rwa [homogeneous_of_lt hp, homogeneous_of_lt hq] at hk

variable [Scalar.Exact α]

theorem foldl_zipIdx (g : Nat → α) (p : List α) (start : Nat) (init : α) :
    (p.zipIdx start).foldl (fun sum x => sum + g x.2 * x.1) init =
      init + ∑ k ∈ range p.length, g (start + k) * homogeneous p k := by
  induction p generalizing start init with
  | nil => simp
  | cons x p ih =>
    rw [List.zipIdx_cons, List.foldl_cons, ih, List.length_cons, sum_range_succ']
    -- The head is the term of index `start`, and the indices of the tail move up by one.
    have hshift : ∀ k, start + 1 + k = start + (k + 1) := fun k => by omega
    have htail : ∀ k, homogeneous (x :: p) (k + 1) = homogeneous p k := fun k => rfl
    have hhead : homogeneous (x :: p) 0 = x := rfl
    simp only [hshift, htail, hhead, Nat.add_zero]
    ring

/-- A row applied to a point is the row applied to the homogeneous vector of the point. -/
theorem rowValue_eq_rowSum {m : DenseMatrix α} {p : List α} (h : p.length + 1 = m.cols)
    (r : Nat) : rowValue m r p = m.rowSum r (homogeneous p) := by
  rw [rowValue, foldl_zipIdx, rowSum, ← h, sum_range_succ, homogeneous_of_le le_rfl]
  simp only [Nat.zero_add, Nat.add_sub_cancel]
  ring

/-! ## Projective maps -/

/-- The homogeneous matrix `m` takes the point `p` to the point `q`: the rows of `m` on the vector
of `p` give a multiple of the vector of `q`, by a divisor that is not zero. -/
def Projects (m : DenseMatrix α) (p q : List α) : Prop :=
  p.length + 1 = m.cols ∧ q.length + 1 = m.rows ∧
    ∃ w : α, w ≠ 0 ∧ ∀ r < m.rows, m.rowSum r (homogeneous p) = w * homogeneous q r

/-- The image computed with a matrix is the point the matrix takes its argument to. -/
theorem applyMatrix_eq_ok_iff {m : DenseMatrix α} {p q : List α} (hcols : p.length + 1 = m.cols)
    (hrows : 0 < m.rows) : applyMatrix m p = .ok q ↔ Projects m p q := by
  have hrow : ∀ r, rowValue m r p = m.rowSum r (homogeneous p) := rowValue_eq_rowSum hcols
  simp only [applyMatrix, hrow]
  constructor
  · intro h
    split at h
    · cases h
    · next hw =>
      rw [Scalar.isUsable_iff] at hw
      cases h
      refine ⟨hcols, by rw [List.length_map, List.length_range]; omega, _, hw, fun r hr => ?_⟩
      -- The last row is the divisor itself; every other row, divided by it, is a component.
      by_cases hlast : r < m.rows - 1
      · rw [homogeneous_of_lt (by simpa using hlast), List.getElem_map, List.getElem_range,
          mul_div_cancel₀ _ hw]
      · have hr' : r = m.rows - 1 := by omega
        rw [homogeneous_of_le (by simpa using hlast), hr', mul_one]
  · intro h
    rcases h with ⟨-, hlength, w, hw, hrows'⟩
    -- In the last row the vector of `q` has its one, so the divisor is the multiple.
    have hlast : m.rowSum (m.rows - 1) (homogeneous p) = w := by
      rw [hrows' _ (by omega), homogeneous_of_le (by omega), mul_one]
    rw [hlast, if_neg (by rwa [Scalar.isUsable_iff])]
    refine congrArg Except.ok (List.ext_getElem (by simp; omega) fun r hr hq => ?_)
    rw [List.getElem_map, List.getElem_range, hrows' r (by omega), homogeneous_of_lt hq,
      mul_div_cancel_left₀ _ hw]

/-- Two maps one after the other are the map of the product; their divisors multiply. -/
theorem Projects.product {m n : DenseMatrix α} {p r q : List α} (hm : Projects m p r)
    (hn : Projects n r q) : Projects (n.product m) p q := by
  obtain ⟨hp, hr, w, hw, hrows⟩ := hm
  obtain ⟨hr', hq, w', hw', hrows'⟩ := hn
  refine ⟨hp, hq, w * w', mul_ne_zero hw hw', fun i hi => ?_⟩
  calc (n.product m).rowSum i (homogeneous p)
      = n.rowSum i (fun k => m.rowSum k (homogeneous p)) := rowSum_product n m hi _
    _ = n.rowSum i (fun k => w * homogeneous r k) :=
        rowSum_congr fun k hk => hrows k (by omega)
    _ = w * n.rowSum i (homogeneous r) := rowSum_mul n i w _
    _ = w * w' * homogeneous q i := by rw [hrows' i hi, mul_assoc]

/-- A left inverse takes images back; its divisor is the reciprocal, and so never zero. -/
theorem Projects.converse {m n : DenseMatrix α} {p q : List α} (h : Projects m p q)
    (hone : n.product m = .identity m.cols) (hcols : n.cols = m.rows) : Projects n q p := by
  obtain ⟨hp, hq, w, hw, hrows⟩ := h
  have hnrows : n.rows = m.cols := congrArg DenseMatrix.rows hone
  refine ⟨by omega, by omega, w⁻¹, inv_ne_zero hw, fun i hi => ?_⟩
  -- Times `w`, the left side is the product with `m` on the vector of `p`.
  have hscaled : w * n.rowSum i (homogeneous q) = homogeneous p i := by
    calc w * n.rowSum i (homogeneous q)
        = n.rowSum i (fun k => w * homogeneous q k) := (rowSum_mul n i w _).symm
      _ = n.rowSum i (fun k => m.rowSum k (homogeneous p)) :=
          rowSum_congr fun k hk => (hrows k (by omega)).symm
      _ = (n.product m).rowSum i (homogeneous p) := (rowSum_product n m hi _).symm
      _ = homogeneous p i := by rw [hone, rowSum_identity (by omega)]
  rw [← hscaled, inv_mul_cancel_left₀ hw]

/-- The inverse matrix is the converse map. -/
theorem Projects.inverse {m n : DenseMatrix α} {p q : List α} (h : Projects m p q)
    (hn : m.inverse = .ok n) : Projects n q p := by
  obtain ⟨hsquare, -, hcols⟩ := shape_inverse hn
  exact h.converse (hsquare ▸ product_inverse hn) hcols

/-! ## The identity matrix -/

theorem eq_identity_of_isIdentity {m : DenseMatrix α} (hsquare : m.isSquare = true)
    (h : m.isIdentity 0 = true) : m = .identity m.rows := by
  have hshape : m.rows = m.cols := eq_of_beq hsquare
  refine ext_entry rfl hshape.symm fun r c hr hc => ?_
  unfold DenseMatrix.isIdentity allPositions at h
  rw [List.all_eq_true] at h
  have hrow := h r (List.mem_range.2 hr)
  rw [List.all_eq_true] at hrow
  have hentry := hrow c (List.mem_range.2 hc)
  rw [Scalar.within_zero_iff] at hentry
  rw [hentry, entry_identity hr (hshape ▸ hc)]
  simp only [beq_iff_eq]

/-- The identity matrix moves no point. -/
theorem Projects.eq_of_identity {n : Nat} {p q : List α} (h : Projects (.identity n) p q) :
    p = q := by
  obtain ⟨hp, hq, w, hw, hrows⟩ := h
  rw [rows_identity] at hq hrows
  rw [cols_identity] at hp
  have hlength : p.length = q.length := by omega
  -- The last row compares the ones behind both points.
  have hone : w = 1 := by
    have hlast := hrows p.length (by omega)
    rw [rowSum_identity (by omega), homogeneous_of_le le_rfl,
      homogeneous_of_le (le_of_eq hlength.symm), mul_one] at hlast
    exact hlast.symm
  refine eq_of_homogeneous hlength fun k hk => ?_
  have hrow := hrows k (by omega)
  rwa [rowSum_identity (by omega), hone, one_mul] at hrow

/-! ## Affine maps of the plane -/

/-- The matrix of an affine map takes a point to its image, without a division. -/
theorem projects_toMatrix_iff (a : Affine α) {p q : List α} :
    Projects a.toMatrix p q ↔
      ∃ x y, p = [x, y] ∧ q = [(a.apply ⟨x, y⟩).x, (a.apply ⟨x, y⟩).y] := by
  have hsum : ∀ r < 3, ∀ v : Nat → α, a.toMatrix.rowSum r v =
      a.toMatrix.entry r 0 * v 0 + a.toMatrix.entry r 1 * v 1 + a.toMatrix.entry r 2 * v 2 := by
    intro r _ v
    change ∑ k ∈ range 3, _ = _
    rw [sum_range_succ, sum_range_succ, sum_range_one]
  have hentry : ∀ r < 3, ∀ c < 3, a.toMatrix.entry r c = _ :=
    fun r hr c hc => entry_ofFn _ hr hc
  constructor
  · intro h
    rcases h with ⟨hp, hq, w, -, hrows⟩
    change p.length + 1 = 3 at hp
    change q.length + 1 = 3 at hq
    change ∀ r < 3, _ at hrows
    obtain ⟨x, y, rfl⟩ := List.length_eq_two.1 (by omega : p.length = 2)
    obtain ⟨u, v, rfl⟩ := List.length_eq_two.1 (by omega : q.length = 2)
    refine ⟨x, y, rfl, ?_⟩
    have h0 := hrows 0 (by omega)
    have h1 := hrows 1 (by omega)
    -- The last row of the matrix is `0 0 1`, which makes the multiple one.
    have h2 := hrows 2 (by omega)
    simp only [hsum, hentry, homogeneous, Nat.reduceLT] at h0 h1 h2
    simp only [List.getElem?_cons_zero, List.getElem?_cons_succ, List.getElem?_nil,
      Option.getD_some, Option.getD_none, zero_mul, zero_add, mul_one] at h0 h1 h2
    rw [← h2, one_mul] at h0 h1
    rw [← h0, ← h1]
    rfl
  · intro h
    rcases h with ⟨x, y, rfl, rfl⟩
    refine ⟨rfl, rfl, 1, one_ne_zero, fun r hr => ?_⟩
    change r < 3 at hr
    interval_cases r <;>
      simp [hsum, hentry, homogeneous, Affine.apply, AffineCoefficients.apply]

/-- A matrix of the plane is the matrix of its affine map. -/
theorem toMatrix_of_ofMatrix {m : DenseMatrix α} {a : Affine α} (h : Affine.ofMatrix m = .ok a) :
    a.toMatrix = m := by
  unfold Affine.ofMatrix at h
  split at h
  · next hplane =>
    cases h
    simp only [Affine.isPlaneMatrix, Bool.and_eq_true, beq_iff_eq] at hplane
    obtain ⟨⟨hrows, hcols⟩, haffine⟩ := hplane
    simp only [isAffine, hrows, hcols, Bool.and_eq_true, List.all_eq_true, List.mem_range,
      Scalar.numEq_iff_eq, beq_iff_eq] at haffine
    obtain ⟨-, hlast⟩ := haffine
    refine ext_entry hrows.symm hcols.symm fun r c hr hc => ?_
    change r < 3 at hr
    change c < 3 at hc
    rw [Affine.toMatrix, entry_ofFn _ hr hc]
    -- Two rows are taken over as they are; the test has looked at the third.
    have hc' := hlast c hc
    interval_cases r <;> interval_cases c <;> first | rfl | exact hc'.symm
  · cases h

end CoordTransform.Transform
