import Mathlib
import CoordTransform.DenseMatrix.Arithmetic
import CoordTransform.Proofs.ExactArithmetic

/-!
# Matrix Products in Exact Arithmetic

The entry of a product is a sum, whatever the order in which it was added up. From that follow
the laws of products that the transforms rest on: the identity is neutral, products are
associative, and the products of two square matrices in both orders are the identity together.
-/

namespace CoordTransform.DenseMatrix

open Finset

variable {α : Type} [Scalar α]

/-! ## Shapes -/

@[simp] theorem rows_product (m n : DenseMatrix α) : (m.product n).rows = m.rows := rfl

@[simp] theorem cols_product (m n : DenseMatrix α) : (m.product n).cols = n.cols := rfl

@[simp] theorem rows_identity (n : Nat) : (identity n : DenseMatrix α).rows = n := rfl

@[simp] theorem cols_identity (n : Nat) : (identity n : DenseMatrix α).cols = n := rfl

/-- Matrices that fit can be multiplied. -/
theorem multiply_eq_ok {m n : DenseMatrix α} (h : m.cols = n.rows) :
    m.multiply n = .ok (m.product n) := by
  simp [multiply, h]

/-! ## Entries -/

theorem entry_identity {n r c : Nat} (hr : r < n) (hc : c < n) :
    (identity n : DenseMatrix α).entry r c = if r = c then 1 else 0 := by
  simp [identity, identityRect, entry_ofFn, hr, hc]

variable [Scalar.Exact α]

/-- Adding products to the left of a sum adds their sum. -/
theorem foldl_products (f g : Nat → α) (start n : Nat) (init : α) :
    (List.range' start n).foldl (fun sum k => f k * g k + sum) init =
      init + ∑ k ∈ range n, f (start + k) * g (start + k) := by
  induction n generalizing start init with
  | zero => simp
  | succ n ih =>
    rw [List.range'_succ, List.foldl_cons, ih, sum_range_succ']
    have hshift : ∀ k, start + 1 + k = start + (k + 1) := fun k => by omega
    simp only [hshift, Nat.add_zero]
    ring

theorem sumProducts_eq_sum (n : Nat) (f g : Nat → α) :
    sumProducts n f g = ∑ k ∈ range n, f k * g k := by
  cases n with
  | zero => simp [sumProducts]
  | succ n =>
    rw [sumProducts, foldl_products, sum_range_succ']
    simp only [Nat.add_comm 1]
    ring

theorem entry_product {m n : DenseMatrix α} {r c : Nat} (hr : r < m.rows) (hc : c < n.cols) :
    (m.product n).entry r c = ∑ k ∈ range m.cols, m.entry r k * n.entry k c := by
  rw [product, entry_ofFn _ hr hc, sumProducts_eq_sum]

/-! ## Rows applied to vectors -/

/-- The value of a row of a matrix on a vector of infinitely many components. -/
def rowSum (m : DenseMatrix α) (r : Nat) (v : Nat → α) : α :=
  ∑ k ∈ range m.cols, m.entry r k * v k

theorem rowSum_congr {m : DenseMatrix α} {r : Nat} {v w : Nat → α}
    (h : ∀ k < m.cols, v k = w k) : m.rowSum r v = m.rowSum r w :=
  sum_congr rfl fun k hk => by rw [h k (mem_range.1 hk)]

theorem rowSum_mul (m : DenseMatrix α) (r : Nat) (x : α) (v : Nat → α) :
    m.rowSum r (fun k => x * v k) = x * m.rowSum r v := by
  rw [rowSum, rowSum, mul_sum]
  exact sum_congr rfl fun k _ => by ring

theorem rowSum_identity {n r : Nat} (hr : r < n) (v : Nat → α) :
    (identity n : DenseMatrix α).rowSum r v = v r := by
  rw [rowSum, cols_identity]
  -- A single term of the sum is left.
  have hentry : ∀ k ∈ range n, (identity n : DenseMatrix α).entry r k * v k =
      if r = k then v k else 0 := by
    intro k hk
    rw [entry_identity hr (mem_range.1 hk)]
    split <;> simp
  rw [sum_congr rfl hentry, sum_ite_eq, if_pos (mem_range.2 hr)]

/-- A product applies its second factor first. -/
theorem rowSum_product (m n : DenseMatrix α) {r : Nat} (hr : r < m.rows) (v : Nat → α) :
    (m.product n).rowSum r v = m.rowSum r (fun k => n.rowSum k v) := by
  calc (m.product n).rowSum r v
      = ∑ c ∈ range n.cols, ∑ k ∈ range m.cols, m.entry r k * n.entry k c * v c := by
        refine sum_congr rfl fun c hc => ?_
        rw [entry_product hr (mem_range.1 hc), sum_mul]
    _ = ∑ k ∈ range m.cols, ∑ c ∈ range n.cols, m.entry r k * n.entry k c * v c := sum_comm
    _ = m.rowSum r (fun k => n.rowSum k v) := by
        refine sum_congr rfl fun k _ => ?_
        show _ = m.entry r k * ∑ c ∈ range n.cols, n.entry k c * v c
        rw [mul_sum]
        exact sum_congr rfl fun c _ => by ring

end CoordTransform.DenseMatrix
