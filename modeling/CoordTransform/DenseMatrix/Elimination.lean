import CoordTransform.DenseMatrix.Basic

/-!
# Gaussian Elimination

Elimination with partial pivoting. The pivot of a column is the first of the entries on or below
the diagonal with the greatest absolute value; a column without a pivot is skipped. The
multipliers of the lower factor are kept below the diagonal, in the place of the zeros.
-/

namespace CoordTransform.DenseMatrix

variable {α : Type} [Scalar α]

/-- A matrix under elimination: both factors in one matrix, and the rows exchanged so far, the
earliest exchange first. -/
structure Elimination (α : Type) where
  factors : DenseMatrix α
  exchanges : List (Nat × Nat)

/-- The row of the pivot of column `i`. -/
def pivotRow (m : DenseMatrix α) (i : Nat) : Nat :=
  (List.range' (i + 1) (m.rows - (i + 1))).foldl (fun best r =>
    if Scalar.numLt (Scalar.abs (m.entry best i)) (Scalar.abs (m.entry r i)) then r else best) i

/-- Two rows exchanged. -/
def swapRows (m : DenseMatrix α) (i j : Nat) : DenseMatrix α :=
  ofFn m.rows m.cols fun r c => m.entry (if r == i then j else if r == j then i else r) c

/-- The multipliers of column `i` in place. -/
def scaleColumn (m : DenseMatrix α) (i : Nat) : DenseMatrix α :=
  let inverse := 1 / m.entry i i
  ofFn m.rows m.cols fun r c =>
    if i < r && c == i then m.entry r c * inverse else m.entry r c

/-- Row `i`, times the multipliers, taken away from the rows below. -/
def reduceBelow (m : DenseMatrix α) (i : Nat) : DenseMatrix α :=
  ofFn m.rows m.cols fun r c =>
    if i < r && i < c then -m.entry i c * m.entry r i + m.entry r c else m.entry r c

/-- One column of the elimination. -/
def eliminateColumn (e : Elimination α) (i : Nat) : Elimination α :=
  let p := e.factors.pivotRow i
  -- Without a pivot the column stays as it is, and the diagonal keeps its zero.
  if Scalar.isZero (e.factors.entry p i) then e
  else if p == i then ⟨(e.factors.scaleColumn i).reduceBelow i, e.exchanges⟩
  else ⟨((e.factors.swapRows i p).scaleColumn i).reduceBelow i, e.exchanges ++ [(i, p)]⟩

/-- The elimination of a square matrix. -/
def eliminate (m : DenseMatrix α) : Elimination α :=
  (List.range m.rows).foldl eliminateColumn ⟨m, []⟩

/-- The product of the diagonal, negated for an odd number of exchanges. -/
def Elimination.determinant (e : Elimination α) : α :=
  let diagonal := (List.range e.factors.rows).foldl (fun d i => d * e.factors.entry i i) 1
  diagonal * (if e.exchanges.length % 2 == 0 then 1 else -1)

/-! ## Triangular systems -/

/-- One step of the solution with the lower factor, for all right-hand sides at once. -/
def solveLowerStep (l b : DenseMatrix α) (i : Nat) : DenseMatrix α :=
  ofFn b.rows b.cols fun r c =>
    if i < r then -b.entry i c * l.entry r i + b.entry r c else b.entry r c

/-- One step of the solution with the upper factor, for all right-hand sides at once. -/
def solveUpperStep (u b : DenseMatrix α) (i : Nat) : DenseMatrix α :=
  let solved := fun c => b.entry i c / u.entry i i
  ofFn b.rows b.cols fun r c =>
    if r == i then solved c
    else if r < i then -solved c * u.entry r i + b.entry r c
    else b.entry r c

/-- The inverse from the factors; there is none when the diagonal has a zero. -/
def Elimination.inverse? (e : Elimination α) : Option (DenseMatrix α) :=
  let n := e.factors.rows
  if (List.range n).any fun i => Scalar.isZero (e.factors.entry i i) then none
  else
    -- The right-hand sides are the columns of the identity, with the rows exchanged.
    let permuted := e.exchanges.foldl (fun b x => b.swapRows x.1 x.2) (identity n)
    let forward := (List.range (n - 1)).foldl (solveLowerStep e.factors) permuted
    some ((List.range n).reverse.foldl (solveUpperStep e.factors) forward)

end CoordTransform.DenseMatrix
