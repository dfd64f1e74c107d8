import CoordTransform.Error

/-!
# Dense Matrices

Matrices of scalars whose shape is part of their value. Entries are stored by rows and read with
`entry`, which is zero outside the matrix; `get?` tells the two apart.

Two comparisons are used: `same` compares representations entry by entry, and `close` compares
values up to a tolerance.
-/

namespace CoordTransform

/-- A matrix with `rows` rows and `cols` columns. -/
structure DenseMatrix (α : Type) where
  rows : Nat
  cols : Nat
  entries : Vector (Vector α cols) rows
  deriving Repr

namespace DenseMatrix

variable {α : Type}

/-! ## Entries -/

/-- The entry in a row and a column, if the matrix has it. -/
def get? (m : DenseMatrix α) (r c : Nat) : Option α :=
  if hr : r < m.rows then if hc : c < m.cols then some m.entries[r][c] else none else none

/-- The matrix with the given entries. -/
def ofFn (rows cols : Nat) (f : Nat → Nat → α) : DenseMatrix α :=
  ⟨rows, cols, Vector.ofFn fun r => Vector.ofFn fun c => f r c⟩

@[simp] theorem rows_ofFn (rows cols : Nat) (f : Nat → Nat → α) :
    (ofFn rows cols f).rows = rows := rfl

@[simp] theorem cols_ofFn (rows cols : Nat) (f : Nat → Nat → α) :
    (ofFn rows cols f).cols = cols := rfl

theorem get?_ofFn (rows cols : Nat) (f : Nat → Nat → α) (r c : Nat) :
    (ofFn rows cols f).get? r c = if r < rows ∧ c < cols then some (f r c) else none := by
  by_cases hr : r < rows <;> by_cases hc : c < cols <;> simp [get?, ofFn, hr, hc]

variable [Scalar α]

/-- The entry in a row and a column; zero outside the matrix. -/
def entry (m : DenseMatrix α) (r c : Nat) : α := (m.get? r c).getD 0

theorem entry_ofFn {rows cols : Nat} (f : Nat → Nat → α) {r c : Nat} (hr : r < rows)
    (hc : c < cols) : (ofFn rows cols f).entry r c = f r c := by
  simp [entry, get?_ofFn, hr, hc]

/-- Matrices of one shape with equal entries are equal. -/
theorem ext_entry {m n : DenseMatrix α} (hr : m.rows = n.rows) (hc : m.cols = n.cols)
    (h : ∀ r c, r < m.rows → c < m.cols → m.entry r c = n.entry r c) : m = n := by
  obtain ⟨rows, cols, e⟩ := m
  obtain ⟨rows', cols', e'⟩ := n
  simp only at hr hc
  subst hr hc
  have he : e = e' := by
    apply Vector.ext
    intro r hr
    apply Vector.ext
    intro c hc
    have := h r c hr hc
    simpa [entry, get?, hr, hc] using this
  rw [he]

/-! ## Constructors -/

/-- All entries zero. -/
def zeros (rows cols : Nat) : DenseMatrix α := ofFn rows cols fun _ _ => 0

/-- Ones on the diagonal and zeros elsewhere, in any shape. -/
def identityRect (rows cols : Nat) : DenseMatrix α :=
  ofFn rows cols fun r c => if r == c then 1 else 0

/-- The square matrix with ones on the diagonal. -/
def identity (size : Nat) : DenseMatrix α := identityRect size size

/-- The matrix of a list of values, row after row. -/
def ofValues (rows cols : Nat) (values : List α) : Except (TransformError α) (DenseMatrix α) :=
  if values.length != rows * cols then .error (.matrixShape rows cols (.values values.length))
  else
    let table := values.toArray
    .ok (ofFn rows cols fun r c => table.getD (r * cols + c) 0)

/-- The matrix of a list of rows, which must all have the length of the first. -/
def ofRows (rows : List (List α)) : Except (TransformError α) (DenseMatrix α) :=
  let cols := (rows.head?.map List.length).getD 0
  match rows.find? (·.length != cols) with
  | some bad => .error (.matrixShape rows.length bad.length (.rowLength cols))
  | none => ofValues rows.length cols rows.flatten

/-- Replaces one entry; outside the matrix nothing changes. -/
def set (m : DenseMatrix α) (r c : Nat) (x : α) : DenseMatrix α :=
  ofFn m.rows m.cols fun i j => if i == r && j == c then x else m.entry i j

/-- Replaces one entry, if the matrix has it. -/
def set? (m : DenseMatrix α) (r c : Nat) (x : α) : Option (DenseMatrix α) :=
  if r < m.rows && c < m.cols then some (m.set r c x) else none

/-! ## Views and tests -/

/-- The rows as lists. -/
def toRows (m : DenseMatrix α) : List (List α) := m.entries.toList.map Vector.toList

/-- Whether the matrix has as many rows as columns. -/
def isSquare (m : DenseMatrix α) : Bool := m.rows == m.cols

/-- Whether two matrices have the same shape. -/
def sameShape (m n : DenseMatrix α) : Bool := m.rows == n.rows && m.cols == n.cols

/-- Whether a test holds of every position of the matrix. -/
def allPositions (m : DenseMatrix α) (p : Nat → Nat → Bool) : Bool :=
  (List.range m.rows).all fun r => (List.range m.cols).all fun c => p r c

/-- Whether the matrix is the identity up to a tolerance, in any shape. -/
def isIdentity (m : DenseMatrix α) (tolerance : α) : Bool :=
  m.allPositions fun r c =>
    Scalar.within (Scalar.abs tolerance) (m.entry r c) (if r == c then 1 else 0)

/-- Whether the last row is `[0 … 0 1]`, in any shape. -/
def isAffine (m : DenseMatrix α) : Bool :=
  m.rows != 0 && m.cols != 0 &&
    (List.range m.cols).all fun c =>
      Scalar.numEq (m.entry (m.rows - 1) c) (if c == m.cols - 1 then 1 else 0)

/-- Whether two matrices of one shape differ by at most a tolerance in every entry. -/
def close (m n : DenseMatrix α) (tolerance : α) : Bool :=
  m.sameShape n && m.allPositions fun r c => Scalar.within tolerance (m.entry r c) (n.entry r c)

/-- Whether two matrices have the same shape and the same representations. -/
def same (m n : DenseMatrix α) : Bool :=
  m.sameShape n && m.allPositions fun r c => Scalar.same (m.entry r c) (n.entry r c)

/-- The error that this matrix has the wrong shape. -/
def shapeError (m : DenseMatrix α) (need : ShapeNeed) : TransformError α :=
  .matrixShape m.rows m.cols need

end DenseMatrix

/-- One line in brackets for each row. -/
def DenseMatrix.text {α : Type} [Numeral α] (m : DenseMatrix α) : String :=
  String.join (m.toRows.map fun row =>
    "[" ++ String.intercalate ", " (row.map Numeral.text) ++ "]\n")

end CoordTransform
