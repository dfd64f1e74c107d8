import CoordTransform.DenseMatrix.Elimination

/-!
# Determinants and Inverses

Small matrices have closed forms: determinants up to three rows and inverses up to four. Larger
ones go through elimination. A matrix is singular when its determinant is zero or not finite.
-/

namespace CoordTransform.DenseMatrix

variable {α : Type} [Scalar α]

/-! ## Closed forms -/

/-- `a * d - b * c` of the rows `r₁ r₂` and the columns `c₁ c₂`. -/
def minor2 (m : DenseMatrix α) (r₁ r₂ c₁ c₂ : Nat) : α :=
  m.entry r₁ c₁ * m.entry r₂ c₂ - m.entry r₂ c₁ * m.entry r₁ c₂

/-- The determinant of a 3x3 matrix along its first row. -/
def determinant3 (m : DenseMatrix α) : α :=
  m.entry 0 0 * m.minor2 1 2 1 2 - m.entry 0 1 * m.minor2 1 2 0 2 +
    m.entry 0 2 * m.minor2 1 2 0 1

/-- Every entry divided by the same value, if that value is not zero. -/
def dividedBy? (divisor : α) (n : Nat) (f : Nat → Nat → α) : Option (DenseMatrix α) :=
  if Scalar.isZero divisor then none else some (ofFn n n fun r c => f r c / divisor)

/-- The inverse of a 2x2 matrix. -/
def inverse2? (m : DenseMatrix α) : Option (DenseMatrix α) :=
  dividedBy? (m.minor2 0 1 0 1) 2 fun r c =>
    match r, c with
    | 0, 0 => m.entry 1 1
    | 0, _ => -m.entry 0 1
    | _, 0 => -m.entry 1 0
    | _, _ => m.entry 0 0

/-- The inverse of a 3x3 matrix. -/
def inverse3? (m : DenseMatrix α) : Option (DenseMatrix α) :=
  dividedBy? m.determinant3 3 fun r c =>
    match r, c with
    | 0, 0 => m.minor2 1 2 1 2
    | 0, 1 => m.entry 0 2 * m.entry 2 1 - m.entry 2 2 * m.entry 0 1
    | 0, _ => m.entry 0 1 * m.entry 1 2 - m.entry 1 1 * m.entry 0 2
    | 1, 0 => -m.minor2 1 2 0 2
    | 1, 1 => m.entry 0 0 * m.entry 2 2 - m.entry 2 0 * m.entry 0 2
    | 1, _ => m.entry 0 2 * m.entry 1 0 - m.entry 1 2 * m.entry 0 0
    | _, 0 => m.minor2 1 2 0 1
    | _, 1 => m.entry 0 1 * m.entry 2 0 - m.entry 2 1 * m.entry 0 0
    | _, _ => m.entry 0 0 * m.entry 1 1 - m.entry 1 0 * m.entry 0 1

/-- The three indices below four without one of them. -/
def others : Nat → Nat × Nat × Nat
  | 0 => (1, 2, 3)
  | 1 => (0, 2, 3)
  | 2 => (0, 1, 3)
  | _ => (0, 1, 2)

/-- The entry of the adjugate of a 4x4 matrix: the signed minor without row `c` and
column `r`. -/
def adjugate4 (m : DenseMatrix α) (r c : Nat) : α :=
  -- The adjugate is transposed: row and column change places.
  let (r₁, r₂, r₃) := others c
  let (c₁, c₂, c₃) := others r
  let term := fun i j k => m.entry r₁ i * m.entry r₂ j * m.entry r₃ k
  let crossed := fun i j k => m.entry r₁ i * m.entry r₃ j * m.entry r₂ k
  if (r + c) % 2 == 0 then
    term c₁ c₂ c₃ - crossed c₁ c₂ c₃ - term c₂ c₁ c₃ + crossed c₂ c₁ c₃ + term c₃ c₁ c₂ -
      crossed c₃ c₁ c₂
  else
    -term c₁ c₂ c₃ + crossed c₁ c₂ c₃ + term c₂ c₁ c₃ - crossed c₂ c₁ c₃ - term c₃ c₁ c₂ +
      crossed c₃ c₁ c₂

/-- The inverse of a 4x4 matrix: the adjugate times the reciprocal of the determinant. -/
def inverse4? (m : DenseMatrix α) : Option (DenseMatrix α) :=
  let d := m.entry 0 0 * m.adjugate4 0 0 + m.entry 1 0 * m.adjugate4 0 1 +
    m.entry 2 0 * m.adjugate4 0 2 + m.entry 3 0 * m.adjugate4 0 3
  if Scalar.isZero d then none
  else
    let scale := 1 / d
    some (ofFn 4 4 fun r c => m.adjugate4 r c * scale)

/-! ## All sizes -/

/-- The determinant of a square matrix. -/
def squareDeterminant (m : DenseMatrix α) : α :=
  match m.rows with
  | 0 => 1
  | 1 => m.entry 0 0
  | 2 => m.minor2 0 1 0 1
  | 3 => m.determinant3
  | _ => m.eliminate.determinant

/-- The inverse of a square matrix, as far as its form gives one. -/
def squareInverse? (m : DenseMatrix α) : Option (DenseMatrix α) :=
  match m.rows with
  | 0 => some m
  | 1 =>
    if Scalar.isZero (m.entry 0 0) then none else some (ofFn 1 1 fun _ _ => 1 / m.entry 0 0)
  | 2 => m.inverse2?
  | 3 => m.inverse3?
  | 4 => m.inverse4?
  | _ => m.eliminate.inverse?

/-- The determinant; only a square matrix has one. -/
def determinant (m : DenseMatrix α) : Except (TransformError α) α :=
  if m.isSquare then .ok m.squareDeterminant else .error (m.shapeError .square)

/-- The inverse of a square matrix whose determinant is finite and not zero. -/
def inverse (m : DenseMatrix α) : Except (TransformError α) (DenseMatrix α) := do
  let d ← m.determinant
  -- The determinant is computed on its own, and not taken from the form of the inverse.
  if Scalar.isZero d || !Scalar.isFinite d then throw .singularMatrix
  match m.squareInverse? with
  | some n => return n
  | none => throw .singularMatrix

end CoordTransform.DenseMatrix
