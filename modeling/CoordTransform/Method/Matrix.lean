import CoordTransform.Method.Basic

/-!
# The Matrix Method

The built-in method `Affine` makes a transform from the entries of a homogeneous matrix. Its
parameters are `num_row` and `num_col`, three unless given, and `elt_<row>_<col>` for the entries
that differ from the default matrix of that shape. Other parameters are ignored.

The two directions are `matrixOfParameters` and `parametersOfMatrix`.
-/

namespace CoordTransform.Method

/-! ## Names of parameters -/

/-- The name of the built-in method. -/
def matrixName : String := "Affine"

/-- The greatest number of rows and columns that parameters can ask for. -/
def largestSize : Nat := 32

/-- The name of the parameter of an entry. -/
def entryName (r c : Nat) : String := "elt_" ++ toString r ++ "_" ++ toString c

/-- An index is a string of digits with an optional plus, below `2 ^ 64`. -/
def index? (cs : List Char) : Option Nat :=
  let digits := match cs with
    | '+' :: ds => ds
    | ds => ds
  if digits.isEmpty || !digits.all Char.isDigit then none
  else
    let n := digits.foldl (fun n c => 10 * n + (c.toNat - '0'.toNat)) 0
    if n < UInt64.size then some n else none

/-- The row and the column of `<row>_<col>`. -/
def indices? (cs : List Char) : Option (Nat × Nat) := do
  match cs.dropWhile (· != '_') with
  | [] => none
  | _ :: col => return (← index? (cs.takeWhile (· != '_')), ← index? col)

/-- What follows `elt_` in a name, in any case; `none` for other names. -/
def afterElt? (name : String) : Option (List Char) :=
  match (Text.lower name).toList with
  | 'e' :: 'l' :: 't' :: '_' :: rest => some rest
  | _ => none

variable {α : Type} [Scalar α]

/-! ## From parameters to matrices -/

/-- The matrix without any entry given: ones on the diagonal and `[0 … 0 1]` as last row. -/
def defaultMatrix (rows cols : Nat) : DenseMatrix α :=
  .ofFn rows cols fun r c =>
    if rows != cols && r + 1 == rows then
      if c + 1 == cols then 1 else 0
    else if r == c then 1 else 0

/-- The number of rows or columns under a name. -/
def size (ps : Parameters α) (name : String) : Except (TransformError α) Nat := do
  let v ← ps.numberOr name (Scalar.ofNat 3)
  match Scalar.toNat? v with
  | some n =>
    if 1 ≤ n && n ≤ largestSize then return n
    else throw (.invalidParameter name (.outsideSizes largestSize v))
  | none => throw (.invalidParameter name (.outsideSizes largestSize v))

/-- Puts one parameter into the matrix. -/
def putParameter (m : DenseMatrix α) (p : String × ParameterValue α) :
    Except (TransformError α) (DenseMatrix α) :=
  match afterElt? p.1 with
  | none => .ok m
  | some rest =>
    match indices? rest with
    | none => .error (.invalidParameter p.1 .elementName)
    | some (r, c) =>
      if r < m.rows && c < m.cols then
        match p.2.number? with
        | some v => .ok (m.set r c v)
        | none => .error (.invalidParameter p.1 .elementText)
      else .error (.invalidParameter p.1 (.elementIndex m.rows m.cols))

/-- The matrix that parameters describe. -/
def matrixOfParameters (ps : Parameters α) : Except (TransformError α) (DenseMatrix α) := do
  let rows ← size ps "num_row"
  let cols ← size ps "num_col"
  ps.entries.foldlM putParameter (defaultMatrix rows cols)

/-! ## From matrices to parameters -/

/-- The parameter of a size, left out when it is three. -/
def sizeParameter (name : String) (n : Nat) : List (String × ParameterValue α) :=
  if n == 3 then [] else [(name, .number (Scalar.ofNat n))]

/-- The parameters of the entries that differ from a default matrix, by rows. -/
def entryParameters (m default : DenseMatrix α) : List (String × ParameterValue α) :=
  (List.range m.rows).flatMap fun r => (List.range m.cols).flatMap fun c =>
    if Scalar.same (m.entry r c) (default.entry r c) then []
    else [(entryName r c, .number (m.entry r c))]

/-- The parameters that describe a matrix. A matrix too large for parameters is compared with the
identity of its shape. -/
def parametersOfMatrix (m : DenseMatrix α) : Parameters α :=
  let sizes := sizeParameter "num_row" m.rows ++ sizeParameter "num_col" m.cols
  let default := match matrixOfParameters (α := α) ⟨sizes⟩ with
    | .ok d => d
    | .error _ => .identityRect m.rows m.cols
  ⟨sizes ++ entryParameters m default⟩

/-! ## The method -/

/-- The built-in method. -/
def matrix : Method α where
  name := matrixName
  create ps := do Transform.ofMatrix (← matrixOfParameters ps)

end CoordTransform.Method
