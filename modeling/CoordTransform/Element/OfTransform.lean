import CoordTransform.Element.Printer
import CoordTransform.Method.Matrix

/-!
# Elements of Transforms

How a transform is written as an element:

```text
PARAM_MT["method", PARAMETER["name", value], …]   matrices and operations
CONCAT_MT[step, …]                                the steps of a concatenation, flattened
PASSTHROUGH_MT[leading, trailing, inner]          trailing is left out when it is implied
INVERSE_MT[operation]                             the inverse of an operation
```

Matrices are written as operations of the matrix method.
-/

namespace CoordTransform

/-! ## Keywords -/

/-- The keywords of the productions. -/
def Element.operationKeyword : String := "PARAM_MT"

/-- The keyword of concatenations. -/
def Element.concatenationKeyword : String := "CONCAT_MT"

/-- The keyword of inverses. -/
def Element.inverseKeyword : String := "INVERSE_MT"

/-- The keyword of pass-throughs. -/
def Element.passThroughKeyword : String := "PASSTHROUGH_MT"

/-- The keyword of parameters. -/
def Element.parameterKeyword : String := "PARAMETER"

/-! ## Steps -/

namespace Transform

variable {α : Type}

/-- The steps of a transform in the order of application: the leaves of nested concatenations. -/
def steps : Transform α → List (Transform α)
  | concatenated first second => first.steps ++ second.steps
  | t => [t]

variable [Scalar α]

/-! ## Elements -/

/-- The element of a parameter. -/
def parameterElement (p : String × ParameterValue α) : Element α :=
  let value : Literal α := match p.2 with
    | .number v => .number v
    | .text s => .text s
  .make Element.parameterKeyword [.text p.1, value] []

/-- The element of a method with parameters. -/
def operationElement (method : String) (ps : Parameters α) : Element α :=
  .make Element.operationKeyword [.text method] (ps.entries.map parameterElement)

/-- The element of a matrix. -/
def matrixElement (m : DenseMatrix α) : Element α :=
  operationElement Method.matrixName (Method.parametersOfMatrix m)

/-- The element of a pass-through; a trailing count equal to the implied one is not written. -/
def passThroughElement (implied : Option Nat) (leading : Nat) (inner : Element α)
    (trailing : Nat) : Element α :=
  let counts := if implied == some trailing then [leading] else [leading, trailing]
  .make Element.passThroughKeyword (counts.map fun n => .number (Scalar.ofNat n)) [inner]

/-- One step stands for itself; several steps make a concatenation. -/
def combineSteps : List (Element α) → Element α
  | [e] => e
  | es => .make Element.concatenationKeyword [] es

/-- The elements of the steps of a transform. -/
def stepElements (implied : Option Nat) : Transform α → List (Element α)
  | affine a => [matrixElement a.toMatrix]
  | linear m => [matrixElement m]
  | concatenated first second => first.stepElements implied ++ second.stepElements implied
  | passThrough leading inner trailing =>
    [passThroughElement implied leading (combineSteps (inner.stepElements implied)) trailing]
  | operation op => [operationElement op.method op.parameters]
  | inverseOperation op =>
    [.make Element.inverseKeyword [] [operationElement op.method op.parameters]]

/-- The element of a transform. -/
def toElement (implied : Option Nat) (t : Transform α) : Element α :=
  combineSteps (t.stepElements implied)

end Transform

/-- The text of a transform. -/
def Transform.text {α : Type} [Numeral α] (implied : Option Nat) (t : Transform α) : String :=
  (t.toElement implied).render

end CoordTransform
