import CoordTransform.Scalar

/-!
# Errors of Transforms

Why a transform, a matrix or an ellipsoid could not be built or applied. Errors are causes; their
wording is in `TransformError.message`.
-/

namespace CoordTransform

/-! ## Causes -/

/-- The shape a matrix should have had. -/
inductive ShapeNeed where
  | values (count : Nat)
  | rowLength (length : Nat)
  | rowCount (rows : Nat)
  | exactly (rows cols : Nat)
  | square
  | affinePlane
  | atLeastTwo
  deriving DecidableEq, Repr

/-- Where two dimensions should have agreed. -/
inductive DimensionContext where
  | concatenation
  | input
  | output
  deriving DecidableEq, Repr

/-- What is wrong with a parameter. -/
inductive ParameterFault (α : Type) where
  | missing
  | foundText (text : String)
  | outsideSizes (largest : Nat) (found : α)
  | elementName
  | elementIndex (rows cols : Nat)
  | elementText
  | notPositive (found : α)
  | negative (found : α)
  deriving Repr

/-- Why a point has no image. -/
inductive DomainFault (α : Type) where
  | divisor (value : α) (point : List α)
  | position (longitude latitude : α)
  | other (reason : String)
  deriving Repr

/-- Errors of transforms, matrices and operation methods. -/
inductive TransformError (α : Type) where
  | unknownMethod (classification : String)
  | dimensionMismatch (context : DimensionContext) (expected found : Nat)
  | singularMatrix
  | nonInvertible (source : TransformError α)
  | invalidParameter (name : String) (fault : ParameterFault α)
  | matrixShape (rows cols : Nat) (need : ShapeNeed)
  | noInverse (method : String)
  | outOfDomain (fault : DomainFault α)
  deriving Repr

/-! ## Wording -/

/-- A text in quotation marks, as it is. -/
def quoted (s : String) : String := "\"" ++ s ++ "\""

/-- Rows by columns. -/
def shapeText (rows cols : Nat) : String := toString rows ++ "x" ++ toString cols

/-- The wording of a needed shape. -/
def ShapeNeed.message : ShapeNeed → String
  | .values n => toString n ++ " values"
  | .rowLength n => "rows of length " ++ toString n
  | .rowCount n => toString n ++ " rows"
  | .exactly r c => shapeText r c
  | .square => "a square matrix"
  | .affinePlane => "a 3x3 affine matrix"
  | .atLeastTwo => "at least 2x2"

/-- The wording of a place where dimensions meet. -/
def DimensionContext.message : DimensionContext → String
  | .concatenation => "concatenation"
  | .input => "transform input"
  | .output => "transform output"

section

variable {α : Type} [Numeral α]

/-- The wording of a parameter fault. -/
def ParameterFault.message : ParameterFault α → String
  | .missing => "missing value"
  | .foundText s => "expected a number, found " ++ quoted s
  | .outsideSizes n v => "expected an integer in 1..=" ++ toString n ++ ", found " ++ Numeral.text v
  | .elementName => "expected elt_<row>_<col>"
  | .elementIndex r c => "index outside a " ++ shapeText r c ++ " matrix"
  | .elementText => "expected a number"
  | .notPositive v => "must be a positive length, found " ++ Numeral.text v
  | .negative v => "must be non-negative, found " ++ Numeral.text v

/-- The wording of a domain fault. -/
def DomainFault.message : DomainFault α → String
  | .divisor w p => "projective divisor is " ++ Numeral.text w ++ " for " ++ Numeral.listText p
  | .position x y =>
    "(" ++ Numeral.text x ++ ", " ++ Numeral.text y ++ ") is not a valid longitude/latitude"
  | .other reason => reason

/-- The wording of an error. A failed inversion names its reason only in its source. -/
def TransformError.message : TransformError α → String
  | .unknownMethod c => "No operation method registered for classification " ++ quoted c
  | .dimensionMismatch context expected found =>
    "Dimension mismatch in " ++ context.message ++ ": expected " ++ toString expected ++
      ", found " ++ toString found
  | .singularMatrix => "Singular matrix"
  | .nonInvertible _ => "Transform is not invertible"
  | .invalidParameter name fault =>
    "Invalid parameter " ++ quoted name ++ ": " ++ fault.message
  | .matrixShape r c need =>
    "Matrix shape mismatch: " ++ shapeText r c ++ " where " ++ need.message ++ " was required"
  | .noInverse method => "Operation method " ++ quoted method ++ " provides no inverse"
  | .outOfDomain fault => "Point out of domain: " ++ fault.message

end

namespace TransformError

variable {α : Type}

/-! ## Failed inversions -/

/-- Wraps the reason of a failed inversion, once. -/
def asNonInvertible : TransformError α → TransformError α
  | .nonInvertible source => .nonInvertible source
  | reason => .nonInvertible reason

theorem asNonInvertible_idem (e : TransformError α) :
    e.asNonInvertible.asNonInvertible = e.asNonInvertible := by
  cases e <;> rfl

end TransformError

end CoordTransform
