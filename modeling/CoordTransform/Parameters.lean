import CoordTransform.Error
import CoordTransform.Text.Letters

/-!
# Parameter Lists

The parameters of an operation method: an ordered list of names with values. Names are found
without regard to case; setting a name again replaces its value and keeps its first spelling and
its place.
-/

namespace CoordTransform

/-! ## Values -/

/-- A number or a text. -/
inductive ParameterValue (α : Type) where
  | number (value : α)
  | text (value : String)
  deriving Repr

namespace ParameterValue

variable {α : Type}

/-- The number that a value is, if it is one. -/
def number? : ParameterValue α → Option α
  | .number v => some v
  | .text _ => none

/-- Whether two values have the same representation. -/
def same [Scalar α] : ParameterValue α → ParameterValue α → Bool
  | .number a, .number b => Scalar.same a b
  | .text a, .text b => a == b
  | _, _ => false

/-- The text of a value, a text in quotation marks. -/
def display [Numeral α] : ParameterValue α → String
  | .number v => Numeral.text v
  | .text s => quoted s

end ParameterValue

/-! ## Lists of parameters -/

/-- Named values in the order in which their names were first set. -/
structure Parameters (α : Type) where
  entries : List (String × ParameterValue α)
  deriving Repr

namespace Parameters

variable {α : Type}

/-- No parameters. -/
def empty : Parameters α := ⟨[]⟩

/-- The number of parameters. -/
def size (ps : Parameters α) : Nat := ps.entries.length

/-- Whether there are no parameters. -/
def isEmpty (ps : Parameters α) : Bool := ps.entries.isEmpty

/-- The first value whose name is like `name`. -/
def get? (ps : Parameters α) (name : String) : Option (ParameterValue α) :=
  (ps.entries.find? fun e => Text.alike e.1 name).map (·.2)

/-- Replaces the value of the first entry like `name`, or adds an entry at the end. -/
def setEntry (name : String) (value : ParameterValue α) :
    List (String × ParameterValue α) → List (String × ParameterValue α)
  | [] => [(name, value)]
  | e :: es => if Text.alike e.1 name then (e.1, value) :: es else e :: setEntry name value es

/-- Sets the value of a name. -/
def set (ps : Parameters α) (name : String) (value : ParameterValue α) : Parameters α :=
  ⟨setEntry name value ps.entries⟩

/-- Sets a list of names, one after the other. -/
def ofList (es : List (String × ParameterValue α)) : Parameters α :=
  es.foldl (fun ps e => ps.set e.1 e.2) empty

/-- Whether two lists have the same spellings and values in the same order. -/
def same [Scalar α] (ps qs : Parameters α) : Bool :=
  ps.size == qs.size &&
    (ps.entries.zip qs.entries).all fun p => p.1.1 == p.2.1 && p.1.2.same p.2.2

/-! ## Numbers -/

/-- The number under a name, or the default if the name is not set. -/
def numberOr (ps : Parameters α) (name : String) (default : α) :
    Except (TransformError α) α :=
  match ps.get? name with
  | none => .ok default
  | some (.number v) => .ok v
  | some (.text s) => .error (.invalidParameter name (.foundText s))

/-- The number under a name that must be set. -/
def requireNumber (ps : Parameters α) (name : String) : Except (TransformError α) α :=
  match ps.get? name with
  | none => .error (.invalidParameter name .missing)
  | some (.number v) => .ok v
  | some (.text s) => .error (.invalidParameter name (.foundText s))

end Parameters

end CoordTransform
