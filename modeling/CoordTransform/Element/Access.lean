import CoordTransform.Element.Basic

/-!
# Access to Elements

Reading the literals of an element by position and its children by keyword. A literal of the
wrong kind makes the element malformed.
-/

namespace CoordTransform.Element

variable {α : Type} [Scalar α]

/-! ## Keywords -/

/-- Whether an element has a keyword, in any case. -/
def is (e : Element α) (keyword : String) : Bool := Text.alike e.keyword keyword

/-- The first child with a keyword. -/
def child? (e : Element α) (keyword : String) : Option (Element α) :=
  e.children.find? (·.is keyword)

/-! ## Literals -/

/-- The literal at a position. -/
def literal (e : Element α) (index : Nat) : Except (ElementError α) (Literal α) :=
  match e.literals[index]? with
  | some l => .ok l
  | none => .error (e.malformed (.missingLiteral index))

/-- The number at a position. -/
def number (e : Element α) (index : Nat) : Except (ElementError α) α := do
  match ← e.literal index with
  | .number v => return v
  | l => throw (e.malformed (.numberExpected index l))

/-- The greatest count that an element can hold. -/
def largestCount : Nat := UInt32.size - 1

/-- The natural number at a position. -/
def natural (e : Element α) (index : Nat) : Except (ElementError α) Nat := do
  let v ← e.number index
  match Scalar.toNat? v with
  | some n => if n ≤ largestCount then return n else throw (e.malformed (.naturalExpected index v))
  | none => throw (e.malformed (.naturalExpected index v))

/-- The quoted text at a position. -/
def quotedText (e : Element α) (index : Nat) : Except (ElementError α) String := do
  match ← e.literal index with
  | .text s => return s
  | l => throw (e.malformed (.textExpected index l))

end CoordTransform.Element
