/-!
# JSON Documents

The values of JSON documents, as far as they are written: a number keeps its digits and its
exponent, and a string knows when its escapes denote no text. What a number or a string denotes
is decided only when it is used, so that parts of a document that nothing reads cannot fail.
-/

namespace CoordTransform

/-! ## Numbers -/

/-- A number as written: sign, whole digits, digits after the point, and exponent. -/
structure JsonNumber where
  negative : Bool
  whole : List Nat
  places : Option (List Nat)
  exponent : Option (Bool × List Nat)
  deriving DecidableEq, Repr

/-! ## Values -/

/-- A value of a document. A string is `none` when one of its escapes is half of a pair. -/
inductive JsonValue where
  | null
  | bool (value : Bool)
  | number (value : JsonNumber)
  | string (value : Option String)
  | array (items : List JsonValue)
  | object (fields : List (Option String × JsonValue))
  deriving Repr

namespace JsonValue

mutual

/-- Whether every string and number of a value denotes something and its arrays and objects are
nested at most `depth` levels deep. -/
def isSound (numberSound : JsonNumber → Bool) (depth : Nat) : JsonValue → Bool
  | null => true
  | bool _ => true
  | number n => numberSound n
  | string s => s.isSome
  | array items =>
    match depth with
    | 0 => false
    | d + 1 => allSound numberSound d items
  | object fields =>
    match depth with
    | 0 => false
    | d + 1 => fieldsSound numberSound d fields

/-- Whether all items of an array are sound. -/
def allSound (numberSound : JsonNumber → Bool) (depth : Nat) : List JsonValue → Bool
  | [] => true
  | j :: js => isSound numberSound depth j && allSound numberSound depth js

/-- Whether all fields of an object are sound. -/
def fieldsSound (numberSound : JsonNumber → Bool) (depth : Nat) :
    List (Option String × JsonValue) → Bool
  | [] => true
  | (k, j) :: fs => k.isSome && isSound numberSound depth j && fieldsSound numberSound depth fs

end

end JsonValue

end CoordTransform
