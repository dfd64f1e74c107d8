import CoordTransform.Json.Number

/-!
# Records in JSON Documents

A record is written as an object with named fields, or as an array with its fields in order.
Fields of other names are skipped. A field that is given twice, or an array with too many items,
is an error.
-/

namespace CoordTransform.JsonValue

/-! ## Records -/

/-- The values of the named field of an object. -/
def valuesOf (name : String) (fields : List (Option String × JsonValue)) : List JsonValue :=
  fields.filterMap fun f => if f.1 == some name then some f.2 else none

/-- The value of a field that is given at most once. -/
def fieldOf? (fields : List (Option String × JsonValue)) (name : String) :
    Option (Option JsonValue) :=
  match valuesOf name fields with
  | [] => some none
  | [v] => some (some v)
  | _ => none

/-- The values of the fields of a record that must be an object, in the order of the names. -/
def namedFields? (names : List String) : JsonValue → Option (List (Option JsonValue))
  | object fields =>
    if fields.all (·.1.isSome) then names.mapM (fieldOf? fields) else none
  | _ => none

/-- The values of the fields of a record, in the order of the names. -/
def record? (names : List String) : JsonValue → Option (List (Option JsonValue))
  | array items =>
    if items.length ≤ names.length then
      some (items.map some ++ List.replicate (names.length - items.length) none)
    else none
  | j => namedFields? names j

/-! ## Values of fields -/

/-- A text. -/
def text? : JsonValue → Option String
  | string s => s
  | _ => none

/-- A truth value. -/
def bool? : JsonValue → Option Bool
  | bool b => some b
  | _ => none

/-- A double. -/
def float? : JsonValue → Option Float
  | number n => n.float?
  | _ => none

/-- A natural number. -/
def natural? : JsonValue → Option Nat
  | number n => n.natural?
  | _ => none

/-- The items of an array. -/
def items? : JsonValue → Option (List JsonValue)
  | array js => some js
  | _ => none

/-- A value that may be `null`. -/
def nullable? {β : Type} (read : JsonValue → Option β) : JsonValue → Option (Option β)
  | null => some none
  | j => (read j).map some

/-- A field that must be there. -/
def required? {β : Type} (read : JsonValue → Option β) : Option JsonValue → Option β
  | none => none
  | some j => read j

/-- A field with a default. -/
def withDefault? {β : Type} (default : β) (read : JsonValue → Option β) :
    Option JsonValue → Option β
  | none => some default
  | some j => read j

end CoordTransform.JsonValue
