import CoordTransform.Method.Matrix
import CoordTransform.Text.Blank

/-!
# The Registry of Methods

Methods are found by any of their names, without regard to case and to blanks around the name.
Among several methods under one name the one registered last is found.
-/

namespace CoordTransform

/-- Methods under normalised names, the latest registration first. -/
structure Registry (α : Type) where
  entries : List (String × Method α)

namespace Registry

variable {α : Type}

/-! ## Names -/

/-- The form in which names are compared. -/
def key (name : String) : String := Text.lower (Text.trim name)

/-! ## Look-up and registration -/

/-- No methods. -/
def empty : Registry α := ⟨[]⟩

/-- The method registered last under a name. -/
def get? (registry : Registry α) (name : String) : Option (Method α) :=
  (registry.entries.find? fun e => e.1 == key name).map (·.2)

/-- Whether there is a method under a name. -/
def contains (registry : Registry α) (name : String) : Bool := (registry.get? name).isSome

/-- Puts a method under one name. -/
def insert (registry : Registry α) (name : String) (method : Method α) : Registry α :=
  ⟨(key name, method) :: registry.entries⟩

/-- Puts a method under its further names, one after the other. -/
def insertAliases (registry : Registry α) (method : Method α) : Registry α :=
  method.aliases.foldl (fun r a => r.insert a method) registry

/-- Registers a method: first its further names, then its name. The second part of the result is
the method that was found under the name just before that last step. -/
def register (registry : Registry α) (method : Method α) : Registry α × Option (Method α) :=
  let withAliases := registry.insertAliases method
  (withAliases.insert method.name method, withAliases.get? method.name)

/-- The registry that holds the built-in matrix method. -/
def builtin [Scalar α] : Registry α := (empty.register Method.matrix).1

end Registry

end CoordTransform
