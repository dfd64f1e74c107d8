import CoordTransform.Datum.BursaWolf
import CoordTransform.Geodesy.Ellipsoid

/-!
# Datum Catalogues

Datums in the order in which they were added. A datum is referred to by its number, so that
shift records may form cycles, and may name datums that are not in the catalogue.
-/

namespace CoordTransform

/-- A datum with its shift records. -/
structure Datum (α : Type) where
  name : String
  ellipsoid : Option Ellipsoid := none
  shifts : List (BursaWolf α) := []

/-- The first shift record to a target. -/
def Datum.shiftTo? {α : Type} (d : Datum α) (target : Nat) : Option (BursaWolf α) :=
  d.shifts.find? (·.target == target)

/-- Numbered datums. -/
structure Catalog (α : Type) where
  datums : List (Datum α)

namespace Catalog

variable {α : Type}

/-- No datums. -/
def empty : Catalog α := ⟨[]⟩

/-- The number of datums. -/
def size (c : Catalog α) : Nat := c.datums.length

/-- Whether there are no datums. -/
def isEmpty (c : Catalog α) : Bool := c.datums.isEmpty

/-- The datum with a number. -/
def get? (c : Catalog α) (id : Nat) : Option (Datum α) := c.datums[id]?

/-- Adds a datum, which gets the next number. -/
def add (c : Catalog α) (d : Datum α) : Catalog α := ⟨c.datums ++ [d]⟩

/-- The number of the first datum whose name is like `name`. -/
def find? (c : Catalog α) (name : String) : Option Nat :=
  c.datums.findIdx? fun d => Text.alike d.name name

/-- Adds a shift record at the end of those of a datum; other numbers change nothing. -/
def addShift (c : Catalog α) (source : Nat) (p : BursaWolf α) : Catalog α :=
  ⟨c.datums.modify source fun d => { d with shifts := d.shifts ++ [p] }⟩

end Catalog

end CoordTransform
