import CoordTransform.Datum.Catalog
import CoordTransform.Json.Parser
import CoordTransform.Json.Record

/-!
# Catalogue Documents

Datums with their shift records as written in a JSON document, where records name their targets:

```text
{ "datums": [ { "name": text,
                "ellipsoid": name, or
                             { "name": text, "semi_major_axis": number,
                               "semi_minor_axis": number or null,
                               "inverse_flattening": number or null, "unit": unit },
                "shifts": [ { "target": name, "dx": number, … , "ppm": number } ] } ] }
```

`CatalogDocument.build` first adds all datums and then connects the records, so that a record may
name a datum that comes later.
-/

namespace CoordTransform

/-! ## Entries -/

/-- An ellipsoid by name or by its parameters. -/
inductive EllipsoidEntry where
  | named (name : String)
  | custom (name : String) (semiMajor : Float) (semiMinor inverseFlattening : Option Float)
      (unit : LengthUnit)
  deriving Repr

/-- A shift record with the name of its target. -/
structure ShiftEntry where
  target : String
  dx : Float
  dy : Float
  dz : Float
  ex : Float
  ey : Float
  ez : Float
  ppm : Float
  deriving Repr

/-- A datum with its shift records. -/
structure DatumEntry where
  name : String
  ellipsoid : Option EllipsoidEntry
  shifts : List ShiftEntry
  deriving Repr

/-- The datums of a document in order. -/
structure CatalogDocument where
  datums : List DatumEntry
  deriving Repr

/-! ## Errors -/

/-- Why a document does not describe a catalogue. -/
inductive CatalogError where
  | duplicateDatum (name : String)
  | unknownEllipsoid (name : String)
  | badEllipsoid (name : String) (cause : TransformError Float)
  | vanishedDatum (name : String)
  | unknownTarget (datum target : String)

namespace CatalogError

/-- The wording of an error, without its cause. -/
def message : CatalogError → String
  | duplicateDatum name => "duplicate datum '" ++ name ++ "'"
  | unknownEllipsoid name => "unknown ellipsoid '" ++ name ++ "'"
  | badEllipsoid name _ => "ellipsoid " ++ name
  | vanishedDatum name => "datum '" ++ name ++ "' vanished"
  | unknownTarget datum target =>
    "datum '" ++ datum ++ "' shifts to unknown datum '" ++ target ++ "'"

/-- The wording of an error and its cause. -/
def fullMessage : CatalogError → String
  | badEllipsoid name cause => (badEllipsoid name cause).message ++ ": " ++ cause.message
  | e => e.message

end CatalogError

/-! ## Building catalogues -/

/-- The ellipsoid of an entry. An inverse flattening goes before a semi-minor axis; with
neither of them the ellipsoid is a sphere. -/
def EllipsoidEntry.build : EllipsoidEntry → Except CatalogError Ellipsoid
  | named name =>
    match Ellipsoid.ofName? name with
    | some e => .ok e
    | none => .error (.unknownEllipsoid name)
  | custom name a b ivf unit =>
    (match ivf, b with
      | some ivf, _ => Ellipsoid.ofInverseFlattening name a ivf unit
      | none, some b => Ellipsoid.ofAxes name a b unit
      | none, none => Ellipsoid.sphere name a unit).mapError (.badEllipsoid name)

/-- The shift record of an entry. -/
def ShiftEntry.toShift (s : ShiftEntry) (target : Nat) : BursaWolf Float :=
  ⟨target, s.dx, s.dy, s.dz, s.ex, s.ey, s.ez, s.ppm⟩

namespace CatalogDocument

/-- Adds the datum of an entry, without its shift records. -/
def addDatum (c : Catalog Float) (entry : DatumEntry) : Except CatalogError (Catalog Float) := do
  if (c.find? entry.name).isSome then throw (.duplicateDatum entry.name)
  match entry.ellipsoid with
  | none => return c.add { name := entry.name }
  | some e => return c.add { name := entry.name, ellipsoid := some (← e.build) }

/-- Adds a shift record to the datum with a name and a number. -/
def addShift (name : String) (source : Nat) (c : Catalog Float) (s : ShiftEntry) :
    Except CatalogError (Catalog Float) :=
  match c.find? s.target with
  | none => .error (.unknownTarget name s.target)
  | some target => .ok (c.addShift source (s.toShift target))

/-- Adds the shift records of an entry to its datum. -/
def addShifts (c : Catalog Float) (entry : DatumEntry) : Except CatalogError (Catalog Float) :=
  match c.find? entry.name with
  | none => .error (.vanishedDatum entry.name)
  | some source => entry.shifts.foldlM (addShift entry.name source) c

/-- The catalogue of a document. -/
def build (document : CatalogDocument) : Except CatalogError (Catalog Float) := do
  let c ← document.datums.foldlM addDatum .empty
  document.datums.foldlM addShifts c

end CatalogDocument

/-! ## Reading documents -/

open JsonValue

/-- A unit by its word, also as an object with the word as its only field. -/
def LengthUnit.read? : JsonValue → Option LengthUnit
  | .string s => do ofWord? (← s)
  | .object [(some word, .null)] => ofWord? word
  | _ => none

/-- The depth to which the description of an ellipsoid may be nested. -/
def EllipsoidEntry.largestDepth : Nat := 124

/-- An ellipsoid. The two forms are told apart by the kind of the value, so that its fields must
have their names. -/
def EllipsoidEntry.read? (j : JsonValue) : Option EllipsoidEntry := do
  if !j.isSound (fun n => n.float?.isSome) largestDepth then none
  else
    match j.text? with
    | some name => some (.named name)
    | none =>
      match ← namedFields?
          ["name", "semi_major_axis", "semi_minor_axis", "inverse_flattening", "unit"] j with
      | [name, a, b, ivf, unit] =>
        some (.custom (← required? text? name) (← required? JsonValue.float? a)
          (← withDefault? none (nullable? JsonValue.float?) b)
          (← withDefault? none (nullable? JsonValue.float?) ivf)
          (← withDefault? .metre LengthUnit.read? unit))
      | _ => none

/-- A shift record. -/
def ShiftEntry.read? (j : JsonValue) : Option ShiftEntry := do
  match ← record? ["target", "dx", "dy", "dz", "ex", "ey", "ez", "ppm"] j with
  | target :: numbers =>
    let target ← required? text? target
    match ← numbers.mapM (withDefault? 0 JsonValue.float?) with
    | [dx, dy, dz, ex, ey, ez, ppm] => some { target, dx, dy, dz, ex, ey, ez, ppm }
    | _ => none
  | [] => none

/-- A datum. -/
def DatumEntry.read? (j : JsonValue) : Option DatumEntry := do
  match ← record? ["name", "ellipsoid", "shifts"] j with
  | [name, ellipsoid, shifts] =>
    some
      { name := ← required? text? name
        ellipsoid := ← withDefault? none (nullable? EllipsoidEntry.read?) ellipsoid
        shifts := ← withDefault? [] (fun j => do (← j.items?).mapM ShiftEntry.read?) shifts }
  | _ => none

/-- A document. -/
def CatalogDocument.read? (j : JsonValue) : Option CatalogDocument := do
  match ← record? ["datums"] j with
  | [datums] =>
    some { datums := ← required? (fun j => do (← j.items?).mapM DatumEntry.read?) datums }
  | _ => none

/-- Reads a document from its text. -/
def CatalogDocument.parse? (text : String) : Option CatalogDocument := do
  CatalogDocument.read? (← JsonValue.parse? text)

end CoordTransform
