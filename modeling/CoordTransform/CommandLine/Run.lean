import CoordTransform.CommandLine.Arguments
import CoordTransform.CommandLine.Failure
import CoordTransform.Config
import CoordTransform.Datum.Search
import CoordTransform.Element.ToTransform

/-!
# Carrying out Tasks

A task works on the texts of the files it names and yields lines. The files come as a function
from paths to texts, which has no text for a file that cannot be read.

* `transform` and `inverse` yield one line for each coordinate, or a failure and no line.
* `format` yields the text of the element and then the text of its transform. When the element
  has no transform because of a failure, the first line stands.
* `distance` yields the length of a geodesic and its azimuth.
* `datum-path` yields the matrix of a shift.
-/

namespace CoordTransform.CommandLine

/-- The texts of files by their paths. -/
abbrev Files := String → Option String

/-- The lines that a task yields, and the failure that ended it, if there was one. -/
structure Report where
  lines : List String
  failure : Option Failure := none

namespace Report

/-- The report of a task that yields all of its lines or none. -/
def ofExcept : Except Failure (List String) → Report
  | .ok lines => ⟨lines, none⟩
  | .error e => ⟨[], some e⟩

/-- A line before the others. -/
def cons (line : String) (r : Report) : Report := { r with lines := line :: r.lines }

end Report

/-! ## Reading files -/

/-- The text of a file. -/
def readFile (files : Files) (kind : FileKind) (path : String) : Except Failure String :=
  match files path with
  | some text => .ok text
  | none => .error (.unreadable kind path)

/-- The path in an argument of the form `@path`. -/
def pathOf? (argument : String) : Option String :=
  match argument.toList with
  | '@' :: path => some (String.ofList path)
  | _ => none

/-- The text that an argument gives: what is in the file for `@path`, or else the argument
itself. -/
def readText (files : Files) (argument : String) : Except Failure String :=
  match pathOf? argument with
  | some path => readFile files .transform path
  | none => .ok argument

/-- The configuration in a file; the default one without a file. -/
def readConfig (files : Files) : Option String → Except Failure Config
  | none => .ok {}
  | some path => do
    match Config.parse? (← readFile files .config path) with
    | some config => return config
    | none => throw (.illFormed .config path)

/-- The catalogue in a file. -/
def readCatalog (files : Files) (path : String) : Except Failure (Catalog Float) := do
  match CatalogDocument.parse? (← readFile files .catalog path) with
  | some file => file.build.mapError .catalog
  | none => throw (.illFormed .catalog path)

/-! ## Transforms -/

/-- The interpreter of a configuration, with the built-in methods. -/
def interpreterOf (config : Config) : Interpreter Float where
  builder := { registry := .builtin, options := config.builder }
  impliedTrailing := config.impliedTrailing

/-- The result of an interpretation that starts with an empty pool. -/
def interpret {β : Type} (i : Interpretation Float β) : Except Failure β :=
  (i []).1.mapError .element

/-- The transform of a text. -/
def parseTransform (config : Config) (text : String) : Except Failure (Transform Float) :=
  interpret ((interpreterOf config).parse text)

/-- The texts of the images of coordinates that are given as texts. -/
def images (t : Transform Float) (coordinates : List String) : Except Failure (List String) := do
  let cs ← (Coordinate.parseAll coordinates).mapError .input
  match Coordinate.filterAll t cs with
  | (_, some e) => throw (.filter e)
  | (ds, none) => return ds.map Coordinate.text

/-- Applies a transform to coordinates. -/
def transform (files : Files) (config : Config) (argument : String) (coordinates : List String) :
    Except Failure (List String) := do
  let t ← parseTransform config (← readText files argument)
  images t coordinates

/-- Applies the inverse of a transform to coordinates. -/
def inverse (files : Files) (config : Config) (argument : String) (coordinates : List String) :
    Except Failure (List String) := do
  let t ← parseTransform config (← readText files argument)
  images (← t.inverse.mapError .transform) coordinates

/-- The line that says what transform an element has. -/
def transformLine (config : Config) (e : Element Float) : Except Failure (List String) := do
  match ← interpret ((interpreterOf config).transformOf e) with
  | some t => return [t.text (some config.impliedTrailing)]
  | none => return ["(" ++ e.keyword ++ " is not a math transform)"]

/-- Writes an element and its transform. -/
def format (files : Files) (config : Config) (argument : String) : Report :=
  match (do (Element.parse (← readText files argument)).mapError .element :
      Except Failure (Element Float)) with
  | .error e => ⟨[], some e⟩
  | .ok e => (Report.ofExcept (transformLine config e)).cons e.render

/-! ## Distances -/

/-- Measures the geodesic between two positions. -/
def distance (ellipsoid start finish : String) : Except Failure (List String) := do
  let some e := Ellipsoid.ofName? ellipsoid | throw (.unknownEllipsoid ellipsoid)
  let p ← (Coordinate.parse start none).mapError .input
  let q ← (Coordinate.parse finish none).mapError .input
  let g ← (e.geodesic ⟨p.x, p.y⟩ ⟨q.x, q.y⟩).mapError .transform
  return [Decimal.fixed 3 g.distance ++ " (" ++ e.unit.name ++ ")",
    "azimuth " ++ Decimal.fixed 6 g.azimuth]

/-! ## Datums -/

/-- The number of a datum in a catalogue. -/
def findDatum (c : Catalog Float) (name : String) : Except Failure Nat :=
  match c.find? name with
  | some id => .ok id
  | none => .error (.unknownDatum name)

/-- Finds the matrix of the shift between two datums. -/
def datumPath (files : Files) (catalog source target : String) :
    Except Failure (List String) := do
  let c ← readCatalog files catalog
  let s ← findDatum c source
  let t ← findDatum c target
  match ← (c.resolve s t).mapError .transform with
  | some m => return [m.text]
  | none => return ["no path from " ++ source ++ " to " ++ target]

/-! ## Tasks -/

/-- Carries out a task. -/
def Task.report (files : Files) (config : Config) : Task → Report
  | .transform text coordinates => .ofExcept (CommandLine.transform files config text coordinates)
  | .inverse text coordinates => .ofExcept (CommandLine.inverse files config text coordinates)
  | .format text => CommandLine.format files config text
  | .distance ellipsoid start finish => .ofExcept (CommandLine.distance ellipsoid start finish)
  | .datumPath catalog source target =>
    .ofExcept (CommandLine.datumPath files catalog source target)

/-- The paths of the files that a task reads. -/
def Task.paths : Task → List String
  | .transform text _ | .inverse text _ | .format text => (pathOf? text).toList
  | .distance _ _ _ => []
  | .datumPath catalog _ _ => [catalog]

/-- The paths of the files that an invocation reads. -/
def Invocation.paths (i : Invocation) : List String := i.config.toList ++ i.task.paths

/-- Carries out an invocation; the configuration is read first. -/
def Invocation.report (files : Files) (i : Invocation) : Report :=
  match readConfig files i.config with
  | .ok config => i.task.report files config
  | .error e => ⟨[], some e⟩

end CoordTransform.CommandLine
