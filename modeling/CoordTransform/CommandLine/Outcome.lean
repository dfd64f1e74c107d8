import CoordTransform.CommandLine.Run

/-!
# Outcomes of Runs

What a run of the program leaves behind: its exit code, its output and its error text. The code is
0 for success, 1 for a failure and 2 for misuse.
-/

namespace CoordTransform.CommandLine

/-- The exit code of a run, what it prints, and what it prints as an error. -/
structure Outcome where
  code : Nat
  output : String
  error : Option String := none
  deriving DecidableEq, Repr

/-- The name and the version of the program. -/
def versionLine : String := "zproj 0.1.0"

/-- How the program is used. -/
def helpLines : List String :=
  ["Coordinate transform toolkit",
   "",
   "Usage: zproj [--config FILE] [-v] COMMAND",
   "",
   "Commands:",
   "  transform WKT COORDINATE...         apply a transform to coordinates",
   "  inverse WKT COORDINATE...           apply the inverse of a transform to coordinates",
   "  format WKT                          print an element and its transform",
   "  distance [--ellipsoid E] FROM TO    measure between two lon,lat points in degrees",
   "  datum-path CATALOG SOURCE TARGET    find the matrix between two datums",
   "  help [COMMAND]                      print this text",
   "",
   "A WKT argument @path is read from a file. Coordinates are written x,y or x,y,z, and relative",
   "to the one before @dx,dy or @length<angle."]

/-- Every line with an end of line. -/
def unlines (lines : List String) : String := String.join (lines.map (· ++ "\n"))

/-- The outcome of a report. -/
def Report.outcome (r : Report) : Outcome :=
  match r.failure with
  | none => { code := 0, output := unlines r.lines }
  | some e => { code := 1, output := unlines r.lines, error := some e.message }

/-- The outcome of arguments that ask for no task. -/
def Stop.outcome : Stop → Outcome
  | version => { code := 0, output := unlines [versionLine] }
  | help => { code := 0, output := unlines helpLines }
  | misuse => { code := 2, output := "", error := some "wrong usage, see --help" }

/-- The paths of the files that a run reads. -/
def pathsOf (arguments : List String) : List String :=
  match read arguments with
  | .ok i => i.paths
  | .error _ => []

/-- The outcome of a run with the given files. -/
def run (files : Files) (arguments : List String) : Outcome :=
  match read arguments with
  | .ok i => (i.report files).outcome
  | .error s => s.outcome

end CoordTransform.CommandLine
