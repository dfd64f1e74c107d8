/-!
# Tasks

What the program can be asked to do, and the other ways in which reading its arguments can end.
-/

namespace CoordTransform.CommandLine

/-! ## Commands -/

/-- The commands of the program. -/
inductive Command where
  | transform
  | inverse
  | format
  | distance
  | datumPath
  deriving DecidableEq, Repr

namespace Command

/-- All commands. -/
def all : List Command := [transform, inverse, format, distance, datumPath]

/-- The word of a command. -/
def word : Command → String
  | transform => "transform"
  | inverse => "inverse"
  | format => "format"
  | distance => "distance"
  | datumPath => "datum-path"

/-- The command with a word. -/
def ofWord? (s : String) : Option Command := all.find? (·.word == s)

/-- The word of a command names it. -/
theorem ofWord?_word (c : Command) : ofWord? c.word = some c := by cases c <;> decide

end Command

/-! ## Tasks -/

/-- A command with its arguments. -/
inductive Task where
  | transform (text : String) (coordinates : List String)
  | inverse (text : String) (coordinates : List String)
  | format (text : String)
  | distance (ellipsoid start finish : String)
  | datumPath (catalog source target : String)
  deriving DecidableEq, Repr

/-- A task with the path of the configuration to use. -/
structure Invocation where
  config : Option String
  task : Task
  deriving DecidableEq, Repr

/-- The endings of reading arguments other than with a task. -/
inductive Stop where
  | version
  | help
  | misuse
  deriving DecidableEq, Repr

end CoordTransform.CommandLine
