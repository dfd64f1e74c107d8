import CoordTransform.CommandLine.Outcome

/-!
# The Program

Reads the files that the arguments name, and prints the outcome of the run.
-/

open CoordTransform

/-- The text of a file, if it can be read. -/
def readTextFile (path : String) : IO (Option String) := do
  try return some (← IO.FS.readFile path)
  catch _ => return none

/-- Runs the program. -/
def main (arguments : List String) : IO UInt32 := do
  let texts ← (CommandLine.pathsOf arguments).mapM fun path => do
    return (path, ← readTextFile path)
  let outcome := CommandLine.run (fun path => (texts.lookup path).join) arguments
  IO.print outcome.output
  if let some e := outcome.error then IO.eprintln ("Error: " ++ e)
  return outcome.code.toUInt32
