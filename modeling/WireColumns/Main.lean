import WireColumns.Command.Program

/-! # The command line

Reads the files that the arguments name, runs the program on them and prints its outcome.
-/

open WireColumns

/-- The contents of a file, if there is one at the path that can be read. -/
def readFile? (path : String) : IO (Option Bytes) :=
  try
    return some (← IO.FS.readBinFile path).toList
  catch _ => return none

def main (arguments : List String) : IO UInt32 := do
  let contents ← (Program.paths arguments).mapM fun path => return (path, ← readFile? path)
  let outcome := Program.run (fun path => (contents.lookup path).join) arguments
  (← IO.getStdout).putStr outcome.output
  (← IO.getStderr).putStr outcome.errors
  return outcome.exitCode
