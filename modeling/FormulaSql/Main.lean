import FormulaSql.CommandLine.Run

/-!
# The program
-/

namespace FormulaSql.CommandLine

/-- The contents of those files that can be read. -/
def readFiles (paths : List String) : IO (List (String × String)) :=
  paths.filterMapM fun (path : String) => do
    match ← (IO.FS.readFile path).toBaseIO with
    | .ok text => return some (path, text)
    | .error _ => return none

end FormulaSql.CommandLine

open FormulaSql.CommandLine in
/-- Reads the files that the command line names, runs it and prints what it leaves behind. -/
def main (args : List String) : IO UInt32 := do
  let paths := ((Invocation.read args).toOption.map Invocation.paths).getD []
  let files ← readFiles paths
  let outcome := run (fun path => files.lookup path) args
  IO.print outcome.stdout
  IO.eprint outcome.stderr
  return outcome.status
