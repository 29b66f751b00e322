import FactGuard.CommandLine.Commands

/-!
# The program

Reads the files that the command line names and writes what the command answers.
-/

namespace FactGuard

/-- The files that a command may read. -/
def Command.paths : Command → List String
  | .instrument file claims config .. => file :: claims.toList ++ config.toList
  | .facts file claims => file :: claims.toList
  | .run file _ _ claims config _ => file :: claims.toList ++ config.toList

/-- The texts of the files that can be read. -/
def readFiles (paths : List String) : IO (Bindings String) := do
  let mut texts := []
  for path in paths do
    match ← (IO.FS.readFile path).toBaseIO with
    | .ok text => texts := Bindings.insert path text texts
    | .error _ => pure ()
  return texts

end FactGuard

/-- Carry out the command line. -/
def main (args : List String) : IO UInt32 := do
  let paths := ((FactGuard.CommandLine.command? args).map FactGuard.Command.paths).getD []
  let texts ← FactGuard.readFiles paths
  let output := FactGuard.CommandLine.output texts.get? args
  IO.print output.stdout
  IO.eprint output.stderr
  return UInt32.ofNat output.status
