import CheckedAsm.Cli.Wanted
/-! # The command line

Reads the files that a run wants, runs, and carries out what the run decided. -/

namespace CheckedAsm.Cli

/-- The text of a file, if it can be read. -/
def readText? (path : String) : IO (Option String) := do
  try
    let text ← IO.FS.readFile path
    return some text
  catch _ => return none

/-- Reads wanted files until nothing new is wanted. -/
partial def gather (args tried : List String) (known : List (String × String)) :
    IO (List (String × String)) := do
  match (wanted args (known.map (·.2))).find? fun p => !tried.contains p with
  | none => return known
  | some path =>
    match ← readText? path with
    | some text => gather args (path :: tried) ((path, text) :: known)
    | none => gather args (path :: tried) known

/-- Carries out how a run ended; gives the exit code. -/
def conclude : Ending → IO UInt32
  | .usage => do
    IO.eprintln "usage: sixtypical [options] FILENAME [FILENAME ...]"
    return 2
  | .finished written => do
    for w in written do
      IO.FS.writeBinFile w.1 ⟨w.2.toArray⟩
    return 0
  | .failed f | .raised f => do
    IO.eprintln f.headline
    return 1

end CheckedAsm.Cli

/-- Runs the command line. -/
def main (args : List String) : IO UInt32 := do
  let known ← CheckedAsm.Cli.gather args [] []
  let t := CheckedAsm.Cli.run { entries := [], known, openEnded := true } args
  IO.print t.stdout
  CheckedAsm.Cli.conclude t.ending
