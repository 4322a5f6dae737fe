import CheckedAsm.Build
import CheckedAsm.Cli.Options
/-! # Runs

A run of the command line on a file tree: what it prints, and how it ends. Dumps are printed as soon
as what they show is known, so a run that fails later has printed them all the same. -/

namespace CheckedAsm.Cli

open Text

/-- How a run ends. -/
inductive Ending where
  /-- The words of the command line make no sense. -/
  | usage
  /-- All went well; these files were written, by path. -/
  | finished (written : List (String × List UInt8))
  /-- The run was given up and reported. -/
  | failed (f : Fault)
  /-- The run was given up with all that led to it. -/
  | raised (f : Fault)

/-- What a run printed and how it ended. -/
structure Transcript where
  stdout : String
  ending : Ending

/-- A part of a run: it prints, and it may fail without losing what was printed. -/
abbrev Job := ExceptT Fault (StateM String)

namespace Job

/-- Prints a text. -/
def print (s : String) : Job Unit := modifyThe String (· ++ s)

/-- Prints a text if it is asked for. -/
def printIf (wanted : Bool) (s : String) : Job Unit := if wanted then print s else pure ()

/-- A step that may fail. -/
def attempt {α : Type} (r : Except Fault α) : Job α := ExceptT.mk (pure r)

end Job

/-- The address that a text stands for. -/
def readAddress (s : String) : Except Fault Int :=
  match if s.startsWith "0x" then hexadecimal? s else decimal? s with
  | some n => .ok n
  | none => .error .notNumeral

/-- The emulators and the formats they take. -/
def emulators : List (String × String) :=
  [("x64", "c64-basic-prg"), ("xvic", "vic20-basic-prg"), ("stella", "atari2600-cart")]

namespace Options

/-- The emulator to run on, if one is named. -/
def emulator? (o : Options) : Option String :=
  o.runOn.filter fun s => !s.isEmpty

/-- Loads the files one after the other; when debugging, shows the symbols after each. -/
def loadEach (o : Options) (fs : Files) (path : List String) :
    Symbols → List String → Job (Symbols × List Program)
  | s, [] => pure (s, [])
  | s, file :: rest => do
    let (s, p) ← Job.attempt (fs.load path s file)
    Job.printIf (o.has .debug) (s.describe ++ "\n")
    let (s, ps) ← o.loadEach fs path s rest
    pure (s, p :: ps)

/-- Loads all files. -/
def loadAll (o : Options) (fs : Files) : Job (Symbols × List Program) :=
  o.loadEach fs (o.includePath.splitOn ":") .initial o.files

/-- Analyses, and leaves out what is not reachable if asked to. -/
def check (o : Options) (symbols : Symbols) (p : Program) : Job (List Analysed) := do
  let (exits, analysed) := p.analyse symbols
  Job.printIf (o.has .dumpExitContexts) (exits.toJson.render ++ "\n")
  let routines ← Job.attempt analysed
  let graph ← Job.attempt (CallGraph.ofRoutines routines)
  Job.printIf (o.has .dumpCallGraph) graph.toJson.render
  pure (if o.has .pruneUnreachable then graph.prune routines else routines)

/-- The roster, if one is asked for. -/
def roster? (o : Options) (symbols : Symbols) (routines : List Analysed) :
    Job (Option (List (List String))) := do
  if o.has .optimizeFallthru then
    let roster ← Job.attempt (Fallthrough.ofRoutines symbols routines).roster
    Job.printIf (o.has .dumpFallthruInfo) (Fallthrough.rosterJson roster).render
    pure (some roster)
  else pure none

/-- Compiles for an emulator. There is none to run the image on. -/
def launch (symbols : Symbols) (p : Program) (roster : Option (List (List String)))
    (origin : Option Int) (emulator : String) : Except Fault Unit := do
  let image ← Image.ofProgram symbols p roster (emulators.lookup emulator) origin
  let _ ← image.bytes
  .error .noEmulator

/-- Compiles into a file. The file is made before anything else is looked at. When debugging, only
what stands before the image is written. -/
def write (o : Options) (fs : Files) (symbols : Symbols) (p : Program)
    (roster : Option (List (List String))) (origin : Option Int) (path : String) :
    Except Fault (List (String × List UInt8)) := do
  fs.canWrite path
  let image ← Image.ofProgram symbols p roster (some o.format) origin
  if o.has .debug then pure [(path, image.header)]
  else do
    let bytes ← image.bytes
    pure [(path, bytes)]

/-- Compiles into what is asked for. -/
def emit (o : Options) (fs : Files) (symbols : Symbols) (p : Program)
    (roster : Option (List (List String))) : Except Fault (List (String × List UInt8)) := do
  let origin ← o.origin.mapM readAddress
  match o.emulator?, o.output with
  | some emulator, _ => do
    launch symbols p roster origin emulator
    pure []
  | none, some path => o.write fs symbols p roster origin path
  | none, none => pure []

/-- Runs with the given options. Without a place for the code, nothing is compiled. -/
def run (o : Options) (fs : Files) : Job (List (String × List UInt8)) := do
  let (symbols, programs) ← o.loadAll fs
  if o.has .parseOnly then pure []
  else do
    let p := Program.merge programs
    let routines ← o.check symbols p
    let roster ← o.roster? symbols routines
    if o.has .analyzeOnly || (o.output.isNone && o.emulator?.isNone) then pure []
    else Job.attempt (o.emit fs symbols ⟨p.defns, routines.map (·.routine)⟩ roster)

end Options

/-- The line that names the program and its version. -/
def versionLine : String := "sixtypical 0.21\n"

/-- Runs the command line on a file tree. -/
def run (fs : Files) (args : List String) : Transcript :=
  match Options.ofArgs args with
  | .error .usage => ⟨"", .usage⟩
  | .error .version => ⟨versionLine, .finished []⟩
  | .error .help => ⟨"", .finished []⟩
  | .ok o =>
    match (o.run fs).run.run "" with
    | (.ok written, stdout) => ⟨stdout, .finished written⟩
    | (.error f, stdout) => ⟨stdout, if o.has .traceback then .raised f else .failed f⟩

/-- The files that a run added to the tree, by their names in it. -/
def created (fs : Files) (written : List (String × List UInt8)) : List (String × List UInt8) :=
  written.filterMap fun w => (fs.newName? w.1).map (·, w.2)

end CheckedAsm.Cli
