import CheckedAsm.CallGraph
import CheckedAsm.Image
import CheckedAsm.Roster
import CheckedAsm.Source.Load
/-! # Building programs

From sources to bytes in stages. A build keeps what its stages have produced up to the first fault. -/

namespace CheckedAsm

/-- What to build and how. -/
structure BuildOptions where
  format : Option String := some "raw"
  origin : Option Int := none
  prune : Bool := false
  fallthrough : Bool := false
  analyse : Bool := true

/-- The stages of a build. -/
inductive Stage where
  | parse
  | analyse
  | callGraph
  | fallthrough
  | compile
  | serialize

/-- The name of a stage. -/
def Stage.name : Stage → String
  | parse => "parse"
  | analyse => "analyze"
  | callGraph => "callgraph"
  | fallthrough => "fallthru"
  | compile => "compile"
  | serialize => "serialize"

/-- What the stages of a build have produced, and the stage that failed. -/
structure Build where
  exits : Option ExitLog := none
  graph : Option CallGraph := none
  falls : Option (Fallthrough × List (List String)) := none
  image : Option Image := none
  code : Option (List UInt8) := none
  failure : Option (Stage × Fault) := none

namespace Build

/-- The build, failed at a stage. -/
def failed (b : Build) (stage : Stage) (f : Fault) : Build := { b with failure := some (stage, f) }

/-- Compiles and serialises. -/
def emit (b : Build) (o : BuildOptions) (symbols : Symbols) (p : Program)
    (roster : Option (List (List String))) : Build :=
  match Image.ofProgram symbols p roster o.format o.origin with
  | .error f => b.failed .compile f
  | .ok image =>
    let b := { b with image := some image }
    match image.bytes with
    | .error f => b.failed .serialize f
    | .ok code => { b with code := some code }

/-- Chooses the order of the routines, then compiles. -/
def order (b : Build) (o : BuildOptions) (symbols : Symbols) (defns : List Defn)
    (routines : List Analysed) : Build :=
  let p : Program := ⟨defns, routines.map (·.routine)⟩
  if o.fallthrough then
    let falls := Fallthrough.ofRoutines symbols routines
    match falls.roster with
    | .error f => b.failed .fallthrough f
    | .ok roster => { b with falls := some (falls, roster) }.emit o symbols p (some roster)
  else b.emit o symbols p none

/-- Analyses, finds out what is called, then goes on with what is left. -/
def check (o : BuildOptions) (symbols : Symbols) (p : Program) : Build :=
  let (exits, analysed) := p.analyse symbols
  let b : Build := { exits := some exits }
  match analysed with
  | .error f => b.failed .analyse f
  | .ok routines =>
    match CallGraph.ofRoutines routines with
    | .error f => b.failed .callGraph f
    | .ok g =>
      { b with graph := some g }.order o symbols p.defns
        (if o.prune then g.prune routines else routines)

/-- Builds a program that was parsed. -/
def ofProgram (o : BuildOptions) (symbols : Symbols) (p : Program) : Build :=
  if o.analyse then check o symbols p else ({} : Build).emit o symbols p none

/-- Builds a program from its files. -/
def ofFiles (o : BuildOptions) (fs : Files) (path main : List String) : Build :=
  match fs.loadAll path .initial main with
  | .error f => ({} : Build).failed .parse f
  | .ok (symbols, programs) => ofProgram o symbols (.merge programs)

end Build

end CheckedAsm
