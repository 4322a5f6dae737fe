import CheckedAsm.Build
import CheckedAsm.Sample.Faulty
import CheckedAsm.Sample.Nodes
import CheckedAsm.Sample.Source
/-! # Workloads

Fixed pieces of work on sample programs, one for each part of the library. A workload answers with a
few figures that depend on nothing but its size. -/

namespace CheckedAsm.Sample

/-- A figure that a workload answers with. -/
inductive Figure where
  | number (n : Nat)
  | text (s : String)

/-- The sample program of a size, loaded. -/
def load (n : Nat) : Except Fault (Symbols × Program) := do
  let (symbols, programs) ←
    (Files.ofList [("sample.60p", source n)]).loadAll ["."] .initial ["sample.60p"]
  pure (symbols, .merge programs)

/-- The sample program of a size, analysed. -/
def analysed (n : Nat) : Except Fault (Symbols × Program × List Analysed) := do
  let (symbols, p) ← load n
  let routines ← (p.analyse symbols).2
  pure (symbols, p, routines)

/-- How long the texts are together. -/
def totalLength (texts : List String) : Nat := texts.foldl (fun n text => n + text.length) 0

/-- How many routines and definitions there are, and how the symbols begin. -/
def parsing (n : Nat) : Except Fault (List Figure) := do
  let (symbols, p) ← load n
  let shown := String.ofList (symbols.describe.toList.take 40)
  pure [.number p.routines.length, .number p.defns.length, .text shown]

/-- How many routines have exits, and how long a context with nothing in it is when written. -/
def analysing (n : Nat) : Except Fault (List Figure) := do
  let (symbols, p) ← load n
  let (exits, result) := p.analyse symbols
  let _ ← result
  pure [.number exits.entries.length, .number ({} : Context).describe.length]

/-- How many routines there are, how many of them are reachable, and how many chains they form. -/
def callGraph (n : Nat) : Except Fault (List Figure) := do
  let (symbols, _, routines) ← analysed n
  let graph ← CallGraph.ofRoutines routines
  let roster ← (Fallthrough.ofRoutines symbols routines).roster
  pure [.number graph.entries.length, .number (graph.prune routines).length,
    .number roster.length]

/-- The size of an image. -/
def imageSize (symbols : Symbols) (p : Program) (roster : Option (List (List String)))
    (f : Format) : Except Fault Figure := do
  let image ← Image.ofProgram symbols p roster (some f.name) none
  let bytes ← image.bytes
  pure (.number bytes.length)

/-- The sizes of the image in all formats with the routines in chains, and of one in program order. -/
def compiling (n : Nat) : Except Fault (List Figure) := do
  let (symbols, p, routines) ← analysed n
  let roster ← (Fallthrough.ofRoutines symbols routines).roster
  let chained ← Format.all.mapM (imageSize symbols p (some roster))
  let plain ← imageSize symbols p none .prg
  pure (chained ++ [plain])

/-- One of several files: a byte and a routine that uses it. -/
def part (i : Nat) : String × String :=
  let name := toString i
  ("part" ++ name ++ ".60p", "byte b" ++ name ++ "\ndefine r" ++ name ++ " routine inputs b" ++ name
    ++ " trashes a, z, n \x7b ld a, b" ++ name ++ " \x7d\n")

/-- How much is declared in several files and a last one with `main`. -/
def merging (n : Nat) : Except Fault Nat := do
  let files := (List.range n).map part
    ++ [("main.60p", "define main routine trashes a, z, n \x7b ld a, 0 \x7d\n")]
  let (_, programs) ← (Files.ofList files).loadAll ["."] .initial (files.map (·.1))
  let p := Program.merge programs
  pure (p.defns.length + p.routines.length)

/-- How many nodes the sample program has, and how long they are when written. -/
def describing (n : Nat) : Except Fault (List Figure) := do
  let (_, p) ← load n
  pure [.number p.nodes.length, .number (totalLength p.nodes)]

/-- The wording of what is wrong with a program, if anything is. -/
def complaint? (text : String) : Option String :=
  let o : BuildOptions := {}
  match (Build.ofFiles o (.ofList [("faulty.60p", text)]) ["."] ["faulty.60p"]).failure with
  | some (_, f) => some (f.message?.getD "")
  | none => none

/-- How many complaints the faulty programs give rise to when all are tried `n` times, and how long
they are. -/
def complaining (n : Nat) : List Figure :=
  let texts := (List.replicate n (faulty.filterMap complaint?)).flatten
  [.number texts.length, .number (totalLength texts)]

end CheckedAsm.Sample
