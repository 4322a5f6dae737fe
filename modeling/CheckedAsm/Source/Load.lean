import CheckedAsm.Grammar.Unit
import CheckedAsm.Source.Files
/-! # Loading programs

Loading a file adds its declarations to a symbol table and gives its program. An included file is
loaded on the spot, before the rest of the file that includes it. -/

namespace CheckedAsm

/-- The symbol table and the program of a text under a file name. -/
def Program.ofText (load : Grammar.Include) (s : Symbols) (file text : String) :
    Except Fault (Symbols × Program) :=
  (Grammar.unit load s (Cursor.ofText file text)).map (·.1)

namespace Files

/-- Loads a file, whose includes may be nested at most `depth` deep. -/
def loadWithin (fs : Files) (path : List String) :
    Nat → Symbols → String → Except Fault (Symbols × Program)
  | 0, _, _ => .error .tooDeep
  | depth + 1, s, file => do
    let text ← fs.read file
    let include? : Grammar.Include := fun s name =>
      match name with
      | none => .error .fileNameMissing
      | some n => loadWithin fs path depth s (fs.locate path n)
    Program.ofText include? s file text

/-- Loads a file. A file that does not include itself is nested no deeper than there are files. -/
def load (fs : Files) (path : List String) (s : Symbols) (file : String) :
    Except Fault (Symbols × Program) :=
  fs.loadWithin path (fs.entries.length + fs.known.length + 1) s file

/-- Loads several files into one symbol table. -/
def loadAll (fs : Files) (path : List String) :
    Symbols → List String → Except Fault (Symbols × List Program)
  | s, [] => .ok (s, [])
  | s, file :: rest => do
    let (s, p) ← fs.load path s file
    let (s, ps) ← fs.loadAll path s rest
    pure (s, p :: ps)

end Files

end CheckedAsm
