import CheckedAsm.Assoc
import CheckedAsm.Program
/-! # Symbol tables

What the names of a program stand for: global locations, among them the machine's registers and
flags, the local locations of each routine, names of types, and names of constants. -/

namespace CheckedAsm

open Text

/-- What a location was declared by. The registers and flags need no declaration. -/
inductive Decl where
  | builtin
  | defn (d : Defn)
  | routine (r : Routine)

/-- A declared location. -/
structure Entry where
  decl : Decl
  ty : Ty

/-- What names stand for, in order of declaration. -/
structure Symbols where
  globals : Assoc String Entry
  locals : Assoc String (Assoc String Entry)
  typedefs : Assoc String Ty
  consts : Assoc String Const

namespace Symbols

/-- The names every program has: the three registers and the four flags. -/
def builtins : List (String × Entry) :=
  ["a", "x", "y"].map (fun n => (n, ⟨.builtin, .byte⟩))
    ++ ["c", "z", "n", "v"].map (fun n => (n, ⟨.builtin, .bit⟩))

/-- The table before anything is declared. -/
def initial : Symbols := ⟨⟨builtins⟩, ⟨[]⟩, ⟨[]⟩, ⟨[]⟩⟩

/-- The local locations of a routine. -/
def localsOf (s : Symbols) (routine : String) : Assoc String Entry :=
  (s.locals.get? routine).getD ⟨[]⟩

/-- Whether the name is local to the routine. -/
def hasLocal (s : Symbols) (routine name : String) : Bool := (s.localsOf routine).has name

/-- Whether the name is a global location. -/
def hasGlobal (s : Symbols) (name : String) : Bool := s.globals.has name

/-- The type of a global location. -/
def globalType? (s : Symbols) (name : String) : Option Ty := (s.globals.get? name).map (·.ty)

/-- The type of a location local to a routine. -/
def localType? (s : Symbols) (routine name : String) : Option Ty :=
  ((s.localsOf routine).get? name).map (·.ty)

/-- Declares a global location. -/
def declare (s : Symbols) (name : String) (e : Entry) : Symbols :=
  { s with globals := s.globals.set name e }

/-- Declares a location local to a routine. -/
def declareLocal (s : Symbols) (routine name : String) (e : Entry) : Symbols :=
  { s with locals := s.locals.set routine ((s.localsOf routine).set name e) }

/-- Settles the names in the types of all global locations. -/
def settleGlobals (s : Symbols) : Symbols :=
  { s with globals := s.globals.mapValues fun e => { e with ty := e.ty.settled } }

end Symbols

/-- A declaration as reports write it. -/
def Decl.describe : Decl → String
  | builtin => "None"
  | defn d => d.describe
  | routine r => r.describe

/-- A declared location as reports write it. -/
def Entry.describe (e : Entry) : String :=
  "SymEntry(" ++ e.decl.describe ++ ", " ++ e.ty.describe ++ ")"

/-- A table by name as reports write it. -/
def Assoc.describe {ν : Type} (value : ν → String) (m : Assoc String ν) : String :=
  dictionary (m.entries.map fun e => (e.1, value e.2))

/-- The whole table as reports write it. -/
def Symbols.describe (s : Symbols) : String :=
  "Symbols: " ++ s.globals.describe Entry.describe
    ++ "\nLocals: " ++ s.locals.describe (Assoc.describe Entry.describe)
    ++ "\nTypedefs: " ++ s.typedefs.describe Ty.describe
    ++ "\nConsts: " ++ s.consts.describe Const.describe

end CheckedAsm
