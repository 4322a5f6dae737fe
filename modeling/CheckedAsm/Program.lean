import CheckedAsm.Instr
/-! # Programs

A program is a list of definitions of storage and a list of routines. A routine has a body, or stands
at an address where the machine already has its code. -/

namespace CheckedAsm

open Text

/-- The value a location has when the program starts. -/
inductive Initial where
  | value (n : Int)
  | values (ns : List Int)
  | text (s : String)
  deriving DecidableEq

/-- An initial value as reports write it. -/
def Initial.describe : Initial → String
  | value n => toString n
  | values ns => bracketed (ns.map toString)
  | text s => quoted s

/-- A definition of storage, at an address of its own choice or of the compiler's. -/
structure Defn where
  line : Nat
  name : String
  addr : Option Int
  initial : Option Initial
  deriving DecidableEq

/-- A definition as reports write it. -/
def Defn.describe (d : Defn) : String :=
  node "Defn" [("name", quoted d.name), ("addr", orNone (d.addr.map toString)),
    ("initial", orNone (d.initial.map Initial.describe))]

/-- A routine. One that is preserved is kept even where nothing calls it. -/
structure Routine where
  line : Nat
  name : String
  addr : Option Int
  locals : List Defn
  body : Option Block
  preserved : Bool

/-- A routine as reports write it. -/
def Routine.describe (r : Routine) : String :=
  node "Routine" [("locals", bracketed (r.locals.map Defn.describe)),
    ("block", orNone (r.body.map Block.describe)), ("name", quoted r.name),
    ("addr", orNone (r.addr.map toString)), ("initial", "None")]

/-- A program. -/
structure Program where
  defns : List Defn := []
  routines : List Routine := []

namespace Program

/-- Several programs as one, each after the one before. -/
def merge (programs : List Program) : Program :=
  ⟨programs.flatMap (·.defns), programs.flatMap (·.routines)⟩

/-- A program as reports write it. -/
def describe (p : Program) : String :=
  node "Program" [("defns", bracketed (p.defns.map Defn.describe)),
    ("routines", bracketed (p.routines.map Routine.describe))]

end Program

end CheckedAsm
