import CheckedAsm.Text.Quoted
/-! # Types of storage

Every location holds a bit, a byte, a word, a pointer, the code of a routine, the address of such
code, or a table of cells. A routine's type says which locations it reads, which it sets and which
it spoils. Two types are the same when they are written the same, the order of names apart, so the
names are kept sorted. -/

namespace CheckedAsm

open Text

/-- Where in the sources something was written, and whether the text had ended there. -/
structure Site where
  file : String
  pos : Nat
  ended : Bool := false
  deriving DecidableEq

/-- A location named in a routine's type. Until the name is settled it carries the site where it was
written: two names that are still open are the same only if they were written at one site. -/
structure Slot where
  name : String
  site? : Option Site := none
  deriving DecidableEq

/-- The locations of one constraint, in ascending order of their names, each name once. -/
abbrev Slots := List Slot

namespace Slots

/-- Adds a location, unless its name is there already. -/
def insert (s : Slot) : Slots → Slots
  | [] => [s]
  | t :: rest =>
    if s.name < t.name then s :: t :: rest
    else if s.name = t.name then t :: rest
    else t :: insert s rest

/-- The constraint that names the given locations. -/
def ofList (slots : List Slot) : Slots := slots.foldl (fun acc s => insert s acc) []

/-- The constraint that names the given settled locations. -/
def ofNames (names : List String) : Slots := ofList (names.map fun n => ⟨n, none⟩)

/-- The locations of the first constraint that the second lacks. -/
def minus (s t : Slots) : Slots := s.filter fun x => !t.contains x

/-- The same names, all of them settled. -/
def settled (s : Slots) : Slots := ofNames (s.map (·.name))

end Slots

/-- What a routine reads, sets and spoils. -/
structure Signature where
  inputs : Slots := []
  outputs : Slots := []
  trashes : Slots := []
  deriving DecidableEq

/-- The type of a location. -/
inductive Ty where
  | bit
  | byte
  | word
  | pointer
  | routine (sig : Signature)
  | vector (of : Ty)
  | table (of : Ty) (size : Int)
  deriving DecidableEq, Inhabited

/-- A location as reports write it. -/
def Slot.describe (s : Slot) : String :=
  match s.site? with
  | none => record "LocationRef" [("reftype", quoted "location"), ("name", quoted s.name)]
  | some site => "ForwardReference(" ++ (if site.ended then "None" else quoted s.name) ++ ")"

namespace Slots

/-- A constraint as reports of types write it. -/
def describe (s : Slots) : String :=
  if s.isEmpty then "frozenset()"
  else "frozenset(\x7b" ++ ", ".intercalate (s.map Slot.describe) ++ "\x7d)"

/-- A constraint as reports of violations write it. -/
def listed (s : Slots) : String :=
  "\x7b" ++ ", ".intercalate (s.map Slot.describe) ++ "\x7d"

end Slots

namespace Ty

/-- A type as reports write it. -/
def describe : Ty → String
  | bit => "BitType(typename='bit')"
  | byte => "ByteType(typename='byte')"
  | word => "WordType(typename='word')"
  | pointer => "PointerType(typename='pointer')"
  | routine sig => record "RoutineType" [("typename", quoted "routine"),
      ("inputs", sig.inputs.describe), ("outputs", sig.outputs.describe),
      ("trashes", sig.trashes.describe)]
  | vector of => record "VectorType" [("typename", quoted "vector"), ("of_type", of.describe)]
  | table of size => record "TableType" [("typename", quoted "table"), ("of_type", of.describe),
      ("size", toString size)]

/-- The least and the greatest value of a location. For a table these are its index bounds. -/
def maxRange : Ty → Int × Int
  | bit => (0, 1)
  | byte => (0, 255)
  | word => (0, 65535)
  | pointer => (0, 65535)
  | routine _ => (0, 0)
  | vector _ => (0, 65535)
  | table _ size => (0, size - 1)

/-- What a vector leads to; any other type stands for itself. -/
def target : Ty → Ty
  | vector of => of
  | t => t

/-- Whether the code a value of type `src` stands for may be held by a location of type `dest`:
both lead to routines with the same constraints. -/
def executableCompatible (src dest : Ty) : Bool :=
  match src.target, dest.target with
  | routine s, routine d => s = d
  | _, _ => false

/-- Whether the type is a table with cells of the given type. -/
def isTableOf (t of : Ty) : Bool :=
  match t with
  | table cell _ => cell = of
  | _ => false

/-- Whether the type is a pointer. -/
def isPointer : Ty → Bool
  | pointer => true
  | _ => false

/-- Whether the type is a routine. -/
def isRoutine : Ty → Bool
  | routine _ => true
  | _ => false

/-- Whether the type is a vector. -/
def isVector : Ty → Bool
  | vector _ => true
  | _ => false

/-- Whether the type is a table. -/
def isTable : Ty → Bool
  | table _ _ => true
  | _ => false

/-- The locations named in a type, those of the inputs first. -/
def names : Ty → List String
  | routine sig => (sig.inputs ++ sig.outputs ++ sig.trashes).map (·.name)
  | vector of => of.names
  | table of _ => of.names
  | _ => []

/-- The same type with all its names settled. -/
def settled : Ty → Ty
  | routine sig => routine ⟨sig.inputs.settled, sig.outputs.settled, sig.trashes.settled⟩
  | vector of => vector of.settled
  | table of size => table of.settled size
  | t => t

end Ty

end CheckedAsm
