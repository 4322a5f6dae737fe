import CheckedAsm.Ty
/-! # References

An operand refers to a constant, to a location by its name, to a cell of a table by a base, a
constant offset and an index, or to the cell that a pointer leads to. A name that was not declared
when it was read is left pending. -/

namespace CheckedAsm

open Text

/-- A constant with the type its spelling gives it. -/
structure Const where
  ty : Ty
  value : Int
  deriving DecidableEq

namespace Const

/-- The upper byte of the value, in two's complement. -/
def highByte (c : Const) : Int := c.value / 256 % 256

/-- The lower byte of the value, in two's complement. -/
def lowByte (c : Const) : Int := c.value % 256

/-- The type that the spelling of a number gives it. -/
def typeOfInt (value : Int) : Ty := if value > 255 then .word else .byte

/-- The constant that a number spells. -/
def ofInt (value : Int) : Const := ⟨typeOfInt value, value⟩

/-- The short name of a constant. -/
def name (c : Const) : String := "constant(" ++ toString c.value ++ ")"

/-- A constant as reports write it. -/
def describe (c : Const) : String :=
  record "ConstantRef" [("reftype", quoted "constant"), ("type", c.ty.describe),
    ("value", toString c.value)]

end Const

/-- What an operand refers to. -/
inductive Ref where
  | location (name : String)
  | constant (const : Const)
  | indexed (base offset index : Ref)
  | indirect (base : Ref)
  | pending (name : String) (site : Site)
  deriving DecidableEq, Inhabited

namespace Ref

/-- A reference as reports write it. -/
def describe : Ref → String
  | location n => record "LocationRef" [("reftype", quoted "location"), ("name", quoted n)]
  | constant c => c.describe
  | indexed b o i => record "IndexedRef" [("reftype", quoted "indexed"), ("ref", b.describe),
      ("offset", o.describe), ("index", i.describe)]
  | indirect b => record "IndirectRef" [("reftype", quoted "indirect"), ("ref", b.describe)]
  | pending n _ => "ForwardReference(" ++ quoted n ++ ")"

/-- The short name of a reference. -/
def name : Ref → String
  | location n => n
  | constant c => c.name
  | indexed b o i => b.name ++ "+" ++ o.describe ++ "+" ++ i.name
  | indirect b => "[" ++ b.name ++ "]+y"
  | pending n _ => n

/-- A pending name, once it is known to be declared, refers to the location of that name. -/
def settled : Ref → Ref
  | pending n _ => location n
  | r => r

/-- The reference that a location of a constraint stands for. -/
def ofSlot (s : Slot) : Ref :=
  match s.site? with
  | none => location s.name
  | some site => pending s.name site

/-- Two references as reports write a pair. -/
def describePair (r s : Ref) : String := "(" ++ r.describe ++ ", " ++ s.describe ++ ")"

/-- References in ascending order of their names, as reports write a set. -/
def listed (refs : List Ref) : String :=
  "\x7b" ++ ", ".intercalate ((refs.mergeSort fun r s => r.name ≤ s.name).map describe) ++ "\x7d"

/-- The accumulator. -/
def a : Ref := location "a"

/-- The first index register. -/
def x : Ref := location "x"

/-- The second index register. -/
def y : Ref := location "y"

/-- The carry flag. -/
def c : Ref := location "c"

/-- The zero flag. -/
def z : Ref := location "z"

/-- The sign flag. -/
def n : Ref := location "n"

/-- The overflow flag. -/
def v : Ref := location "v"

end Ref

end CheckedAsm
