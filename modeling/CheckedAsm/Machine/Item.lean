import CheckedAsm.Fault
/-! # Items of an image

An image is made of items: bytes, words, tables of them, and instructions with their operands. Items
refer to labels, whose addresses are looked up when the items are turned into bytes. -/

namespace CheckedAsm

open Text

/-- A label: a name for an address that may not be known yet, and the length of what stands there. -/
structure Label where
  name : String
  addr : Option Int := none
  length : Option Int := none
  deriving DecidableEq

/-- A label's place in the table of all labels. -/
abbrev LabelId := Nat

/-- All labels of an image. -/
abbrev Labels := Array Label

/-- The label at a place of the table. -/
def Labels.entry (ls : Labels) (id : LabelId) : Label := (ls[id]?).getD ⟨"", none, none⟩

/-- The address of a label, or of the place at some distance from it. -/
inductive Target where
  | label (id : LabelId)
  | offset (id : LabelId) (by_ : Int)
  deriving DecidableEq

/-- The operand of an instruction in immediate mode: a byte, or one byte of an address. -/
inductive ImmediateByte where
  | byte (value : UInt8)
  | high (t : Target)
  | low (t : Target)
  deriving DecidableEq

/-- The operand of an instruction, by addressing mode. -/
inductive Operand where
  | implied
  | immediate (b : ImmediateByte)
  | absolute (t : Target)
  | absoluteX (t : Target)
  | absoluteY (t : Target)
  | zeroPage (t : Target)
  | indirect (id : LabelId)
  | indirectY (t : Target)
  | relative (id : LabelId)
  deriving DecidableEq

/-- Something that takes room in an image. -/
inductive Item where
  | byte (value : UInt8)
  | word (value : Int)
  | letter (c : Char)
  | table (cells : List Item) (size : Int)
  | address (t : Target)
  | high (t : Target)
  | low (t : Target)
  | code (m : Mnemonic) (operand : Operand)
  | unknown

/-! ### Numbers as bytes -/

/-- The low eight bits of a number. -/
def lowBits (n : Int) : UInt8 := UInt8.ofNat (n % 256).toNat

/-- A number in one byte. Numbers below zero are taken in two's complement, down to -127. -/
def byteOf (n : Int) : Except Fault UInt8 :=
  if n < -127 ∨ n > 255 then .error (.byteOverflow n) else .ok (lowBits n)

/-- A number in two bytes, the lower one first. -/
def wordBytes (n : Int) : UInt8 × UInt8 := (lowBits n, lowBits (n / 256))

/-! ### Targets -/

namespace Target

/-- The label that a target is at or near. -/
def id : Target → LabelId
  | label id => id
  | offset id _ => id

/-- The distance from the label. -/
def distance : Target → Int
  | label _ => 0
  | offset _ d => d

/-- The address that a target stands for. -/
def resolve (ls : Labels) (t : Target) : Except Fault Int :=
  match (ls.entry t.id).addr with
  | none => .error (.unresolved (ls.entry t.id).name)
  | some a => .ok (a + t.distance)

/-- The two bytes of a target's address. -/
def bytes (ls : Labels) (t : Target) : Except Fault (UInt8 × UInt8) :=
  (t.resolve ls).map wordBytes

end Target

/-! ### Operands -/

namespace Operand

/-- The addressing mode of an operand. -/
def mode : Operand → Mode
  | implied => .implied
  | immediate _ => .immediate
  | absolute _ => .absolute
  | absoluteX _ => .absoluteX
  | absoluteY _ => .absoluteY
  | zeroPage _ => .zeroPage
  | indirect _ => .indirect
  | indirectY _ => .indirectY
  | relative _ => .relative

/-- The operand's size in bytes. -/
def size : Operand → Nat
  | implied => 0
  | immediate _ | zeroPage _ | indirectY _ | relative _ => 1
  | absolute _ | absoluteX _ | absoluteY _ | indirect _ => 2

/-- The two bytes of an address as a list. -/
def pairBytes (ls : Labels) (t : Target) : Except Fault (List UInt8) :=
  (t.bytes ls).map fun p => [p.1, p.2]

/-- The address as a single byte. -/
def pageByte (ls : Labels) (t : Target) : Except Fault (List UInt8) := do
  let a ← t.resolve ls
  let b ← byteOf a
  pure [b]

/-- The operand's bytes, when the instruction stands at the given address. The byte of the lower
address half is the one called high, as it comes first. -/
def bytes (ls : Labels) (addr : Int) : Operand → Except Fault (List UInt8)
  | implied => .ok []
  | immediate (.byte v) => .ok [v]
  | immediate (.high t) => (t.bytes ls).map fun p => [p.1]
  | immediate (.low t) => (t.bytes ls).map fun p => [p.2]
  | absolute t | absoluteX t | absoluteY t => pairBytes ls t
  | indirect id => pairBytes ls (.label id)
  | zeroPage t | indirectY t => pageByte ls t
  | relative id => do
    let a ← Target.resolve ls (.label id)
    let b ← byteOf (a - (addr + 2))
    pure [b]

end Operand

/-! ### Items -/

namespace Item

/-- The room an item takes, where it is known. -/
def size : Item → Except Fault (Option Int)
  | byte _ => .ok (some 1)
  | word _ | letter _ => .ok (some 2)
  | table _ n => .ok (some n)
  | address (.label _) => .ok (some 2)
  | address (.offset _ _) => .ok none
  | high _ | low _ => .ok (some 1)
  | code _ operand => .ok (some (1 + operand.size))
  | unknown => .error .noAnswer

/-- The room an item takes, which has to be known. -/
def room (i : Item) : Except Fault Int :=
  match i.size with
  | .error f => .error f
  | .ok none => .error .sizeless
  | .ok (some n) => .ok n

mutual

/-- The bytes of an item that stands at the given address. -/
def bytes (ls : Labels) (addr : Int) : Item → Except Fault (List UInt8)
  | byte v => .ok [v]
  | word n => .ok [(wordBytes n).1, (wordBytes n).2]
  | letter _ => .error .notWord
  | table cells n => do
    let bs ← cellBytes ls addr cells
    pure (bs ++ List.replicate (n - bs.length).toNat 0)
  | address t => Operand.pairBytes ls t
  | high t => (t.bytes ls).map fun p => [p.1]
  | low t => (t.bytes ls).map fun p => [p.2]
  | code m operand =>
    match m.opcode? operand.mode with
    | none => .error (.noEncoding operand.mode)
    | some b => (operand.bytes ls addr).map (b :: ·)
  | unknown => .error .noAnswer

/-- The bytes of a table's cells. -/
def cellBytes (ls : Labels) (addr : Int) : List Item → Except Fault (List UInt8)
  | [] => .ok []
  | i :: rest => do
    let b ← bytes ls addr i
    let bs ← cellBytes ls addr rest
    pure (b ++ bs)

end

end Item

/-! ### Listings -/

/-- A label as listings write it. -/
def Label.describe (l : Label) : String :=
  "Label(" ++ quoted l.name
    ++ (match l.addr with
      | none => ""
      | some a => ", addr=" ++ toString a)
    ++ (match l.length with
      | none => ""
      | some n => ", length=" ++ toString n) ++ ")"

/-- A target as listings write it. -/
def Target.describe (ls : Labels) : Target → String
  | label id => (ls.entry id).describe
  | offset id d => "Offset(" ++ (ls.entry id).describe ++ ", " ++ toString d ++ ")"

/-- A byte of an operand as listings write it. -/
def ImmediateByte.describe (ls : Labels) : ImmediateByte → String
  | byte v => "Byte(" ++ toString v.toNat ++ ")"
  | high t => "HighAddressByte(" ++ t.describe ls ++ ")"
  | low t => "LowAddressByte(" ++ t.describe ls ++ ")"

/-- An operand as listings write it. -/
def Operand.describe (ls : Labels) (o : Operand) : String :=
  o.mode.name ++ "(" ++ (match o with
    | implied => ""
    | immediate b => b.describe ls
    | absolute t | absoluteX t | absoluteY t | zeroPage t | indirectY t => t.describe ls
    | indirect id | relative id => (ls.entry id).describe) ++ ")"

/-- An item as listings write it. -/
def Item.describe (ls : Labels) : Item → String
  | byte v => "Byte(" ++ toString v.toNat ++ ")"
  | word n => "Word(" ++ toString n ++ ")"
  | letter c => "Word(" ++ quoted c.toString ++ ")"
  | table _ _ => "Table()"
  | address t => t.describe ls
  | high t => "HighAddressByte(" ++ t.describe ls ++ ")"
  | low t => "LowAddressByte(" ++ t.describe ls ++ ")"
  | code m operand => m.name ++ "(" ++ operand.describe ls ++ ")"
  | unknown => "Emittable()"

end CheckedAsm
