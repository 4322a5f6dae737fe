import CheckedAsm.Machine.Item
/-! # Emitters

An emitter collects items and keeps the address of the next one. Labels live in its table; resolving
one gives it the current address. -/

namespace CheckedAsm

/-- The items collected so far, where they start, and where the next one goes. -/
structure Emitter where
  start : Int
  addr : Int
  items : Array Item := #[]
  labels : Labels := #[]
  counter : Nat := 0

namespace Emitter

/-- An emitter that starts at an address. -/
def startingAt (start : Int) : Emitter := ⟨start, start, #[], #[], 0⟩

/-- Adds an item without room of its own. -/
def append (e : Emitter) (i : Item) : Emitter := { e with items := e.items.push i }

/-- Moves the address of the next item. -/
def move (e : Emitter) (n : Int) : Emitter := { e with addr := e.addr + n }

/-- Adds an item of known room. -/
def emit (e : Emitter) (i : Item) : Except Fault Emitter :=
  (i.room).map fun n => (e.append i).move n

/-- Adds an instruction. -/
def code (e : Emitter) (m : Mnemonic) (operand : Operand) : Emitter :=
  (e.append (.code m operand)).move (1 + operand.size)

/-- Adds a byte. -/
def byte (e : Emitter) (b : UInt8) : Emitter := (e.append (.byte b)).move 1

/-- The item added last. -/
def tail? (e : Emitter) : Option Item := e.items.back?

/-- The emitter without the item added last, which is given back. -/
def pop? (e : Emitter) : Option (Item × Emitter) :=
  (e.tail?).map fun i => (i, { e with items := e.items.pop })

/-- Takes back the item added last. -/
def retract (e : Emitter) : Except Fault Emitter :=
  match e.pop? with
  | none => .error .exhausted
  | some (i, e) => (i.room).map fun n => e.move (-n)

/-- Adds a label to the table. -/
def newLabel (e : Emitter) (l : Label) : LabelId × Emitter :=
  (e.labels.size, { e with labels := e.labels.push l })

/-- Adds a label that stands at the current address, under a name of its own or a numbered one. -/
def labelHere (e : Emitter) (name : Option String) : LabelId × Emitter :=
  match name with
  | some n => e.newLabel ⟨n, some e.addr, none⟩
  | none =>
    { e with counter := e.counter + 1 }.newLabel
      ⟨"label" ++ toString e.counter, some e.addr, none⟩

/-- Changes a label of the table. -/
def changeLabel (e : Emitter) (id : LabelId) (f : Label → Label) : Emitter :=
  { e with labels := e.labels.modify id f }

/-- Gives a label the current address. -/
def resolve (e : Emitter) (id : LabelId) : Emitter :=
  e.changeLabel id fun l => { l with addr := some e.addr }

/-- Gives a label the current address and leaves room for it without adding an item. -/
def reserve (e : Emitter) (id : LabelId) : Except Fault Emitter :=
  match (e.labels.entry id).length with
  | none => .error .sizeless
  | some n => .ok ((e.resolve id).move n)

/-- The room that some items take together. -/
def totalRoom : List Item → Except Fault Int
  | [] => .ok 0
  | i :: rest => do
    let n ← i.room
    let m ← totalRoom rest
    pure (n + m)

/-- The room that all items take. -/
def size (e : Emitter) : Except Fault Int := totalRoom e.items.toList

/-- Fills the image with zeros up to a size. The current address stays. -/
def padTo (e : Emitter) (limit : Int) : Except Fault Emitter := do
  let n ← e.size
  if n > limit then .error (.overfull n limit)
  else pure { e with items := e.items ++ Array.replicate (limit - n).toNat (.byte 0) }

/-- The bytes of some items, the first of them at the given address. -/
def bytesFrom (ls : Labels) : Int → List Item → Except Fault (List UInt8)
  | _, [] => .ok []
  | addr, i :: rest => do
    let b ← i.bytes ls addr
    let bs ← bytesFrom ls (addr + b.length) rest
    pure (b ++ bs)

/-- The bytes of all items. -/
def bytes (e : Emitter) : Except Fault (List UInt8) := bytesFrom e.labels e.start e.items.toList

/-- All items as listings write them. -/
def listing (e : Emitter) : List String := e.items.toList.map (Item.describe e.labels)

end Emitter

end CheckedAsm
