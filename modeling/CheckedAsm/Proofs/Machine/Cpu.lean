import CheckedAsm.Codegen.Setting
/-! # The processor

The state of a 6502 and what each instruction does to it, jumps apart. Arithmetic is binary. The stack is
kept as a list beside the memory, its top first. Operands name their addresses by labels, so a table of
labels says where they lead; an address in one byte is the same as in two. -/

namespace CheckedAsm

/-- The state of the processor and its memory. -/
structure Cpu where
  a : UInt8
  x : UInt8
  y : UInt8
  c : Bool
  z : Bool
  n : Bool
  v : Bool
  masked : Bool
  stack : List UInt8
  memory : Int → UInt8

/-- The address of a label, where it has one. -/
def Labels.place (ls : Labels) (id : LabelId) : Int := (ls.entry id).addr.getD 0

/-- The address of a target. -/
def Target.place (ls : Labels) (t : Target) : Int := ls.place t.id + t.distance

namespace Cpu

/-- The flags of a result. -/
def mark (σ : Cpu) (b : UInt8) : Cpu := { σ with z := b == 0, n := 128 ≤ b }

/-- Puts a result into the accumulator. -/
def setA (σ : Cpu) (b : UInt8) : Cpu := { σ with a := b }.mark b

/-- Puts a result into the first index register. -/
def setX (σ : Cpu) (b : UInt8) : Cpu := { σ with x := b }.mark b

/-- Puts a result into the second index register. -/
def setY (σ : Cpu) (b : UInt8) : Cpu := { σ with y := b }.mark b

/-- Changes one byte of the memory. -/
def poke (σ : Cpu) (p : Int) (b : UInt8) : Cpu :=
  { σ with memory := fun q => if q = p then b else σ.memory q }

/-- The address that two bytes of the zero page hold. -/
def pointer (σ : Cpu) (p : Int) : Int :=
  (σ.memory (p % 256)).toNat + 256 * (σ.memory ((p + 1) % 256)).toNat

/-- Adds a byte and the carry to the accumulator. -/
def add (σ : Cpu) (b : UInt8) : Cpu :=
  let total := σ.a.toNat + b.toNat + σ.c.toNat
  let r := UInt8.ofNat total
  { σ with c := 256 ≤ total, v := 128 ≤ (σ.a ^^^ r) &&& (b ^^^ r) }.setA r

/-- Compares a register with a byte. -/
def compare (σ : Cpu) (r b : UInt8) : Cpu := { σ with c := b ≤ r }.mark (r - b)

/-- Puts the accumulator on the stack. -/
def push (σ : Cpu) : Cpu := { σ with stack := σ.a :: σ.stack }

/-- Takes the accumulator from the stack. -/
def pull (σ : Cpu) : Cpu := { σ with stack := σ.stack.tail }.setA (σ.stack.headD 0)

end Cpu

namespace Operand

/-- The address that an operand leads to. -/
def place (ls : Labels) (σ : Cpu) : Operand → Int
  | absolute t | zeroPage t => t.place ls % 65536
  | absoluteX t => (t.place ls + σ.x.toNat) % 65536
  | absoluteY t => (t.place ls + σ.y.toNat) % 65536
  | indirectY t => (σ.pointer (t.place ls) + σ.y.toNat) % 65536
  | indirect id | relative id => ls.place id
  | implied | immediate _ => 0

/-- The byte that an instruction takes from its operand. -/
def value (ls : Labels) (σ : Cpu) : Operand → UInt8
  | implied => σ.a
  | immediate (.byte b) => b
  | immediate (.high t) => lowBits (t.place ls)
  | immediate (.low t) => lowBits (t.place ls / 256)
  | o => σ.memory (o.place ls σ)

/-- Puts a byte where the operand leads to. -/
def assign (ls : Labels) (σ : Cpu) (o : Operand) (b : UInt8) : Cpu :=
  match o with
  | implied => { σ with a := b }
  | o => σ.poke (o.place ls σ) b

end Operand

namespace Code

/-- The room of an instruction. -/
def size (c : Code) : Int := 1 + c.operand.size

/-- The instruction as an item of an image. -/
def item (c : Code) : Item := .code c.mnemonic c.operand

/-- What an instruction does to the processor, where it goes on with the next one. -/
def exec (ls : Labels) (σ : Cpu) (k : Code) : Cpu :=
  let o := k.operand
  let b := o.value ls σ
  match k.mnemonic with
  | .lda => σ.setA b
  | .ldx => σ.setX b
  | .ldy => σ.setY b
  | .sta => o.assign ls σ σ.a
  | .stx => o.assign ls σ σ.x
  | .sty => o.assign ls σ σ.y
  | .adc => σ.add b
  | .sbc => σ.add (~~~b)
  | .and => σ.setA (σ.a &&& b)
  | .ora => σ.setA (σ.a ||| b)
  | .eor => σ.setA (σ.a ^^^ b)
  | .cmp => σ.compare σ.a b
  | .cpx => σ.compare σ.x b
  | .cpy => σ.compare σ.y b
  | .inc => (o.assign ls σ (b + 1)).mark (b + 1)
  | .dec => (o.assign ls σ (b - 1)).mark (b - 1)
  | .inx => σ.setX (σ.x + 1)
  | .iny => σ.setY (σ.y + 1)
  | .dex => σ.setX (σ.x - 1)
  | .dey => σ.setY (σ.y - 1)
  | .rol =>
    let r := (b <<< 1) ||| σ.c.toUInt8
    ({ o.assign ls σ r with c := 128 ≤ b }).mark r
  | .ror =>
    let r := (b >>> 1) ||| (σ.c.toUInt8 <<< 7)
    ({ o.assign ls σ r with c := b &&& 1 == 1 }).mark r
  | .tax => σ.setX σ.a
  | .tay => σ.setY σ.a
  | .txa => σ.setA σ.x
  | .tya => σ.setA σ.y
  | .pha => σ.push
  | .pla => σ.pull
  | .clc => { σ with c := false }
  | .sec => { σ with c := true }
  | .cli => { σ with masked := false }
  | .sei => { σ with masked := true }
  | _ => σ

/-- Some instructions one after the other. -/
def execAll (ls : Labels) (cs : List Code) (σ : Cpu) : Cpu := cs.foldl (exec ls) σ

/-- The room of some instructions. -/
def room (cs : List Code) : Int := cs.foldr (fun c n => c.size + n) 0

theorem map_item_inj {xs ys : List Code} : xs.map item = ys.map item ↔ xs = ys := by
  refine List.map_inj_right fun c d hcd => ?_
  obtain ⟨m, o⟩ := c
  obtain ⟨m', o'⟩ := d
  cases hcd
  rfl

theorem size_pos (c : Code) : 0 < c.size := by
  unfold size
  omega

@[simp] theorem room_nil : room [] = 0 := rfl

theorem room_cons (c : Code) (cs : List Code) : room (c :: cs) = c.size + room cs := rfl

theorem room_append (xs ys : List Code) : room (xs ++ ys) = room xs + room ys := by
  induction xs with
  | nil => simp
  | cons c xs ih => rw [List.cons_append, room_cons, room_cons, ih, Int.add_assoc]

theorem room_nonneg (cs : List Code) : 0 ≤ room cs := by
  induction cs with
  | nil => exact Int.le_refl 0
  | cons c cs ih =>
    have hc := c.size_pos
    rw [room_cons]
    omega

end Code

namespace Mnemonic

/-- Whether a branch is taken, if the instruction is one. -/
def taken? (σ : Cpu) : Mnemonic → Option Bool
  | bcc => some (!σ.c)
  | bcs => some σ.c
  | bne => some (!σ.z)
  | beq => some σ.z
  | bpl => some (!σ.n)
  | bmi => some σ.n
  | _ => none

/-- Whether the machine always goes on with the next instruction. -/
def isPlain : Mnemonic → Bool
  | bcc | bcs | bne | beq | bpl | bmi | jmp | jsr | rts => false
  | _ => true

end Mnemonic

end CheckedAsm
