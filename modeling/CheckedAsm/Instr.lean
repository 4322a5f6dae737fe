import CheckedAsm.Ref
/-! # Instructions and blocks

A routine's body is a tree of instructions. References stand in it as they were written. Each node
carries the number of the line on which its last token was followed by another. -/

namespace CheckedAsm

open Text

/-- A single operation with its operands. -/
inductive Op where
  | ld (dest src : Ref)
  | st (src dest : Ref)
  | add (dest src : Ref)
  | sub (dest src : Ref)
  | cmp (dest src : Ref)
  | and (dest src : Ref)
  | or (dest src : Ref)
  | xor (dest src : Ref)
  | shl (dest : Ref)
  | shr (dest : Ref)
  | inc (dest : Ref)
  | dec (dest : Ref)
  | nop
  | copy (src dest : Ref)
  | trash (dest : Ref)
  deriving DecidableEq

namespace Op

/-- The name of the operation. -/
def opcode : Op → String
  | ld .. => "ld"
  | st .. => "st"
  | add .. => "add"
  | sub .. => "sub"
  | cmp .. => "cmp"
  | and .. => "and"
  | or .. => "or"
  | xor .. => "xor"
  | shl .. => "shl"
  | shr .. => "shr"
  | inc .. => "inc"
  | dec .. => "dec"
  | nop => "nop"
  | copy .. => "copy"
  | trash .. => "trash"

/-- What the operation changes, if it changes anything. -/
def dest? : Op → Option Ref
  | ld d _ | st _ d | add d _ | sub d _ | cmp d _ | and d _ | or d _ | xor d _ => some d
  | shl d | shr d | inc d | dec d | copy _ d | trash d => some d
  | nop => none

/-- What the operation takes its second value from. -/
def src? : Op → Option Ref
  | ld _ s | st s _ | add _ s | sub _ s | cmp _ s | and _ s | or _ s | xor _ s => some s
  | copy s _ => some s
  | shl _ | shr _ | inc _ | dec _ | nop | trash _ => none

/-- The operation with its operands changed. -/
def mapRefs (f : Ref → Ref) : Op → Op
  | ld d s => ld (f d) (f s)
  | st s d => st (f s) (f d)
  | add d s => add (f d) (f s)
  | sub d s => sub (f d) (f s)
  | cmp d s => cmp (f d) (f s)
  | and d s => and (f d) (f s)
  | or d s => or (f d) (f s)
  | xor d s => xor (f d) (f s)
  | shl d => shl (f d)
  | shr d => shr (f d)
  | inc d => inc (f d)
  | dec d => dec (f d)
  | nop => nop
  | copy s d => copy (f s) (f d)
  | trash d => trash (f d)

/-- The operation with its pending operands settled. -/
def settled (op : Op) : Op := op.mapRefs Ref.settled

/-- An operation as reports write it. -/
def describe (op : Op) : String :=
  node "SingleOp" [("opcode", quoted op.opcode), ("dest", orNone (op.dest?.map Ref.describe)),
    ("src", orNone (op.src?.map Ref.describe))]

end Op

/-- Which way a counting loop goes. -/
inductive Direction where
  | up
  | down
  deriving DecidableEq

/-- The step of a counting loop. -/
def Direction.step : Direction → Int
  | up => 1
  | down => -1

mutual

/-- An instruction. -/
inductive Instr where
  | op (line : Nat) (op : Op)
  | reset (line : Nat) (pointer : Ref) (offset : Const)
  | call (line : Nat) (target : String)
  | goto (line : Nat) (target : String)
  | ifThen (line : Nat) (src : Ref) (inverted : Bool) (yes : Block)
  | ifElse (line : Nat) (src : Ref) (inverted : Bool) (yes no : Block)
  | loop (line : Nat) (src : Option Ref) (inverted : Bool) (body : Block)
  | count (line : Nat) (dest : Ref) (direction : Direction) (final : Const) (body : Block)
  | interruptsOff (line : Nat) (body : Block)
  | save (line : Nat) (locations : List Ref) (body : Block)
  | pointInto (line : Nat) (pointer table : Ref) (body : Block)

/-- A sequence of instructions, with the line at its end. -/
inductive Block where
  | nil (line : Nat)
  | cons (head : Instr) (tail : Block)

end

/-- The line recorded for an instruction. -/
def Instr.line : Instr → Nat
  | op line _ | reset line _ _ | call line _ | goto line _ | ifThen line _ _ _
  | ifElse line _ _ _ _ | loop line _ _ _ | count line _ _ _ _ | interruptsOff line _
  | save line _ _ | pointInto line _ _ _ => line

/-- Whether the instruction is a jump to another routine. -/
def Instr.isGoto : Instr → Bool
  | goto .. => true
  | _ => false

namespace Block

/-- The line recorded for a block. -/
def line : Block → Nat
  | nil l => l
  | cons _ tail => tail.line

/-- The instructions of a block. -/
def instrs : Block → List Instr
  | nil _ => []
  | cons head tail => head :: tail.instrs

/-- The block of some instructions. -/
def ofList (line : Nat) : List Instr → Block
  | [] => nil line
  | i :: rest => cons i (ofList line rest)

/-- Whether one of the block's own instructions is a jump to another routine. -/
def hasGoto (b : Block) : Bool := b.instrs.any Instr.isGoto

end Block

/-- A block as reports write it, from its instructions. -/
def blockText (instrs : List String) : String := node "Block" [("instrs", bracketed instrs)]

mutual

/-- An instruction as reports write it. -/
def Instr.describe : Instr → String
  | .op _ op => op.describe
  | .reset _ p o => node "Reset" [("pointer", p.describe), ("offset", o.describe)]
  | .call _ t => node "Call" [("location", "ForwardReference(" ++ quoted t ++ ")")]
  | .goto _ t => node "GoTo" [("location", "ForwardReference(" ++ quoted t ++ ")")]
  | .ifThen _ src inv yes => node "If" [("block1", blockText yes.describeAll), ("block2", "None"),
      ("src", src.describe), ("inverted", truth inv)]
  | .ifElse _ src inv yes no => node "If" [("block1", blockText yes.describeAll),
      ("block2", blockText no.describeAll), ("src", src.describe), ("inverted", truth inv)]
  | .loop _ src inv body => node "Repeat" [("block", blockText body.describeAll),
      ("src", orNone (src.map Ref.describe)), ("inverted", truth inv)]
  | .count _ dest dir final body => node "For" [("block", blockText body.describeAll),
      ("dest", dest.describe), ("direction", toString dir.step), ("final", final.describe)]
  | .interruptsOff _ body => node "WithInterruptsOff" [("block", blockText body.describeAll)]
  | .save _ locs body => node "Save" [("block", blockText body.describeAll),
      ("locations", bracketed (locs.map Ref.describe))]
  | .pointInto _ p t body => node "PointInto" [("block", blockText body.describeAll),
      ("pointer", p.describe), ("table", t.describe)]

/-- The instructions of a block as reports write them. -/
def Block.describeAll : Block → List String
  | .nil _ => []
  | .cons head tail => head.describe :: tail.describeAll

end

/-- A block as reports write it. -/
def Block.describe (b : Block) : String := blockText b.describeAll

end CheckedAsm
