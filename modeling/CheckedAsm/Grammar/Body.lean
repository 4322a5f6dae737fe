import CheckedAsm.Grammar.Storage
/-! # Blocks and instructions

The productions for the bodies of routines. A name that is declared neither globally nor in the
routine at hand is left pending. -/

namespace CheckedAsm.Grammar

open Parse

/-- What names mean inside a body: the symbol table and the routine at hand. -/
structure Scope where
  symbols : Symbols
  routine : String

namespace Scope

/-- What a name refers to. -/
def lookup (sc : Scope) (name : String) (site : Site) : Ref :=
  if sc.symbols.hasGlobal name then .location name
  else if sc.routine ≠ "" ∧ sc.symbols.hasLocal sc.routine name then .location name
  else .pending name site

/-- Whether a text names a constant. -/
def isConst (sc : Scope) (text : Option String) : Bool :=
  match text with
  | none => false
  | some t => sc.symbols.consts.has t

end Scope

/-- A constant or a location. -/
def operand (sc : Scope) : Parse Ref := do
  let t ← text?
  if t = some "on" ∨ t = some "off" ∨ t = some "word" ∨ sc.isConst t
      ∨ (← ask fun c => c.here.token.isInteger) then
    let c ← const sc.symbols
    pure (.constant c)
  else
    let site ← ask Cursor.site
    advance
    match t with
    | none => pure (.pending "" site)
    | some n => pure (sc.lookup n site)

/-- A constant, a location, or a cell of a table. -/
def indexedOperand (sc : Scope) : Parse Ref := do
  let base ← operand sc
  if ← consume "+" then
    if sc.isConst (← text?) ∨ (← ask fun c => c.here.token.isInteger) then
      let offset ← const sc.symbols
      expect "+"
      let index ← operand sc
      pure (.indexed base (.constant offset) index)
    else
      let index ← operand sc
      pure (.indexed base (.constant ⟨.byte, 0⟩) index)
  else pure base

/-- Any operand: also the cell that a pointer leads to. -/
def anyOperand (sc : Scope) : Parse Ref := do
  if ← consume "[" then
    let base ← operand sc
    expect "]"
    expect "+"
    expect "y"
    pure (.indirect base)
  else indexedOperand sc

/-- Two operands divided by a comma. -/
def operands (first second : Parse Ref) : Parse (Ref × Ref) := do
  let r ← first
  expect ","
  let s ← second
  pure (r, s)

/-- An instruction with the line reached after it. -/
def atLine (make : Nat → Instr) : Parse Instr := do
  let l ← line
  pure (make l)

/-- A single operation with two operands, the first of them a constant or a location. -/
def binary (sc : Scope) (make : Ref → Ref → Op) (second : Parse Ref) : Parse Instr := do
  advance
  let (r, s) ← operands (operand sc) second
  atLine (.op · (make r s))

/-- A single operation with a destination only. -/
def unary (dest : Parse Ref) (make : Ref → Op) : Parse Instr := do
  advance
  let d ← dest
  atLine (.op · (make d))

/-- The single operations. Nothing else starts with their names. -/
def singleOp (sc : Scope) : String → Option (Parse Instr)
  | "ld" => some (binary sc .ld (anyOperand sc))
  | "add" => some (binary sc .add (indexedOperand sc))
  | "sub" => some (binary sc .sub (indexedOperand sc))
  | "cmp" => some (binary sc .cmp (indexedOperand sc))
  | "and" => some (binary sc .and (indexedOperand sc))
  | "or" => some (binary sc .or (indexedOperand sc))
  | "xor" => some (binary sc .xor (indexedOperand sc))
  | "st" => some (binary sc .st (anyOperand sc))
  | "shl" => some (unary (indexedOperand sc) .shl)
  | "shr" => some (unary (indexedOperand sc) .shr)
  | "inc" => some (unary (indexedOperand sc) .inc)
  | "dec" => some (unary (indexedOperand sc) .dec)
  | "trash" => some (unary (operand sc) .trash)
  | "nop" => some do
    advance
    atLine (.op · .nop)
  | "copy" => some do
    advance
    let (s, d) ← operands (anyOperand sc) (anyOperand sc)
    atLine (.op · (.copy s d))
  | _ => none

/-- A flag, perhaps inverted by `not`. -/
def condition (sc : Scope) : Parse (Bool × Ref) := do
  let inverted ← consume "not"
  let src ← operand sc
  pure (inverted, src)

/-- The direction of a counting loop. -/
def direction : Parse Direction := do
  if ← consume "down" then pure .down
  else if ← consume "up" then pure .up
  else
    let t ← text?
    fail (.noDirection t)

/-- The other instructions, given how to read a block. -/
def structured (sc : Scope) (block : Parse Block) : String → Option (Parse Instr)
  | "if" => some do
    advance
    let (inverted, src) ← condition sc
    let yes ← block
    if ← consume "else" then
      let no ← block
      atLine (.ifElse · src inverted yes no)
    else atLine (.ifThen · src inverted yes)
  | "repeat" => some do
    advance
    let body ← block
    if ← consume "until" then
      let (inverted, src) ← condition sc
      atLine (.loop · (some src) inverted body)
    else
      expect "forever"
      atLine (.loop · none false body)
  | "for" => some do
    advance
    let dest ← operand sc
    let dir ← direction
    expect "to"
    let final ← const sc.symbols
    let body ← block
    atLine (.count · dest dir final body)
  | "reset" => some do
    advance
    let pointer ← operand sc
    let offset ← const sc.symbols
    atLine (.reset · pointer offset)
  | "call" => some do
    advance
    let t ← take
    atLine (.call · (t.getD ""))
  | "goto" => some do
    advance
    let t ← take
    atLine (.goto · (t.getD ""))
  | "with" => some do
    advance
    expect "interrupts"
    expect "off"
    let body ← block
    atLine (.interruptsOff · body)
  | "save" => some do
    advance
    let locations ← commaList (operand sc)
    let body ← block
    atLine (.save · locations body)
  | "point" => some do
    advance
    let pointer ← operand sc
    expect "into"
    let table ← operand sc
    let body ← block
    atLine (.pointInto · pointer table body)
  | _ => none

/-- An instruction, given how to read a block. -/
def instr (sc : Scope) (block : Parse Block) : Parse Instr := do
  let t ← text?
  match t.bind fun w => (singleOp sc w).orElse fun _ => structured sc block w with
  | some p => p
  | none => fail (.badOpcode t)

/-- The instructions up to the closing brace; a jump to another routine is the last one. Each
instruction takes a token, so as much `fuel` as there are lexemes suffices. -/
def instrs (item : Parse Instr) : Nat → Parse (List Instr)
  | 0 => abort .tooDeep
  | fuel + 1 => do
    if ← on "\x7d" then pure []
    else
      let i ← item
      if i.isGoto then pure [i]
      else
        let rest ← instrs item fuel
        pure (i :: rest)

/-- A block, with blocks nested in it at most `fuel` deep. Each level takes a token. -/
def blockWithin (sc : Scope) : Nat → Parse Block
  | 0 => abort .tooDeep
  | fuel + 1 => do
    expect "\x7b"
    let is ← fun c => instrs (instr sc (blockWithin sc fuel)) (c.remaining + 1) c
    expect "\x7d"
    let l ← line
    pure (Block.ofList l is)

/-- A block. -/
def block (sc : Scope) : Parse Block := fun c => blockWithin sc (c.remaining + 1) c

end CheckedAsm.Grammar
