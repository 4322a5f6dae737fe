import CheckedAsm.Codegen.Setting
/-! # Code for single operations

What the machine does for each single operation. Operands that the machine cannot combine are refused
as unsupported; the reports name the instruction at hand. -/

namespace CheckedAsm.Codegen

/-- The location of a reference by its name. -/
def direct (cs : CodeSetting) (ls : Labels) (r : Ref) : Except Fault Operand := do
  let id ← cs.labelOf r
  pure (.direct ls id)

/-- A cell of a table in the given mode. -/
def cell (cs : CodeSetting) (mode : Target → Operand) (base offset : Ref) : Except Fault Operand := do
  let id ← cs.labelOf base
  let d ← offset.offsetValue
  pure (mode (.offset id d))

/-- A cell of a table, in the mode of its index. -/
def cellBy (cs : CodeSetting) (base offset index : Ref) : Except Fault Operand := do
  let mode ← indexMode index
  cell cs mode base offset

/-! ### Loads and stores -/

/-- The source of a load into an index register: a cell indexed by the other one, or a location. -/
def indexSource (cs : CodeSetting) (ls : Labels) (other : Ref) (mode : Target → Operand)
    (src : Ref) : Except Fault Operand :=
  match src with
  | .constant c => Operand.ofInt c.value
  | .indexed base offset index =>
    if index = other then cell cs mode base offset else direct cs ls src
  | _ => direct cs ls src

/-- The source of a load into the accumulator. -/
def accSource (cs : CodeSetting) (ls : Labels) (src : Ref) : Except Fault Operand :=
  match src with
  | .constant c => Operand.ofInt c.value
  | .indexed base offset index =>
    if index = .x then cell cs .absoluteX base offset
    else if index = .y then cell cs .absoluteY base offset
    else direct cs ls src
  | .indirect base => do
    if (← cs.typeOf base).isPointer then
      let id ← cs.labelOf base
      pure (.indirectY (.label id))
    else direct cs ls src
  | _ => direct cs ls src

/-- Code for a load. -/
def load (cs : CodeSetting) (ls : Labels) (i : Instr) (dest src : Ref) :
    Except Fault (List Code) := do
  if dest = .a then
    if src = .x then pure [⟨.txa, .implied⟩]
    else if src = .y then pure [⟨.tya, .implied⟩]
    else
      let o ← accSource cs ls src
      pure [⟨.lda, o⟩]
  else if dest = .x then
    if src = .a then pure [⟨.tax, .implied⟩]
    else
      let o ← indexSource cs ls .y .absoluteY src
      pure [⟨.ldx, o⟩]
  else if dest = .y then
    if src = .a then pure [⟨.tay, .implied⟩]
    else
      let o ← indexSource cs ls .x .absoluteX src
      pure [⟨.ldy, o⟩]
  else .error (.unsupported i)

/-- The instruction that stores a register. -/
def storeMnemonic? (src : Ref) : Option Mnemonic :=
  if src = .a then some .sta
  else if src = .x then some .stx
  else if src = .y then some .sty
  else none

/-- The destination of a store. -/
def storeTarget (cs : CodeSetting) (ls : Labels) (dest : Ref) : Except Fault Operand :=
  match dest with
  | .indexed base offset index =>
    if index = .x then cell cs .absoluteX base offset
    else if index = .y then cell cs .absoluteY base offset
    else .error (.unknownRef index)
  | .indirect base => do
    if (← cs.typeOf base).isPointer then
      let id ← cs.labelOf base
      pure (.indirectY (.label id))
    else direct cs ls dest
  | _ => direct cs ls dest

/-- Code for a store. Storing a constant to the carry sets or clears it. -/
def store (cs : CodeSetting) (ls : Labels) (i : Instr) (src dest : Ref) :
    Except Fault (List Code) := do
  if dest = .c ∧ src = .constant ⟨.bit, 0⟩ then pure [⟨.clc, .implied⟩]
  else if dest = .c ∧ src = .constant ⟨.bit, 1⟩ then pure [⟨.sec, .implied⟩]
  else
    let o ← storeTarget cs ls dest
    match storeMnemonic? src with
    | some m => pure [⟨m, o⟩]
    | none => .error (.unsupported i)

/-! ### Arithmetic -/

/-- The source of an operation on the accumulator, given how a plain location is addressed. -/
def accOperand (cs : CodeSetting) (plain : LabelId → Operand) (src : Ref) : Except Fault Operand :=
  match src with
  | .constant c => Operand.ofInt c.value
  | .indexed base offset index => cellBy cs base offset index
  | _ => do
    let id ← cs.labelOf src
    pure (plain id)

/-- The lower and the upper byte of a source. -/
def sourceBytes (cs : CodeSetting) (i : Instr) (src : Ref) : Except Fault (Operand × Operand) :=
  match src with
  | .constant c => .ok (.ofByte c.lowByte, .ofByte c.highByte)
  | .location n => do
    let id ← cs.label n
    pure (.wide id, .wideNext id)
  | _ => .error (.unsupported i)

/-- One byte of a sum: taken into the accumulator, combined, and put back. -/
def sumByte (m : Mnemonic) (dest src : Operand) : List Code :=
  [⟨.lda, dest⟩, ⟨m, src⟩, ⟨.sta, dest⟩]

/-- Code for an addition or subtraction to a location. Bytes are combined from the lowest up. -/
def sumLocation (cs : CodeSetting) (i : Instr) (m : Mnemonic) (pointers : Bool) (dest src : Ref) :
    Except Fault (List Code) := do
  let t ← cs.typeOf src
  let u ← cs.typeOf dest
  if t = .byte ∧ u = .byte then
    let (low, _) ← sourceBytes cs i src
    let id ← cs.labelOf dest
    pure (sumByte m (.wide id) low)
  else if t = .word ∧ u = .word then
    let (low, high) ← sourceBytes cs i src
    let id ← cs.labelOf dest
    pure (sumByte m (.wide id) low ++ sumByte m (.wideNext id) high)
  else if t = .word ∧ u = .pointer ∧ pointers then
    let (low, high) ← sourceBytes cs i src
    let id ← cs.labelOf dest
    pure (sumByte m (.page id) low ++ sumByte m (.pageNext id) high)
  else .error (.unsupported i)

/-- Code for an addition or subtraction. -/
def sum (cs : CodeSetting) (i : Instr) (m : Mnemonic) (pointers : Bool) (dest src : Ref) :
    Except Fault (List Code) := do
  if dest = .x ∨ dest = .y then .error (.unsupported i)
  else if dest = .a then
    let o ← accOperand cs .wide src
    pure [⟨m, o⟩]
  else
    match dest with
    | .location _ => sumLocation cs i m pointers dest src
    | _ => .error (.unsupported i)

/-- Code for a bitwise operation. -/
def bitwise (cs : CodeSetting) (ls : Labels) (i : Instr) (m : Mnemonic) (dest src : Ref) :
    Except Fault (List Code) := do
  if dest = .a then
    let o ← accOperand cs (.direct ls) src
    pure [⟨m, o⟩]
  else .error (.unsupported i)

/-- Code for a shift. -/
def shift (cs : CodeSetting) (ls : Labels) (m : Mnemonic) (dest : Ref) :
    Except Fault (List Code) := do
  if dest = .a then pure [⟨m, .implied⟩]
  else
    match dest with
    | .indexed base offset index =>
      let o ← cellBy cs base offset index
      pure [⟨m, o⟩]
    | _ =>
      let o ← direct cs ls dest
      pure [⟨m, o⟩]

/-- Code for counting one step, with the instructions for the two index registers and for others. -/
def count (cs : CodeSetting) (onX onY other : Mnemonic) (dest : Ref) : Except Fault (List Code) := do
  if dest = .x then pure [⟨onX, .implied⟩]
  else if dest = .y then pure [⟨onY, .implied⟩]
  else
    match dest with
    | .indexed base offset index =>
      let o ← cellBy cs base offset index
      pure [⟨other, o⟩]
    | _ =>
      let id ← cs.labelOf dest
      pure [⟨other, .wide id⟩]

/-- Code for counting one step in a direction. -/
def countStep (cs : CodeSetting) (dir : Direction) (dest : Ref) : Except Fault (List Code) :=
  match dir with
  | .up => count cs .inx .iny .inc dest
  | .down => count cs .dex .dey .dec dest

/-! ### Comparison -/

/-- The instruction that compares with a register. -/
def compareMnemonic? (dest : Ref) : Option Mnemonic :=
  match dest.name with
  | "a" => some .cmp
  | "x" => some .cpx
  | "y" => some .cpy
  | _ => none

/-- Code for the comparison of a word. The upper bytes are compared only where the lower ones agree. -/
def compareWord (cs : CodeSetting) (i : Instr) (e : Emitter) (src dest : Ref) :
    Except Fault Emitter := do
  let (low, high) ← sourceBytes cs i src
  let id ← cs.labelOf dest
  let e := e.codes [⟨.lda, .wide id⟩, ⟨.cmp, low⟩]
  let (done, e) := e.newLabel ⟨"end_label", none, none⟩
  let e := e.codes [⟨.bne, .relative done⟩, ⟨.lda, .wideNext id⟩, ⟨.cmp, high⟩]
  pure (e.resolve done)

/-- Whether the source of a comparison is a word. -/
def isWordSource (cs : CodeSetting) : Ref → Except Fault Bool
  | .location n => do
    let t ← cs.typeOfName n
    pure (decide (t = .word))
  | .constant c => .ok (decide (c.ty = .word))
  | _ => .ok false

/-- Code for a comparison. -/
def compare (cs : CodeSetting) (i : Instr) (e : Emitter) (src dest : Ref) :
    Except Fault Emitter := do
  if ← isWordSource cs src then compareWord cs i e src dest
  else
    match compareMnemonic? dest with
    | none => .error (.unsupported i)
    | some m =>
      let o ← accOperand cs .wide src
      pure (e.codes [⟨m, o⟩])

/-! ### Copies -/

/-- Moves one byte through the accumulator. -/
def move (src dest : Operand) : List Code := [⟨.lda, src⟩, ⟨.sta, dest⟩]

/-- The two bytes of a label's address. -/
def addressBytes (id : LabelId) : Operand × Operand :=
  (.immediate (.high (.label id)), .immediate (.low (.label id)))

/-- The two bytes of a location. -/
def locationBytes (id : LabelId) : Operand × Operand := (.wide id, .wideNext id)

/-- The two bytes of a constant. -/
def constBytes (c : Const) : Operand × Operand := (.ofByte c.lowByte, .ofByte c.highByte)

/-- Moves two bytes. -/
def moveBoth (src dest : Operand × Operand) : List Code := move src.1 dest.1 ++ move src.2 dest.2

/-- The two bytes of a cell of a table of words: the upper bytes stand 256 places further on. -/
def cellBytes (id : LabelId) (offset index : Ref) : Except Fault (Operand × Operand) := do
  let mode ← indexMode index
  let d ← offset.offsetValue
  pure (mode (.offset id d), mode (.offset id (d + 256)))

/-- The type of a reference or, for a cell, of its base. -/
def baseType (cs : CodeSetting) : Ref → Except Fault Ty
  | .indirect base | .indexed base _ _ => cs.typeOf base
  | r => cs.typeOf r

/-- Whether the type is a table of vectors. -/
def isVectorTable : Ty → Bool
  | .table (.vector _) _ => true
  | _ => false

/-- Whether values of the type are copied at all. -/
def isCopied : Ty → Bool
  | .byte | .word | .vector _ | .routine _ => true
  | _ => false

/-- Code for a copy between plain operands of the given types. -/
def copyPlain (cs : CodeSetting) (src dest : Ref) (t u : Ty) : Except Fault (List Code) := do
  match src, t, u with
  | .constant c, .word, .word =>
    let d ← cs.labelOf dest
    pure (moveBoth (constBytes c) (locationBytes d))
  | .constant _, .byte, .byte => .error (.noCodeFor t)
  | _, .byte, .byte =>
    let s ← cs.labelOf src
    let d ← cs.labelOf dest
    pure (move (.wide s) (.wide d))
  | _, .word, .word | _, .vector _, .vector _ =>
    let s ← cs.labelOf src
    let d ← cs.labelOf dest
    pure (moveBoth (locationBytes s) (locationBytes d))
  | _, .routine _, .vector _ =>
    let s ← cs.labelOf src
    let d ← cs.labelOf dest
    pure (moveBoth (addressBytes s) (locationBytes d))
  | _, _, _ => .error (.noCodeFor t)

/-- The fault of a copy from or to a cell that no code is known for. -/
def copyFault (src : Ref) (t : Ty) : Fault :=
  match src with
  | .indirect _ | .indexed .. => .noCopy
  | _ => if isCopied t then .noCopy else .noCodeFor t

/-- Code for a copy into the cell behind a pointer. -/
def copyToIndirect (cs : CodeSetting) (src base : Ref) : Except Fault (List Code) := do
  match src with
  | .constant c =>
    let d ← cs.labelOf base
    let o ← Operand.ofInt c.value
    pure (move o (.indirectY (.label d)))
  | .indirect from_ =>
    let s ← cs.labelOf from_
    let d ← cs.labelOf base
    pure (move (.indirectY (.label s)) (.indirectY (.label d)))
  | _ =>
    let s ← cs.labelOf src
    let d ← cs.labelOf base
    pure (move (.wide s) (.indirectY (.label d)))

/-- Code for a copy into a cell of a table of words or vectors. -/
def copyToCell (cs : CodeSetting) (src : Ref) (t : Ty) (base offset index : Ref) :
    Except Fault (List Code) := do
  match src, t with
  | .constant c, _ =>
    let d ← cs.labelOf base
    let cell ← cellBytes d offset index
    pure (moveBoth (constBytes c) cell)
  | _, .routine _ =>
    let s ← cs.labelOf src
    let d ← cs.labelOf base
    let cell ← cellBytes d offset index
    pure (moveBoth (addressBytes s) cell)
  | _, _ =>
    let s ← cs.labelOf src
    let d ← cs.labelOf base
    let cell ← cellBytes d offset index
    pure (moveBoth (locationBytes s) cell)

/-- Code for a copy. Here `t` and `u` are the types of the operands or, for cells, of their bases. -/
def copy (cs : CodeSetting) (src dest : Ref) : Except Fault (List Code) := do
  let t ← baseType cs src
  let u ← baseType cs dest
  match src, dest with
  | .constant _, .indirect base | .location _, .indirect base =>
    if t = .byte ∧ u.isPointer then copyToIndirect cs src base else .error (copyFault src t)
  | .indirect _, .indirect base =>
    if t.isPointer ∧ u.isPointer then copyToIndirect cs src base else .error (copyFault src t)
  | .indirect base, .location _ =>
    if t.isPointer ∧ u = .byte then
      let s ← cs.labelOf base
      let d ← cs.labelOf dest
      pure (move (.indirectY (.label s)) (.wide d))
    else .error (copyFault src t)
  | .location _, .indexed base offset index =>
    if (t = .word ∧ u.isTableOf .word) ∨ ((t.isVector ∨ t.isRoutine) ∧ isVectorTable u) then
      copyToCell cs src t base offset index
    else .error (copyFault src t)
  | .constant _, .indexed base offset index =>
    if t = .word ∧ u.isTableOf .word then copyToCell cs src t base offset index
    else .error (copyFault src t)
  | .indexed base offset index, .location _ =>
    if (t.isTableOf .word ∧ u = .word) ∨ (isVectorTable t ∧ u.isVector) then
      let s ← cs.labelOf base
      let d ← cs.labelOf dest
      let cell ← cellBytes s offset index
      pure (moveBoth cell (locationBytes d))
    else .error (copyFault src t)
  | .constant _, _ | .location _, _ => copyPlain cs src dest t u
  | _, _ => .error (copyFault src t)

/-! ### All operations -/

/-- Adds the code for a single operation. -/
def single (cs : CodeSetting) (i : Instr) (e : Emitter) (op : Op) : Except Fault Emitter :=
  let ls := e.labels
  match op with
  | .ld dest src => (load cs ls i dest src).map e.codes
  | .st src dest => (store cs ls i src dest).map e.codes
  | .add dest src => (sum cs i .adc true dest src).map e.codes
  | .sub dest src => (sum cs i .sbc false dest src).map e.codes
  | .cmp dest src => compare cs i e src dest
  | .and dest src => (bitwise cs ls i .and dest src).map e.codes
  | .or dest src => (bitwise cs ls i .ora dest src).map e.codes
  | .xor dest src => (bitwise cs ls i .eor dest src).map e.codes
  | .inc dest => (countStep cs .up dest).map e.codes
  | .dec dest => (countStep cs .down dest).map e.codes
  | .shl dest => (shift cs ls .rol dest).map e.codes
  | .shr dest => (shift cs ls .ror dest).map e.codes
  | .copy src dest => (copy cs src dest).map e.codes
  | .trash _ => .ok e
  | .nop => .ok (e.codes [⟨.nop, .implied⟩])

end CheckedAsm.Codegen
