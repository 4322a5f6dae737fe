import CheckedAsm.Analysis.Context
/-! # Effects of single operations

Each single operation checks the types of its operands, requires the values it reads, and records what
it writes and spoils. -/

namespace CheckedAsm

/-- The instruction at hand: where breaches are reported, and how reports write it. -/
structure Focus where
  setting : Setting
  instr : Instr

namespace Focus

/-- A breach of a rule, reported against the instruction. -/
def reject (f : Focus) (rule : Rule) (detail : Detail) : Fault :=
  .rejected rule (.instr f.instr.line) detail

/-- Requires a constant or a location to be of a type. -/
def assertType (f : Focus) (ty : Ty) (r : Ref) : Except Fault Unit := do
  if (← f.setting.typeOf r) ≠ ty then
    .error (f.setting.reject .typeMismatch (.named r none))

/-- The breach of two operands that do not go together. -/
def mismatch (f : Focus) (r s : Ref) : Fault := f.reject .typeMismatch (.pair r s)

/-- Whether the base is a pointer and the other operand a byte. The pointer is looked at first. -/
def pointerAndByte (f : Focus) (base other : Ref) : Except Fault Bool := do
  if (← f.setting.typeOf base).isPointer then
    let t ← f.setting.typeOf other
    pure (decide (t = .byte))
  else pure false

/-- The table behind a pointer that is read through. -/
def readOrigin (f : Focus) (cx : Context) (pointer : Ref) : Except Fault Unit :=
  match cx.getAssoc pointer with
  | none => .error (f.reject .unmeaningfulRead (.ref pointer))
  | some origin => cx.assertMeaningful f.setting origin

/-- Writes to the table behind a pointer. -/
def writeTarget (f : Focus) (cx : Context) (pointer : Ref) : Except Fault Context :=
  match cx.getAssoc pointer with
  | none => .error (f.reject .forbiddenWrite (.ref pointer))
  | some target => cx.write f.setting [target]

/-- Checks a read of a byte from a table into a byte. -/
def readTable (f : Focus) (cx : Context) (base offset index dest : Ref) : Except Fault Unit := do
  let s := f.setting
  let ok ← if (← s.typeOf base).isTableOf .byte then do
      let t ← s.typeOf dest
      pure (decide (t = .byte))
    else pure false
  if !ok then .error (f.reject .typeMismatch (.names base dest))
  cx.assertAllMeaningful s [.indexed base offset index, index]
  cx.assertInRange s index base offset

/-- Writes to a byte of a table. -/
def writeTable (f : Focus) (cx : Context) (base offset index : Ref) : Except Fault Context := do
  let s := f.setting
  if !(← s.typeOf base).isTableOf .byte then .error (f.reject .typeMismatch (.named base none))
  cx.assertMeaningful s index
  cx.assertInRange s index base offset
  cx.write s [base]

/-- Reads an operand of byte type, which may be a cell of a table. -/
def readByte (f : Focus) (cx : Context) (dest : Ref) : Ref → Except Fault Unit
  | .indexed base offset index => f.readTable cx base offset index dest
  | src => do
    f.assertType .byte src
    f.assertType .byte dest

/-! ### Moves -/

/-- Loads a register. -/
def load (f : Focus) (cx : Context) (dest src : Ref) : Except Fault Context := do
  let s := f.setting
  let cx ← match src with
    | .indexed base offset index => do
      f.readTable cx base offset index dest
      pure cx
    | .indirect base => do
      if !(← f.pointerAndByte base dest) then .error (f.mismatch src dest)
      f.readOrigin cx base
      cx.assertAllMeaningful s [base, .y]
      pure cx
    | _ => do
      if (← s.typeOf src) ≠ (← s.typeOf dest) then
        .error (f.reject .typeMismatch (.names src dest))
      cx.assertMeaningful s src
      cx.copyRange s src dest
  cx.write s [dest, .z, .n]

/-- Stores a register. -/
def store (f : Focus) (cx : Context) (src dest : Ref) : Except Fault Context := do
  let s := f.setting
  let cx ← match dest with
    | .indexed base offset index => do
      if (← s.typeOf src) ≠ .byte then .error (f.mismatch src dest)
      f.writeTable cx base offset index
    | .indirect base => do
      if !(← f.pointerAndByte base src) then .error (f.mismatch src dest)
      cx.assertAllMeaningful s [base, .y]
      f.writeTarget cx base
    | _ => do
      if (← s.typeOf src) ≠ (← s.typeOf dest) then
        .error (f.reject .typeMismatch (.refs src dest))
      cx.write s [dest]
  cx.assertMeaningful s src
  pure cx

/-! ### Arithmetic -/

/-- What an addition or subtraction writes: any result is possible. -/
def writeSum (f : Focus) (cx : Context) (dest : Ref) : Except Fault Context := do
  let cx ← cx.write f.setting [dest, .z, .n, .c, .v]
  cx.widen f.setting dest

/-- Bytes are added in the accumulator, which is spoiled unless it is the destination. -/
def byteSum (f : Focus) (cx : Context) (dest src : Ref) : Except Fault Context := do
  f.assertType .byte src
  f.assertType .byte dest
  pure (if dest = .a then cx else cx.spoil .a)

/-- Adds with carry. -/
def add (f : Focus) (cx : Context) (dest src : Ref) : Except Fault Context := do
  let s := f.setting
  cx.assertAllMeaningful s [src, dest, .c]
  let cx ← match src with
    | .indexed base offset index => do
      f.readTable cx base offset index dest
      pure cx
    | _ => do
      if (← s.typeOf src) = .byte then f.byteSum cx dest src
      else
        f.assertType .word src
        let t ← s.typeOf dest
        if t = .word ∨ t = .pointer then pure (cx.spoil .a)
        else
          f.assertType .word dest
          pure cx
  f.writeSum cx dest

/-- Subtracts with borrow. -/
def sub (f : Focus) (cx : Context) (dest src : Ref) : Except Fault Context := do
  let s := f.setting
  cx.assertAllMeaningful s [src, dest, .c]
  let cx ← match src with
    | .indexed base offset index => do
      f.readTable cx base offset index dest
      pure cx
    | _ => do
      if (← s.typeOf src) = .byte then f.byteSum cx dest src
      else
        f.assertType .word src
        f.assertType .word dest
        pure (cx.spoil .a)
  f.writeSum cx dest

/-- Compares. -/
def compare (f : Focus) (cx : Context) (dest src : Ref) : Except Fault Context := do
  let s := f.setting
  cx.assertAllMeaningful s [src, dest]
  let cx ← match src with
    | .indexed base offset index => do
      f.readTable cx base offset index dest
      pure cx
    | _ => do
      if (← s.typeOf src) = .byte then
        f.assertType .byte src
        f.assertType .byte dest
        pure cx
      else
        f.assertType .word src
        f.assertType .word dest
        pure (cx.spoil .a)
  cx.write s [.z, .n, .c]

/-! ### Bits -/

/-- What all bitwise operations do. -/
def bitwise (f : Focus) (cx : Context) (dest src : Ref) : Except Fault Context := do
  f.readByte cx dest src
  cx.assertAllMeaningful f.setting [src, dest]
  cx.write f.setting [dest, .z, .n]

/-- Conjunction: the result is no greater than the second operand. -/
def conjoin (f : Focus) (cx : Context) (dest src : Ref) : Except Fault Context := do
  let cx ← f.bitwise cx dest src
  match src with
  | .indexed .. => pure cx
  | _ =>
    let range ← cx.getRange f.setting src
    cx.setTop f.setting dest range.top

/-- The other bitwise operations: any result is possible. -/
def disjoin (f : Focus) (cx : Context) (dest src : Ref) : Except Fault Context := do
  let cx ← f.bitwise cx dest src
  cx.widen f.setting dest

/-- Shifts through the carry. -/
def shift (f : Focus) (cx : Context) (dest : Ref) : Except Fault Context := do
  let s := f.setting
  cx.assertAllMeaningful s [dest, .c]
  match dest with
  | .indexed base offset index =>
    let cx ← f.writeTable cx base offset index
    cx.write s [base, .z, .n, .c]
  | _ =>
    f.assertType .byte dest
    let cx ← cx.write s [dest, .z, .n, .c]
    cx.widen s dest

/-! ### Counting -/

/-- Counts one step. A value that is known exactly stays known, unless it wraps around. -/
def count (f : Focus) (cx : Context) (dir : Direction) (dest : Ref) : Except Fault Context := do
  let s := f.setting
  cx.assertMeaningful s dest
  match dest with
  | .indexed base offset index =>
    let cx ← f.writeTable cx base offset index
    cx.write s [base, .z, .n]
  | _ =>
    f.assertType .byte dest
    let cx ← cx.write s [dest, .z, .n]
    let range ← cx.getRange s dest
    if range.bottom = range.top then
      match range.top with
      | .int n =>
        let inside : Bool := match dir with
          | .up => n < 255
          | .down => n > 0
        if inside then cx.setRange s dest (.ofInts (n + dir.step, n + dir.step))
        else cx.widen s dest
      | _ => .error .incomparable
    else cx.widen s dest

/-! ### Copying -/

/-- Requires that what one routine affects stays within what another one declares. -/
def assertWithin (s : Setting) (what : Constraint) (affecting limiting : Signature) :
    Except Fault Unit :=
  if ((what.of affecting).minus (what.of limiting)).isEmpty then .ok ()
  else .error (s.reject .incompatibleConstraints (.exceeds what affecting limiting))

/-- Whether a value of the source type may be copied into a cell of the table type. -/
def fitsCell (src table : Ty) : Bool :=
  match src, table with
  | .word, .table .word _ => true
  | .vector of, .table cell _ => of.executableCompatible cell
  | .routine sig, .table cell _ => (Ty.routine sig).executableCompatible cell
  | _, _ => false

/-- Whether a cell of the table type may be copied into a location of the destination type. -/
def fitsLocation (table dest : Ty) : Bool :=
  match table, dest with
  | .table .word _, .word => true
  | .table cell _, .vector of => cell.executableCompatible of
  | _, _ => false

/-- What a copy does, once its types are known to go together. -/
def copied (cx : Context) : Context := (cx.touchAll [.a, .z, .n]).forgetAll [.a, .z, .n]

/-- Copies into the cell behind a pointer. -/
def copyToIndirect (f : Focus) (cx : Context) (src base : Ref) : Except Fault Context := do
  let s := f.setting
  let ok ← if (← s.typeOf src) = .byte then pure (← s.typeOf base).isPointer else pure false
  if !ok then .error (f.mismatch src (.indirect base))
  cx.assertAllMeaningful s [src, base, .y]
  f.writeTarget cx base

/-- Copies from the cell behind a pointer. -/
def copyFromIndirect (f : Focus) (cx : Context) (base dest : Ref) : Except Fault Context := do
  let s := f.setting
  if !(← f.pointerAndByte base dest) then .error (f.mismatch (.indirect base) dest)
  cx.assertAllMeaningful s [base, .y]
  f.readOrigin cx base
  cx.write s [dest]

/-- Copies between the cells behind two pointers. -/
def copyBetweenIndirect (f : Focus) (cx : Context) (from_ to_ : Ref) : Except Fault Context := do
  let s := f.setting
  let ok ← if (← s.typeOf from_).isPointer then pure (← s.typeOf to_).isPointer else pure false
  if !ok then .error (f.mismatch (.indirect from_) (.indirect to_))
  cx.assertAllMeaningful s [from_, to_, .y]
  f.readOrigin cx from_
  f.writeTarget cx to_

/-- Copies into a cell of a table. -/
def copyToCell (f : Focus) (cx : Context) (src base offset index : Ref) : Except Fault Context := do
  let s := f.setting
  if !fitsCell (← s.typeOf src) (← s.typeOf base) then
    .error (f.mismatch src (.indexed base offset index))
  cx.assertInRange s index base offset
  cx.assertAllMeaningful s [src, base, index]
  cx.write s [base]

/-- Copies from a cell of a table. -/
def copyFromCell (f : Focus) (cx : Context) (base offset index dest : Ref) :
    Except Fault Context := do
  let s := f.setting
  if !fitsLocation (← s.typeOf base) (← s.typeOf dest) then
    .error (f.mismatch (.indexed base offset index) dest)
  cx.assertInRange s index base offset
  cx.assertAllMeaningful s [base, index]
  cx.write s [dest]

/-- Copies into a location, which may be a vector for a routine. -/
def copyToLocation (f : Focus) (cx : Context) (src dest : Ref) : Except Fault Context := do
  let s := f.setting
  let t ← s.typeOf src
  let u ← s.typeOf dest
  if t ≠ u then
    match t, u with
    | .routine sig, .vector (.routine limit) =>
      assertWithin s .inputs sig limit
      assertWithin s .outputs sig limit
      assertWithin s .trashes sig limit
    | .routine _, .vector _ => .error .noConstraints
    | _, _ => .error (f.mismatch src dest)
  cx.assertMeaningful s src
  cx.write s [dest]

/-- Copies a value. The accumulator serves on the way and is spoiled. -/
def copy (f : Focus) (cx : Context) (src dest : Ref) : Except Fault Context := do
  if dest = .a then .error (f.reject .forbiddenWrite (.copyTarget dest))
  let plain := match src with
    | .location _ | .constant _ => true
    | _ => false
  let cx ← match src, dest with
    | .indirect base, .location _ => f.copyFromIndirect cx base dest
    | .indirect from_, .indirect to_ => f.copyBetweenIndirect cx from_ to_
    | .indexed base offset index, .location _ => f.copyFromCell cx base offset index dest
    | _, .indirect base =>
      if plain then f.copyToIndirect cx src base else .error (f.mismatch src dest)
    | _, .indexed base offset index =>
      if plain then f.copyToCell cx src base offset index else .error (f.mismatch src dest)
    | _, .location _ =>
      if plain then f.copyToLocation cx src dest else .error (f.mismatch src dest)
    | _, _ => .error (f.mismatch src dest)
  pure (copied cx)

/-- The effect of a single operation. Where control cannot come, no operation may stand. -/
def single (f : Focus) (cx : Context) (op : Op) : Except Fault Context :=
  if cx.terminated then .error (f.reject .terminatedContext (.instr f.instr))
  else
    match op with
    | .ld dest src => f.load cx dest src
    | .st src dest => f.store cx src dest
    | .add dest src => f.add cx dest src
    | .sub dest src => f.sub cx dest src
    | .cmp dest src => f.compare cx dest src
    | .and dest src => f.conjoin cx dest src
    | .or dest src => f.disjoin cx dest src
    | .xor dest src => f.disjoin cx dest src
    | .inc dest => f.count cx .up dest
    | .dec dest => f.count cx .down dest
    | .shl dest => f.shift cx dest
    | .shr dest => f.shift cx dest
    | .copy src dest => f.copy cx src dest
    | .trash dest => .ok (cx.spoil dest)
    | .nop => .ok cx

end Focus

end CheckedAsm
