import CheckedAsm.Machine.Emitter
import CheckedAsm.Symbols
/-! # Names in generated code

Generated code refers to locations by labels. The labels of a routine's locals come before the global
ones. -/

namespace CheckedAsm

/-- An instruction of the machine with its operand. -/
structure Code where
  mnemonic : Mnemonic
  operand : Operand := .implied

/-- Adds instructions to an emitter. -/
def Emitter.codes (e : Emitter) (cs : List Code) : Emitter :=
  cs.foldl (fun e c => e.code c.mnemonic c.operand) e

/-- The labels of a program. -/
structure LabelMap where
  globals : Assoc String LabelId := ⟨[]⟩
  locals : Assoc String (Assoc String LabelId) := ⟨[]⟩

/-- What names mean while code is generated: for a routine, or for none. -/
structure CodeSetting where
  symbols : Symbols
  labels : LabelMap
  routine : Option String

namespace CodeSetting

/-- The type of a name. Locals come first. -/
def typeOfName (cs : CodeSetting) (name : String) : Except Fault Ty :=
  match cs.routine.bind fun r => cs.symbols.localType? r name with
  | some t => .ok t
  | none =>
    match cs.symbols.globalType? name with
    | some t => .ok t
    | none => .error (.unknownName name)

/-- The type of a constant or a location. -/
def typeOf (cs : CodeSetting) : Ref → Except Fault Ty
  | .constant c => .ok c.ty
  | .location n => cs.typeOfName n
  | _ => .error .noAnswer

/-- The label of a name. Locals come first. -/
def label (cs : CodeSetting) (name : String) : Except Fault LabelId :=
  match cs.routine.bind fun r => (cs.labels.locals.get? r).bind fun m => m.get? name with
  | some id => .ok id
  | none =>
    match cs.labels.globals.get? name with
    | some id => .ok id
    | none => .error (.unknownName name)

/-- The label of a reference by its name. -/
def labelOf (cs : CodeSetting) (r : Ref) : Except Fault LabelId := cs.label r.name

end CodeSetting

namespace Operand

/-- The constant in immediate mode. -/
def ofInt (n : Int) : Except Fault Operand := (byteOf n).map fun b => .immediate (.byte b)

/-- A byte in immediate mode. -/
def ofByte (n : Int) : Operand := .immediate (.byte (lowBits n))

/-- The location of a label, on the zero page if it is known to be there. -/
def direct (ls : Labels) (id : LabelId) : Operand :=
  match (ls.entry id).addr with
  | some a => if a < 256 then zeroPage (.label id) else absolute (.label id)
  | none => absolute (.label id)

/-- The location of a label. -/
def wide (id : LabelId) : Operand := absolute (.label id)

/-- The location after that of a label. -/
def wideNext (id : LabelId) : Operand := absolute (.offset id 1)

/-- The pointer of a label. -/
def page (id : LabelId) : Operand := zeroPage (.label id)

/-- The upper half of the pointer of a label. -/
def pageNext (id : LabelId) : Operand := zeroPage (.offset id 1)

end Operand

/-- The addressing mode of an index register. -/
def indexMode (index : Ref) : Except Fault (Target → Operand) :=
  if index = .x then .ok .absoluteX
  else if index = .y then .ok .absoluteY
  else .error (.noIndex index)

/-- The value of a constant offset. -/
def Ref.offsetValue : Ref → Except Fault Int
  | .constant c => .ok c.value
  | _ => .error .noValue

end CheckedAsm
