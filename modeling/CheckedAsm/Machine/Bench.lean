import CheckedAsm.Assoc
import CheckedAsm.Machine.Emitter
/-! # A work bench for images

Items can be drafted by hand and given to an emitter request by request. A draft names its labels; a
label comes into being, without an address, when it is first named. A request that fails keeps what it
had done before. -/

namespace CheckedAsm

/-- An item that is not checked yet. -/
inductive Draft where
  | byte (n : Int)
  | character (text : String)
  | word (n : Int)
  | table (cells : List Draft) (size : Int)
  | label (name : String)
  | offset (of : Draft) (by_ : Int)
  | high (of : Draft)
  | low (of : Draft)
  | unknown
  | bare (m : Mnemonic)
  | code (m : Mnemonic) (mode : Mode) (operand : Draft)
  deriving Inhabited

/-- An emitter and the labels by name. -/
structure Bench where
  emitter : Emitter
  names : Assoc String LabelId := ⟨[]⟩

namespace Bench

/-- A bench whose emitter starts at an address. -/
def startingAt (start : Int) : Bench := ⟨.startingAt start, ⟨[]⟩⟩

/-- The label of a name, which may be new. -/
def labelId (b : Bench) (name : String) : LabelId × Bench :=
  match b.names.get? name with
  | some id => (id, b)
  | none =>
    let (id, e) := b.emitter.newLabel ⟨name, none, none⟩
    (id, ⟨e, b.names.set name id⟩)

/-- The bench with labels of known or unknown addresses. -/
def withLabels (b : Bench) (labels : List (String × Option Int)) : Bench :=
  labels.foldl (fun b l =>
    let (id, b) := b.labelId l.1
    { b with emitter := b.emitter.changeLabel id fun x => { x with addr := l.2 } }) b

end Bench

/-- The target that an item is. -/
def Item.asTarget : Item → Except Fault Target
  | address t => .ok t
  | _ => .error .badOperand

/-- The label that an item is. -/
def Item.asLabel : Item → Except Fault LabelId
  | address (.label id) => .ok id
  | _ => .error .badOperand

/-- An item as the operand of an addressing mode. -/
def Item.asOperand (i : Item) : Mode → Except Fault Operand
  | .implied => .error .operandRefused
  | .immediate =>
    match i with
    | byte v => .ok (.immediate (.byte v))
    | high t => .ok (.immediate (.high t))
    | low t => .ok (.immediate (.low t))
    | _ => .error .badOperand
  | .absolute => i.asTarget.map .absolute
  | .absoluteX => i.asTarget.map .absoluteX
  | .absoluteY => i.asTarget.map .absoluteY
  | .zeroPage => i.asTarget.map .zeroPage
  | .indirectY => i.asTarget.map .indirectY
  | .indirect => i.asLabel.map .indirect
  | .relative => i.asLabel.map .relative

mutual

/-- The item that a draft describes. -/
def Draft.build : Draft → Bench → Except Fault (Item × Bench)
  | .byte n, b => (byteOf n).map fun v => (.byte v, b)
  | .character t, b =>
    match t.toList with
    | [c] => (byteOf c.toNat).map fun v => (.byte v, b)
    | _ => .error .notOneCharacter
  | .word n, b => .ok (.word n, b)
  | .table cells n, b => do
    let (is, b) ← Draft.buildAll cells b
    pure (.table is n, b)
  | .label name, b =>
    let (id, b) := b.labelId name
    .ok (.address (.label id), b)
  | .offset of d, b => do
    let (i, b) ← of.build b
    let id ← i.asLabel
    pure (.address (.offset id d), b)
  | .high of, b => do
    let (i, b) ← of.build b
    let t ← i.asTarget
    pure (.high t, b)
  | .low of, b => do
    let (i, b) ← of.build b
    let t ← i.asTarget
    pure (.low t, b)
  | .unknown, b => .ok (.unknown, b)
  | .bare m, b => .ok (.code m .implied, b)
  | .code m mode of, b => do
    let (i, b) ← of.build b
    let o ← i.asOperand mode
    pure (.code m o, b)

/-- The items that some drafts describe. -/
def Draft.buildAll : List Draft → Bench → Except Fault (List Item × Bench)
  | [], b => .ok ([], b)
  | d :: rest, b => do
    let (i, b) ← d.build b
    let (is, b) ← Draft.buildAll rest b
    pure (i :: is, b)

end

/-- What a bench may be asked to do. -/
inductive BenchRequest where
  | emit (drafts : List Draft)
  | retract
  | size
  | pad (limit : Int)
  | tail
  | serialize
  | makeLabel (name : Option String)
  | setAddr (name : String) (addr : Int)
  | setLength (name : String) (length : Int)
  | resolve (name : String)
  | reserve (name : String)

/-- What a bench answers. -/
inductive BenchReply where
  | done
  | number (n : Int)
  | text (s : String)
  | bytes (bs : List UInt8)

namespace Bench

/-- Emits items one after the other. The item that fails has been added all the same. -/
def emitAll : List Item → Emitter → Emitter × Except Fault BenchReply
  | [], e => (e, .ok .done)
  | i :: rest, e =>
    match e.emit i with
    | .ok e => emitAll rest e
    | .error f => (e.append i, .error f)

/-- A label as listings write it. -/
def showLabel (e : Emitter) (id : LabelId) : BenchReply := .text (e.labels.entry id).describe

/-- Does what is asked. -/
def run (b : Bench) : BenchRequest → Bench × Except Fault BenchReply
  | .emit drafts =>
    match Draft.buildAll drafts b with
    | .error f => (b, .error f)
    | .ok (is, b) =>
      let (e, reply) := emitAll is b.emitter
      ({ b with emitter := e }, reply)
  | .retract =>
    match b.emitter.retract with
    | .ok e => ({ b with emitter := e }, .ok .done)
    | .error f =>
      let e := (b.emitter.pop?.map (·.2)).getD b.emitter
      ({ b with emitter := e }, .error f)
  | .size => (b, b.emitter.size.map .number)
  | .pad limit =>
    match b.emitter.padTo limit with
    | .ok e => ({ b with emitter := e }, .ok .done)
    | .error f => (b, .error f)
  | .tail =>
    let text := match b.emitter.tail? with
      | none => "None"
      | some i => i.describe b.emitter.labels
    (b, .ok (.text text))
  | .serialize => (b, b.emitter.bytes.map .bytes)
  | .makeLabel name =>
    let (id, e) := b.emitter.labelHere name
    (⟨e, b.names.set (e.labels.entry id).name id⟩, .ok (showLabel e id))
  | .setAddr name addr =>
    let (id, b) := b.labelId name
    ({ b with emitter := b.emitter.changeLabel id fun l => { l with addr := some addr } }, .ok .done)
  | .setLength name length =>
    let (id, b) := b.labelId name
    ({ b with emitter := b.emitter.changeLabel id fun l => { l with length := some length } },
      .ok .done)
  | .resolve name =>
    let (id, b) := b.labelId name
    let e := b.emitter.resolve id
    ({ b with emitter := e }, .ok (showLabel e id))
  | .reserve name =>
    let (id, b) := b.labelId name
    match b.emitter.reserve id with
    | .ok e => ({ b with emitter := e }, .ok (showLabel e id))
    | .error f => ({ b with emitter := b.emitter.resolve id }, .error f)

end Bench

end CheckedAsm
