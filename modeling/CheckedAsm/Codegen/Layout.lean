import CheckedAsm.Codegen.Body
/-! # Layout of a program

A compiled program has its routines first, in the order of a roster, then the trampolines, then the
definitions with initial values, then room for those without. -/

namespace CheckedAsm

/-- A definition of storage with its type and its label. -/
structure Placed where
  defn : Defn
  ty : Ty
  label : LabelId

/-- A program that was laid out: its items and its labels. -/
structure Layout where
  emitter : Emitter
  labels : LabelMap

namespace Ty

/-- The length in bytes of a location of a type. -/
def length : Ty → Except Fault Int
  | byte => .ok 1
  | word | pointer | vector _ => .ok 2
  | table byte size => .ok size
  | table _ size => .ok (size * 2)
  | t => .error (.noSizeFor t)

end Ty

namespace Codegen

/-- Gives labels to definitions. -/
def placeDefns (cs : CodeSetting) :
    List Defn → Emitter → Except Fault (Emitter × List Placed)
  | [], e => .ok (e, [])
  | d :: rest, e => do
    let ty ← cs.typeOfName d.name
    let length ← ty.length
    let (id, e) := e.newLabel ⟨d.name, d.addr, some length⟩
    let (e, placed) ← placeDefns cs rest e
    pure (e, ⟨d, ty, id⟩ :: placed)

/-- The labels of placed definitions by name. -/
def labelsOf (placed : List Placed) : Assoc String LabelId :=
  placed.foldl (fun m p => m.set p.defn.name p.label) ⟨[]⟩

/-- Gives labels to routines and their locals. -/
def placeRoutines (symbols : Symbols) :
    List Routine → Emitter → LabelMap → Except Fault (Emitter × LabelMap × List Placed)
  | [], e, m => .ok (e, m, [])
  | r :: rest, e, m => do
    let (id, e) := e.newLabel ⟨r.name, r.addr, none⟩
    let (e, placed) ← placeDefns ⟨symbols, {}, some r.name⟩ r.locals e
    let m : LabelMap := ⟨m.globals.set r.name id, m.locals.set r.name (labelsOf placed)⟩
    let (e, m, more) ← placeRoutines symbols rest e m
    pure (e, m, placed ++ more)

/-- Turns a call that comes last into a jump. -/
def tailCall (e : Emitter) : Except Fault Emitter :=
  match e.tail? with
  | some (.code .jsr (.absolute (.label id))) => do
    let e ← e.retract
    pure (e.codes [⟨.jmp, .wide id⟩])
  | _ => .ok e

/-- Ends a routine. After a jump nothing more is needed, and not even the jump when the routine it goes
to comes next. -/
def finish (next : Option String) (e : Emitter) : Except Fault Emitter := do
  let e ← tailCall e
  match e.tail? with
  | some (.code .jmp (.absolute (.label id))) =>
    if next = some (e.labels.entry id).name then e.retract else pure e
  | some (.code .jmp _) => pure e
  | _ => pure (e.codes [⟨.rts, .implied⟩])

/-- Adds the code of a routine that has a body. -/
def routine (symbols : Symbols) (labels : LabelMap) (st : CodeState) (r : Routine)
    (next : Option String) : Except Fault CodeState :=
  match r.body with
  | none => .ok st
  | some body => do
    let cs : CodeSetting := ⟨symbols, labels, some r.name⟩
    let id ← cs.label r.name
    let st ← body.compile cs (st.resolve id)
    let e ← finish next st.emitter
    pure (st.withEmitter e)

/-- The routine of a name. -/
def findRoutine (routines : List Routine) (name : String) : Except Fault Routine :=
  match routines.find? fun r => r.name == name with
  | some r => .ok r
  | none => .error (.unknownName name)

/-- Adds the code of a chain of routines, each of which may run into the next. -/
def chain (symbols : Symbols) (labels : LabelMap) (routines : List Routine) :
    List String → CodeState → Except Fault CodeState
  | [], st => .ok st
  | name :: rest, st => do
    let r ← findRoutine routines name
    let next ← match rest with
      | [] => pure none
      | n :: _ => do
        let nr ← findRoutine routines n
        pure (some nr.name)
    let st ← routine symbols labels st r next
    chain symbols labels routines rest st

/-- Adds the trampolines. -/
def trampolines (cs : CodeSetting) : List (String × LabelId) → Emitter → Except Fault Emitter
  | [], e => .ok e
  | (vector, id) :: rest, e => do
    let v ← cs.label vector
    trampolines cs rest ((e.resolve id).codes [⟨.jmp, .indirect v⟩, ⟨.rts, .implied⟩])

/-- The cells of a table of bytes. -/
def byteCells : Initial → Except Fault (List Item)
  | .value n => do
    let b ← byteOf n
    pure [.byte b]
  | .values ns => ns.mapM fun n => (byteOf n).map .byte
  | .text s => s.toList.mapM fun c => (byteOf c.toNat).map .byte

/-- The cells of a table of words. -/
def wordCells : Initial → List Item
  | .value n => [.word n]
  | .values ns => ns.map .word
  | .text s => s.toList.map .letter

/-- The item of an initial value. -/
def initialItem (ty : Ty) (initial : Initial) : Except Fault Item :=
  match ty, initial with
  | .byte, .value n => (byteOf n).map .byte
  | .word, .value n => .ok (.word n)
  | .table .byte size, i => (byteCells i).map fun cells => .table cells size
  | .table .word size, i => .ok (.table (wordCells i) size)
  | t, _ => .error (.noCodeFor t)

/-- Adds the initial values. -/
def initials : List Placed → Emitter → Except Fault Emitter
  | [], e => .ok e
  | p :: rest, e =>
    match p.defn.initial with
    | none => initials rest e
    | some initial => do
      let item ← initialItem p.ty initial
      let room ← item.room
      let e := (e.changeLabel p.label fun l => { l with length := some room }).resolve p.label
      let e ← e.emit item
      initials rest e

/-- Leaves room for definitions that have neither an initial value nor an address. -/
def reserves : List Placed → Emitter → Except Fault Emitter
  | [], e => .ok e
  | p :: rest, e => do
    let e ← if p.defn.initial.isNone && p.defn.addr.isNone then e.reserve p.label else pure e
    reserves rest e

/-- The order without a roster: `main` first, then the others as they come, each by itself. -/
def defaultRoster (routines : List Routine) : List (List String) :=
  ["main"] :: ((routines.filter fun r => r.name ≠ "main").map fun r => [r.name])

end Codegen

open Codegen in
/-- Lays out a program after what the emitter holds already. -/
def Program.layOut (symbols : Symbols) (p : Program) (roster : Option (List (List String)))
    (e : Emitter) : Except Fault Layout := do
  let (e, globals) ← placeDefns ⟨symbols, {}, none⟩ p.defns e
  let (e, labels, locals) ← placeRoutines symbols p.routines e ⟨labelsOf globals, ⟨[]⟩⟩
  let rows := roster.getD (defaultRoster p.routines)
  let st ← rows.foldlM (fun st row => chain symbols labels p.routines row st) { emitter := e }
  let e ← trampolines ⟨symbols, labels, none⟩ st.trampolines.entries st.emitter
  let e ← initials (globals ++ locals) e
  let e ← reserves (globals ++ locals) e
  pure ⟨e, labels⟩

end CheckedAsm
