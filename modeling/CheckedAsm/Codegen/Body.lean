import CheckedAsm.Codegen.Single
/-! # Code for blocks

Choices and loops become branches to labels. A call through a vector goes by way of a trampoline, which
jumps on through the vector; trampolines are made when they are first needed. -/

namespace CheckedAsm

/-- The code so far, the trampolines it needs, and the tables that pointers lead into. -/
structure CodeState where
  emitter : Emitter
  trampolines : Assoc String LabelId := ⟨[]⟩
  pointers : Assoc String String := ⟨[]⟩

namespace CodeState

/-- The state with its emitter changed. -/
def withEmitter (st : CodeState) (e : Emitter) : CodeState := { st with emitter := e }

/-- Adds instructions. -/
def codes (st : CodeState) (cs : List Code) : CodeState := st.withEmitter (st.emitter.codes cs)

/-- Adds a label without an address. -/
def newLabel (st : CodeState) (name : String) : LabelId × CodeState :=
  let (id, e) := st.emitter.newLabel ⟨name, none, none⟩
  (id, st.withEmitter e)

/-- Gives a label the current address. -/
def resolve (st : CodeState) (id : LabelId) : CodeState := st.withEmitter (st.emitter.resolve id)

/-- The trampoline for a vector. -/
def trampoline (st : CodeState) (vector : String) : LabelId × CodeState :=
  match st.trampolines.get? vector with
  | some id => (id, st)
  | none =>
    let (id, st) := st.newLabel (vector ++ "_trampoline")
    (id, { st with trampolines := st.trampolines.set vector id })

end CodeState

namespace Codegen

/-- Code for a call. -/
def call (cs : CodeSetting) (st : CodeState) (target : String) : Except Fault CodeState := do
  let id ← cs.label target
  match ← cs.typeOfName target with
  | .routine _ => pure (st.codes [⟨.jsr, .wide id⟩])
  | .vector _ =>
    let (id, st) := st.trampoline target
    pure (st.codes [⟨.jsr, .wide id⟩])
  | t => .error (.noCodeFor t)

/-- Code for a jump to another routine. -/
def jump (cs : CodeSetting) (st : CodeState) (target : String) : Except Fault CodeState := do
  let id ← cs.label target
  match ← cs.typeOfName target with
  | .routine _ => pure (st.codes [⟨.jmp, .wide id⟩])
  | .vector _ => pure (st.codes [⟨.jmp, .indirect id⟩])
  | t => .error (.noCodeFor t)

/-- The branch that is taken when a flag is off or, inverted, when it is on. -/
def branchMnemonic? (src : Ref) (inverted : Bool) : Option Mnemonic :=
  match src.name, inverted with
  | "c", false => some .bcc
  | "z", false => some .bne
  | "n", false => some .bpl
  | "c", true => some .bcs
  | "z", true => some .beq
  | "n", true => some .bmi
  | _, _ => none

/-- The branch on a flag, which the machine has to have. -/
def branch (i : Instr) (src : Ref) (inverted : Bool) : Except Fault Mnemonic :=
  match branchMnemonic? src inverted with
  | some m => .ok m
  | none => .error (.unsupported i)

/-- Code that puts a byte on the stack. -/
def push (cs : CodeSetting) (r : Ref) : Except Fault (List Code) := do
  if r = .a then pure [⟨.pha, .implied⟩]
  else if r = .x then pure [⟨.txa, .implied⟩, ⟨.pha, .implied⟩]
  else if r = .y then pure [⟨.tya, .implied⟩, ⟨.pha, .implied⟩]
  else
    let id ← cs.labelOf r
    pure [⟨.lda, .wide id⟩, ⟨.pha, .implied⟩]

/-- Code that takes a byte from the stack. -/
def pull (cs : CodeSetting) (r : Ref) : Except Fault (List Code) := do
  if r = .a then pure [⟨.pla, .implied⟩]
  else if r = .x then pure [⟨.pla, .implied⟩, ⟨.tax, .implied⟩]
  else if r = .y then pure [⟨.pla, .implied⟩, ⟨.tay, .implied⟩]
  else
    let id ← cs.labelOf r
    pure [⟨.pla, .implied⟩, ⟨.sta, .wide id⟩]

/-- Code for each of some references in turn. -/
def forEach (code : Ref → Except Fault (List Code)) (rs : List Ref) : Except Fault (List Code) := do
  let parts ← rs.mapM code
  pure parts.flatten

/-- The limit that a counting loop compares with: one step past its end. -/
def limit (final : Const) : Direction → Except Fault Const
  | .up => final.succ
  | .down => final.pred

/-- Code at the end of a counting loop. -/
def countEnd (cs : CodeSetting) (i : Instr) (st : CodeState) (top : LabelId) (dest : Ref)
    (dir : Direction) (final : Const) : Except Fault CodeState := do
  let step ← countStep cs dir dest
  let past ← limit final dir
  let e ← compare cs i (st.emitter.codes step) (.constant past) dest
  pure (st.withEmitter (e.codes [⟨.bne, .relative top⟩]))

/-- Code that points a pointer to a place in its table. -/
def reset (cs : CodeSetting) (st : CodeState) (pointer : Ref) (offset : Const) :
    Except Fault CodeState := do
  match st.pointers.get? pointer.name with
  | none => .error (.unknownName pointer.name)
  | some table =>
    let t ← cs.label table
    let p ← cs.labelOf pointer
    let place : Target := .offset t offset.value
    pure (st.codes [⟨.lda, .immediate (.high place)⟩, ⟨.sta, .page p⟩,
      ⟨.lda, .immediate (.low place)⟩, ⟨.sta, .pageNext p⟩])

/-- Forgets the table that a pointer leads into. -/
def leavePoint (st : CodeState) (pointer : Ref) : Except Fault CodeState :=
  if st.pointers.has pointer.name then
    .ok { st with pointers := st.pointers.erase pointer.name }
  else .error (.unknownName pointer.name)

end Codegen

open Codegen

mutual

/-- Adds the code for an instruction. -/
def Instr.compile (cs : CodeSetting) (st : CodeState) (i : Instr) : Except Fault CodeState :=
  match i with
  | .op _ op => (single cs i st.emitter op.settled).map st.withEmitter
  | .call _ target => call cs st target
  | .goto _ target => jump cs st target
  | .reset _ pointer offset => reset cs st pointer offset
  | .ifThen _ src inverted yes => do
    let m ← branch i src inverted
    let (no, st) := st.newLabel "else_label"
    let st ← yes.compile cs (st.codes [⟨m, .relative no⟩])
    pure (st.resolve no)
  | .ifElse _ src inverted yes no => do
    let m ← branch i src inverted
    let (otherwise, st) := st.newLabel "else_label"
    let st ← yes.compile cs (st.codes [⟨m, .relative otherwise⟩])
    if yes.hasGoto then no.compile cs (st.resolve otherwise)
    else
      let (done, st) := st.newLabel "end_label"
      let st := (st.codes [⟨.jmp, .wide done⟩]).resolve otherwise
      let st ← no.compile cs st
      pure (st.resolve done)
  | .loop _ src inverted body => do
    let (top, e) := st.emitter.labelHere none
    let st ← body.compile cs (st.withEmitter e)
    match src with
    | none => pure (st.codes [⟨.jmp, .wide top⟩])
    | some src =>
      let m ← branch i src inverted
      pure (st.codes [⟨m, .relative top⟩])
  | .count _ dest dir final body => do
    let (top, e) := st.emitter.labelHere none
    let st ← body.compile cs (st.withEmitter e)
    countEnd cs i st top dest dir final
  | .interruptsOff _ body => do
    let st ← body.compile cs (st.codes [⟨.sei, .implied⟩])
    pure (st.codes [⟨.cli, .implied⟩])
  | .save _ locations body => do
    let before ← forEach (push cs) locations
    let st ← body.compile cs (st.codes before)
    let after ← forEach (pull cs) locations.reverse
    pure (st.codes after)
  | .pointInto _ pointer table body => do
    let st ← body.compile cs { st with pointers := st.pointers.set pointer.name table.name }
    leavePoint st pointer

/-- Adds the code for a block. -/
def Block.compile (cs : CodeSetting) (st : CodeState) : Block → Except Fault CodeState
  | .nil _ => .ok st
  | .cons head tail => do
    let st ← head.compile cs st
    tail.compile cs st

end

end CheckedAsm
