import CheckedAsm.Analysis.Step
/-! # Analysis of blocks

The analysis walks through a block once and changes its context as control goes on. Both branches of
a choice are walked and their contexts merged. The body of a loop is walked twice, the second time from
where the first one ended. Jumps to other routines leave exit contexts behind. -/

namespace CheckedAsm

/-- What the walk carries: the context, the contexts at the exits passed so far, and the routines and
vectors that were called or jumped to. -/
structure Trail where
  cx : Context
  exits : List Context := []
  calls : List (String × Ty) := []

namespace Trail

/-- The trail with its context changed. -/
def withContext (t : Trail) (cx : Context) : Trail := { t with cx }

/-- Records a call or a jump. -/
def meet (t : Trail) (name : String) (ty : Ty) : Trail :=
  if t.calls.contains (name, ty) then t else { t with calls := t.calls ++ [(name, ty)] }

end Trail

namespace Focus

/-- The type and the signature of what is called or jumped to. -/
def callee (f : Focus) (target : String) : Except Fault (Ty × Signature) := do
  let ty ← f.setting.typeOfName target
  match ty with
  | .routine sig | .vector (.routine sig) => pure (ty, sig)
  | .vector _ => .error .noConstraints
  | _ => .error (f.reject .typeMismatch (.named (.location target) none))

/-- What control coming back from a routine has done. -/
def perform (s : Setting) (cx : Context) (sig : Signature) : Except Fault Context := do
  let cx ← sig.outputs.foldlM (fun cx o => cx.write s [.ofSlot o]) cx
  sig.trashes.foldlM (fun cx t => do
    cx.assertWriteable s none (.ofSlot t)
    pure (cx.spoil (.ofSlot t))) cx

/-- Calls a routine. -/
def call (f : Focus) (t : Trail) (target : String) : Except Fault Trail := do
  let (ty, sig) ← f.callee target
  (sig.inputs.map .ofSlot).forM (t.cx.assertMeaningful f.setting)
  let cx ← perform f.setting t.cx sig
  pure ((t.meet target ty).withContext cx)

/-- Jumps to a routine. Its effects belong to the exit context that is left behind; they have to stay
within those declared for the routine that is left. -/
def jump (f : Focus) (t : Trail) (target : String) : Except Fault Trail := do
  let s := f.setting
  let (ty, sig) ← f.callee target
  (sig.inputs.map .ofSlot).forM (t.cx.assertMeaningful s)
  match ← s.typeOfName s.routine with
  | .routine own =>
    assertWithin s .outputs sig own
    assertWithin s .trashes sig own
  | _ => .error .noConstraints
  let cx := t.cx.meetGotos [.location target]
  let left ← perform s cx.branch sig
  pure { (t.meet target ty).withContext cx.terminate with exits := t.exits ++ [left] }

/-- Merges the contexts at the ends of two branches into the one before them. A branch that ended in a
jump leaves the other one to go on. A location that both branches give a value has one afterwards; its
range is the one it had before, or else any. What had a value before and lacks it at the end of one
branch counts as spoiled. -/
def merge (s : Setting) (cx cx1 cx2 : Context) : Except Fault Context := do
  let outgoing := cx1.meaningful.filter cx2.isMeaningful
  let spoiled := cx.meaningful.filter fun r => !outgoing.contains r
  let both : Context :=
    { cx with
      touched := cx2.touched.foldl (fun acc r => acc.insert r) cx1.touched
      writeable := cx2.writeable.foldl (fun acc r => acc.insert r) cx1.writeable }
  let merged ←
    if cx1.terminated then pure (cx.updateFrom cx2)
    else if cx2.terminated then pure (cx.updateFrom cx1)
    else both.makeAllMeaningful s outgoing
  pure (spoiled.foldl Context.spoil ((merged.meetGotos cx1.gotos).meetGotos cx2.gotos))

/-- Requires that no jump was met so far. -/
def refuseGotos (f : Focus) (cx : Context) : Except Fault Unit :=
  if cx.gotos.isEmpty then .ok () else .error (f.reject .illegalJump (.instr f.instr))

/-- The range of the variable inside a counting loop. It must not have reached the end yet. -/
def loopRange (f : Focus) (dest : Ref) (range : Range) (final : Int) :
    Direction → Except Fault Range
  | .up => do
    if ← range.top.below final then pure ⟨range.bottom, .int final⟩
    else .error (f.reject .rangeExceeded (.loopTop dest range.top final))
  | .down => do
    if ← range.bottom.above final then pure ⟨.int final, range.top⟩
    else .error (f.reject .rangeExceeded (.loopBottom dest range.bottom final))

/-- Enters a counting loop: the variable may not be written to inside. -/
def enterCount (f : Focus) (cx : Context) (dest : Ref) (dir : Direction) (final : Const) :
    Except Fault Context := do
  let s := f.setting
  cx.assertMeaningful s dest
  cx.assertWriteable s none dest
  let range ← cx.getRange s dest
  let inside ← f.loopRange dest range final.value dir
  let cx ← cx.setRange s dest inside
  cx.lock dest

/-- Leaves a counting loop: the variable has come to the end. -/
def leaveCount (f : Focus) (cx : Context) (dest : Ref) (final : Const) : Except Fault Context := do
  let cx ← cx.setRange f.setting dest ⟨.const final, .const final⟩
  pure (cx.unlock dest)

/-- Sets bytes aside, the last one first in the list of batons. -/
def setAside (f : Focus) : List Ref → Context → Except Fault (List Context.Baton × Context)
  | [], cx => .ok ([], cx)
  | r :: rest, cx => do
    f.assertType .byte r
    let (baton, cx) := cx.extract r
    let (batons, cx) ← f.setAside rest cx
    pure (batons ++ [baton], cx)

/-- Restores bytes that were set aside. The accumulator serves on the way; it is spoiled unless it was
set aside first. -/
def restore (cx : Context) (batons : List Context.Baton) (first : Option Ref) : Context :=
  let cx := batons.foldl Context.reintroduce cx
  if first = some .a then cx else cx.spoil .a

/-- Associates a pointer with a table. -/
def enterPoint (f : Focus) (cx : Context) (pointer table : Ref) : Except Fault Context := do
  let s := f.setting
  if !(← s.typeOf pointer).isPointer then .error (f.reject .typeMismatch (.ref pointer))
  if !(← s.typeOf table).isTableOf .byte then .error (f.reject .typeMismatch (.ref table))
  if (cx.getAssoc pointer).isSome then .error (f.reject .forbiddenWrite (.ref pointer))
  pure ((cx.setAssoc pointer (some table)).forget pointer)

/-- Takes the table from a pointer. -/
def leavePoint (cx : Context) (pointer : Ref) : Context :=
  (cx.setAssoc pointer none).forget pointer

/-- Points a pointer to a place in its table. -/
def reset (f : Focus) (cx : Context) (pointer : Ref) (offset : Const) : Except Fault Context := do
  let s := f.setting
  if !(← s.typeOf pointer).isPointer then
    .error (f.reject .typeMismatch (.named pointer none))
  match cx.getAssoc pointer with
  | none => .error (f.reject .forbiddenWrite (.unassociated pointer))
  | some table =>
    cx.assertMeaningful s table
    let range ← cx.getRange s table
    let breach := f.reject .rangeExceeded (.named pointer none)
    if ← range.bottom.above offset.value then .error breach
    if ← range.top.below offset.value then .error breach
    let cx ← cx.makeMeaningful s pointer
    pure (cx.touch pointer)

end Focus

/-- Whether an instruction may not stand directly in a block without interrupts. -/
def Instr.leavesInterruptsOff : Instr → Bool
  | call .. | goto .. | interruptsOff .. => true
  | _ => false

mutual

/-- Walks through an instruction. -/
def Instr.walk (s : Setting) (t : Trail) (i : Instr) : Except Fault Trail :=
  let f : Focus := ⟨s, i⟩
  match i with
  | .op _ op => (f.single t.cx op.settled).map t.withContext
  | .call _ target => f.call t target
  | .goto _ target => f.jump t target
  | .reset _ pointer offset => (f.reset t.cx pointer offset).map t.withContext
  | .ifThen _ _ _ yes => do
    let t1 ← yes.walk s (t.withContext t.cx.branch)
    let cx ← Focus.merge s t.cx t1.cx t.cx.branch
    pure (t1.withContext cx)
  | .ifElse _ _ _ yes no => do
    let t1 ← yes.walk s (t.withContext t.cx.branch)
    let t2 ← no.walk s (t1.withContext t.cx.branch)
    let cx ← Focus.merge s t.cx t1.cx t2.cx
    pure (t2.withContext cx)
  | .loop _ src _ body => do
    let t ← body.walk s t
    src.forM (t.cx.assertMeaningful s)
    f.refuseGotos t.cx
    let t ← body.walk s t
    src.forM (t.cx.assertMeaningful s)
    pure t
  | .count _ dest dir final body => do
    let cx ← f.enterCount t.cx dest dir final
    let t ← body.walk s (t.withContext cx)
    let t ← body.walk s t
    (f.leaveCount t.cx dest final).map t.withContext
  | .interruptsOff _ body => body.walkInterruptsOff s t
  | .save _ locations body => do
    let (batons, cx) ← f.setAside locations t.cx
    let t ← body.walk s (t.withContext cx)
    f.refuseGotos t.cx
    pure (t.withContext (Focus.restore t.cx batons locations.head?))
  | .pointInto _ pointer table body => do
    let cx ← f.enterPoint t.cx pointer table
    let t ← body.walk s (t.withContext cx)
    f.refuseGotos t.cx
    pure (t.withContext (Focus.leavePoint t.cx pointer))

/-- Walks through a block. -/
def Block.walk (s : Setting) (t : Trail) : Block → Except Fault Trail
  | .nil _ => .ok t
  | .cons head tail => do
    let t ← head.walk s t
    tail.walk s t

/-- Walks through a block without interrupts. -/
def Block.walkInterruptsOff (s : Setting) (t : Trail) : Block → Except Fault Trail
  | .nil _ => .ok t
  | .cons head tail => do
    if head.leavesInterruptsOff then
      .error (Focus.reject ⟨s, head⟩ .illegalJump (.instr head))
    let t ← head.walk s t
    tail.walkInterruptsOff s t

end

end CheckedAsm
