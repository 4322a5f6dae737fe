import CheckedAsm.Proofs.Ranges.Stale
import CheckedAsm.Proofs.Values.Path
import Mathlib.Data.List.Basic
/-! # Executions of whole programs

Where a path takes a call by its declaration, an execution goes into the code itself: the body of the routine that
is named, or of one that the vector holds. Storage then has to be told apart by routine, since every routine has
locations of its own, and it has to be known which code each vector may hold. Code outside the program does what its
signature says.

Control may go either way at a choice and through a loop any number of times; an execution may be cut short anywhere.
How deep calls and jumps are nested is bounded by a number, which may be any. -/

namespace CheckedAsm

/-! ### Storage -/

/-- What can hold a value: a global location, or a location of one routine's own. -/
structure Holder where
  scope : Option String
  ref : Ref
  deriving DecidableEq

/-- The global location of a reference. -/
def Holder.global (r : Ref) : Holder := ⟨none, r⟩

theorem Holder.global_injective : Function.Injective Holder.global := fun _ _ h => congrArg Holder.ref h

/-- What a reference stands for in a routine. -/
def Setting.holder (s : Setting) (r : Ref) : Holder := ⟨if s.isLocal r.name then some s.routine else none, r⟩

theorem Setting.holder_injective (s : Setting) : Function.Injective s.holder :=
  fun _ _ h => congrArg Holder.ref h

theorem Setting.holder_of_not_local {s : Setting} {r : Ref} (h : s.isLocal r.name = false) :
    s.holder r = .global r := by
  simp [holder, Holder.global, h]

/-- Code that can be given control: a routine with a name, or code of which only the signature is known. -/
inductive Executable where
  | routine (name : String)
  | foreign (sig : Signature)

/-- What holds a value, and which code each vector or table of vectors may hold. -/
structure Storage where
  live : Set Holder
  held : Holder → Executable → Prop

namespace Storage

variable (s : Setting)

/-- The locations that hold values, as a routine sees them. -/
def view (st : Storage) : Set Ref := {r | s.holder r ∈ st.live}

/-- The storage after some locations were given values and then some were spoiled. -/
def after (sets spoils : List Ref) (st : Storage) : Storage :=
  { st with live := {h | (h ∈ st.live ∨ h ∈ sets.map s.holder) ∧ h ∉ spoils.map s.holder} }

/-- The storage after bytes that were set aside are restored. -/
def restored (locations : List Ref) (before inside : Storage) : Storage :=
  { inside with
    live := {h | (if h ∈ locations.map s.holder then h ∈ before.live else h ∈ inside.live)
      ∧ (h = s.holder .a → locations.head? = some .a)} }

/-- The code that an operand may stand for. -/
def codes (st : Storage) : Ref → Executable → Prop
  | .location n, e =>
    match s.typeOfName n with
    | .ok (.routine sig) => e = if s.isLocal n then .foreign sig else .routine n
    | _ => st.held (s.holder (.location n)) e
  | .indexed base _ _, e => st.held (s.holder base) e
  | _, _ => False

/-- The code that is held after a copy. The other cells of a table stay as they are. -/
def copied (src : Ref) (st : Storage) : Ref → Holder → Executable → Prop
  | .location n => fun h e => if h = s.holder (.location n) then st.codes s src e else st.held h e
  | .indexed base _ _ => fun h e => st.held h e ∨ (h = s.holder base ∧ st.codes s src e)
  | _ => st.held

/-- The storage after a single operation. Registers hold bytes, so only copies move code. -/
def operate (env : Pointees) (op : Op) (st : Storage) : Storage :=
  { st.after s (op.sets env) (op.spoils s) with
    held := match op with
      | .copy src d => st.copied s src d
      | _ => st.held }

@[simp] theorem view_after (sets spoils : List Ref) (st : Storage) :
    (st.after s sets spoils).view s = valuesAfter sets spoils (st.view s) := by
  ext r
  simp only [view, after, valuesAfter, Set.mem_ofPred_eq, List.mem_map_of_injective s.holder_injective]

@[simp] theorem view_operate (env : Pointees) (op : Op) (st : Storage) :
    (st.operate s env op).view s = valuesAfter (op.sets env) (op.spoils s) (st.view s) :=
  view_after s _ _ st

@[simp] theorem view_restored (locations : List Ref) (before inside : Storage) :
    (before.restored s locations inside).view s = valuesRestored locations (before.view s) (inside.view s) := by
  ext r
  simp only [view, restored, valuesRestored, Set.mem_ofPred_eq, List.mem_map_of_injective s.holder_injective,
    s.holder_injective.eq_iff]

end Storage

/-! ### Executions -/

/-- Runs of code: what happens from a storage on, and the storage when control comes back, if it does. -/
abbrev Run := Storage → Log → Option Storage → Prop

/-- How an instruction ends that has given control to other code. -/
def Ending.after (comesBack : Storage → Ending Storage) : Option Storage → Ending Storage
  | none => .cut
  | some st => comesBack st

/-- Gives control to the code that a name stands for. -/
def Setting.Transfers (s : Setting) (go : Executable → Run) (comesBack : Storage → Ending Storage) (target : String) :
    Way Storage :=
  fun st log o => ∃ ty sig rest, s.typeOfName target = .ok ty ∧ ty.target = .routine sig
    ∧ log = { uses := s.callUses (st.view s) target ty sig ++ rest.uses
              touched := (sig.outputs ++ sig.trashes).map .ofSlot, entered := rest.entered }
    ∧ ((rest = {} ∧ o = .cut)
      ∨ ∃ e back, st.codes s (.location target) e ∧ go e st rest back ∧ o = .after comesBack back)

mutual

/-- The executions of an instruction, given those of the code that it calls and jumps to. -/
def Instr.Exec (s : Setting) (call jump : Executable → Run) (env : Pointees) : Instr → Way Storage
  | .op _ op => .acts (fun st => op.settled.log s env (st.view s)) (·.operate s env op.settled)
  | .call _ target => s.Transfers call .done target
  | .goto _ target => s.Transfers jump .left target
  | .reset _ p _ =>
      .acts (fun st => { uses := s.uses (st.view s) .table ((env p).toList.flatMap Ref.leaves), touched := [p] })
        (·.after s [p] [])
  | .ifThen _ src _ yes =>
      .choice (fun st => s.uses (st.view s) .choice src.leaves) (yes.Exec s call jump env) .skip
  | .ifElse _ src _ yes no =>
      .choice (fun st => s.uses (st.view s) .choice src.leaves) (yes.Exec s call jump env) (no.Exec s call jump env)
  | .loop _ src _ body =>
      Turns src.isSome (fun st => s.uses (st.view s) .loopTest (src.toList.flatMap Ref.leaves))
        (body.Exec s call jump env)
  | .count _ d _ _ body =>
      .seq (.acts (fun st => { uses := s.uses (st.view s) .counter d.leaves }) (·.after s [d] []))
        (.seq (Turns true (fun st => s.uses (st.view s) .counter d.leaves) (body.Exec s call jump env))
          (.acts (fun _ => {}) (·.after s [d] [])))
  | .interruptsOff _ body => body.Exec s call jump env
  | .save _ locations body => fun st log o => ∃ inner o', body.Exec s call jump env st inner o'
      ∧ log = { inner with touched := touchedSaving locations inner.touched o' }
      ∧ o = o'.map (st.restored s locations)
  | .pointInto _ p table body => body.Exec s call jump (fun q => if q = p then some table else env q)

/-- The executions of a block. -/
def Block.Exec (s : Setting) (call jump : Executable → Run) (env : Pointees) : Block → Way Storage
  | .nil _ => .skip
  | .cons head tail => .seq (head.Exec s call jump env) (tail.Exec s call jump env)

end

/-! ### Programs -/

namespace Symbols

/-- The signature of a global routine. -/
def routine? (symbols : Symbols) (name : String) : Option Signature :=
  match symbols.globalType? name with
  | some (.routine sig) => some sig
  | _ => none

/-- The signature of code. -/
def signature? (symbols : Symbols) : Executable → Option Signature
  | .routine name => symbols.routine? name
  | .foreign sig => some sig

/-- The type of what holds a value. -/
def typeOf? (symbols : Symbols) (h : Holder) : Option Ty :=
  match h.scope with
  | none => symbols.globalType? h.ref.name
  | some routine => symbols.localType? routine h.ref.name

end Symbols

/-- The signature that the code held by a location of this type must have. -/
def Ty.holds? : Ty → Option Signature
  | .vector of | .table of _ =>
    match of.target with
    | .routine limit => some limit
    | _ => none
  | _ => none

/-- A routine can stand for another: it needs no more, sets the same and spoils no more. -/
structure Signature.Fits (sig limit : Signature) : Prop where
  inputs : sig.inputs ⊆ limit.inputs
  outputs : ∀ o, o ∈ sig.outputs ↔ o ∈ limit.outputs
  trashes : sig.trashes ⊆ limit.trashes

/-- The code may be held here. -/
def Symbols.Admits (symbols : Symbols) (h : Holder) (e : Executable) : Prop :=
  ∀ ty limit, symbols.typeOf? h = some ty → ty.holds? = some limit →
    ∃ sig, symbols.signature? e = some sig ∧ sig.Fits limit

/-- Every vector holds only code that may be held there. -/
def Storage.Typed (symbols : Symbols) (st : Storage) : Prop := ∀ h e, st.held h e → symbols.Admits h e

/-- What code outside the program does: what its signature says. It may leave other code in the vectors among its
outputs. -/
def Signature.Performs (symbols : Symbols) (sig : Signature) : Run := fun st log o =>
  log = {} ∧ ∀ st', o = some st' →
    st'.live = {h | (h ∈ st.live ∨ h ∈ (sig.outputs.map Ref.ofSlot).map Holder.global)
      ∧ h ∉ (sig.trashes.map Ref.ofSlot).map Holder.global}
    ∧ ∀ h e, st'.held h e → st.held h e ∨ symbols.Admits h e

/-- A routine of the program with its body. -/
def Program.body? (p : Program) : Executable → Option (Routine × Block)
  | .routine name => (p.routines.find? fun r => r.name = name).bind fun r => r.body.map fun body => (r, body)
  | .foreign _ => none

/-- The storage where control comes back from a routine: at the end of its body, or from where it jumped to. -/
def Ending.back? {σ : Type} : Ending σ → Option σ
  | .cut => none
  | .done st | .left st => some st

/-- The runs of code, with the routines that wait for it to come back. A jump does not wait. -/
def Program.Enters (symbols : Symbols) (p : Program) : Nat → List String → Executable → Run
  | 0, _, _ => fun _ log o => log = {} ∧ o = none
  | depth + 1, active, e => fun st log o =>
    match p.body? e with
    | some (r, body) => ∃ inner o',
        body.Exec (r.setting symbols) (p.Enters symbols depth (r.name :: active)) (p.Enters symbols depth active)
          (fun _ => none) st inner o'
        ∧ log = { inner with entered := (r.name, active) :: inner.entered } ∧ o = o'.back?
    | none => ∃ sig, symbols.signature? e = some sig ∧ sig.Performs symbols st log o

end CheckedAsm
