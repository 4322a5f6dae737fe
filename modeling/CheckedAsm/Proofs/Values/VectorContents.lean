import CheckedAsm.Proofs.Analysis.Nested
import CheckedAsm.Proofs.Values.Programs
import Mathlib.Logic.Function.Basic
import Mathlib.Logic.Relation
/-! # What vectors come to hold

The address of a routine gets into a vector or into an element of a table of vectors by a copy, and from there on by further
copies. A copy from a routine into a vector compares what the two declare; all others ask for the same constraints on both
sides. So whatever way an address takes, where it ends up it belongs to a routine that needs, sets and spoils no more than the
vector declares.

Here each vector and each element has its own contents. Instructions come in any order, and registers have any values. -/

namespace CheckedAsm

open Setting

variable {c : Contents} {symbols : Symbols} {ty : Ty} {op : Op} {r : String} {limit : Signature}

/-! ### Contents -/

/-- A location, or an element of a table. -/
structure Cell where
  holder : Holder
  element : Option Int := none
  deriving DecidableEq

/-- The routine whose address a cell holds, if the program has put one there. -/
abbrev Contents := Cell → Option String

/-- The cell that an operand stands for. Which element of a table it is depends on the registers. -/
def Setting.cell? (s : Setting) (element : Ref → Int) : Ref → Option Cell
  | .location n => some ⟨s.holder (.location n), none⟩
  | .indexed base offset index => some ⟨s.holder base, some (element (.indexed base offset index))⟩
  | _ => none

/-- The routine whose address an operand gives: the routine itself, or the one whose address is held. -/
def Contents.read (c : Contents) (s : Setting) (element : Ref → Int) : Ref → Option String
  | .location n =>
    match s.typeOfName n with
    | .ok (.routine _) => if s.isLocal n then none else some n
    | _ => c ⟨s.holder (.location n), none⟩
  | r => (s.cell? element r).bind c

/-- What an operation changes without moving a value there. -/
def Op.alters : Op → List Ref
  | .add d _ | .sub d _ | .and d _ | .or d _ | .xor d _ | .shl d | .shr d | .inc d | .dec d => [d]
  | _ => []

/-- What an instruction changes by itself without moving a value there, the counter of a loop apart. -/
def Instr.alters : Instr → List Ref
  | .op _ operation => operation.settled.alters
  | .save _ locations _ => locations
  | .reset _ pointer _ => [pointer]
  | _ => []

/-- A routine that needs, sets and spoils no more than another one declares. -/
structure Signature.Within (sig limit : Signature) : Prop where
  inputs : sig.inputs ⊆ limit.inputs
  outputs : sig.outputs ⊆ limit.outputs
  trashes : sig.trashes ⊆ limit.trashes

/-- Every vector and every element of a table of vectors holds addresses only of routines that keep within its type. -/
def Contents.Compatible (symbols : Symbols) (c : Contents) : Prop :=
  ∀ k r, c k = some r → ∀ ty limit, symbols.typeOf? k.holder = some ty → ty.holds? = some limit →
    ∃ sig, symbols.routine? r = some sig ∧ sig.Within limit

/-! ### One instruction -/

section Step

variable {s : Setting} {element : Ref → Int} {d src : Ref} {k : Cell} {f : Focus} {cx cx' : Context}

/-- What an operand stands for is neither a vector nor an element of a table of vectors. -/
def Setting.Plain (s : Setting) (d : Ref) : Prop :=
  ∀ element k, s.cell? element d = some k → ∀ ty, s.symbols.typeOf? k.holder = some ty → ty.holds? = none

/-- The contents as storage that tells tables, but not their elements, apart. -/
def Contents.storage (c : Contents) : Storage :=
  { live := ∅, held := fun h e => ∃ k r, k.holder = h ∧ c k = some r ∧ e = .routine r }

/-- The code has a signature that keeps within another one. -/
def Executable.Within (symbols : Symbols) (e : Executable) (limit : Signature) : Prop :=
  ∃ sig, symbols.signature? e = some sig ∧ sig.Within limit

theorem Contents.Compatible.holds (h : c.Compatible symbols) : c.storage.Holds symbols (Executable.Within symbols) := by
  rintro _ _ ⟨k, r, rfl, hget, rfl⟩ ty limit hty hlimit
  exact h k r hget ty limit hty hlimit

end Step

/-! ### Whole programs -/

variable {p : Program} {all : List Analysed} {c' : Contents}

/-- An element of the table. -/
def chainedElement : Ref := .indexed (.location "tbl") (.constant ⟨.byte, 0⟩) .x

/-- The address of the routine goes into a vector, from there into an element of the table, and on into the other vector. -/
def chained : Program :=
  { routines := [⟨0, "foo", none, [], some (.nil 0), false⟩, ⟨0, "main", none, [], some (.ofList 0
      [.op 0 (.ld .x (.constant ⟨.byte, 0⟩)), .op 0 (.copy (.location "foo") (.location "vec")),
        .op 0 (.copy (.location "vec") chainedElement), .op 0 (.copy chainedElement (.location "last"))]), false⟩] }

end CheckedAsm
