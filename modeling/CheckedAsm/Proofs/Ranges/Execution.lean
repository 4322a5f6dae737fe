import CheckedAsm.Analysis.Report
import Mathlib.Data.Set.Basic
/-! # Executions of routine bodies

What a body may do to the values of locations, and which cells of tables it reaches on the way. Values
are numbers of their types, so arithmetic wraps around. A choice may go either way, a loop may run any
number of times but at least once, a counting loop steps its variable until it has run with the last
value, and a call may leave any value in what it sets or spoils. The contents of tables are not followed:
a cell may hold any byte. An execution may also be looked at before it has come to its end, so that
loops without end are covered as well. -/

namespace CheckedAsm

/-- The values of locations. -/
abbrev Store := Ref → Int

/-- A number as a location of the type holds it. -/
def Ty.wrap (t : Ty) (n : Int) : Int := n % (t.maxRange.2 + 1)

/-- Whether a number is a value of the type. -/
def Ty.Fits (t : Ty) (n : Int) : Prop := t.maxRange.1 ≤ n ∧ n ≤ t.maxRange.2

instance (t : Ty) (n : Int) : Decidable (t.Fits n) := inferInstanceAs (Decidable (_ ∧ _))

namespace Store

/-- The store with one location changed. -/
def put (σ : Store) (r : Ref) (n : Int) : Store := fun q => if q = r then n else σ q

/-- Every location holds a value of its type. -/
def Typed (s : Setting) (σ : Store) : Prop :=
  ∀ r t, s.typeOfName r.name = .ok t → t.Fits (σ r)

/-- Only the given locations change, and every location still holds a value of its type. -/
def Changes (s : Setting) (σ σ' : Store) (places : List Ref) : Prop :=
  (∀ r, r ∉ places → σ' r = σ r) ∧ Typed s σ'

/-- What an operand may be read as. A cell of a table of bytes may hold any byte. -/
def Reads (σ : Store) : Ref → Int → Prop
  | .constant c, n => n = c.ty.wrap c.value
  | .indexed .., n | .indirect _, n => Ty.byte.Fits n
  | r, n => n = σ r

end Store

/-- A number as the location holds it. -/
def Setting.wrap (s : Setting) (r : Ref) (n : Int) : Int :=
  match s.typeOfName r.name with
  | .ok t => t.wrap n
  | .error _ => n

/-- Whether a constant or a location is a word. -/
def Setting.isWord (s : Setting) (r : Ref) : Bool :=
  match s.typeOf r with
  | .ok .word => true
  | _ => false

/-- A reference that an operation may change as a whole. -/
def Ref.IsPlace : Ref → Prop
  | location _ | pending .. => True
  | _ => False

/-! ### Single operations -/

namespace Op

open Store

/-- What a single operation may do to a store. Flags may come out either way. -/
def Acts (s : Setting) (σ σ' : Store) : Op → Prop
  | ld d src => d.IsPlace ∧ Changes s σ σ' [d, .z, .n] ∧ Reads σ src (σ' d)
  | st _ (.indexed ..) | st _ (.indirect _) => σ' = σ
  | st src d => d.IsPlace ∧ Changes s σ σ' [d] ∧ Reads σ src (σ' d)
  | add d src => d.IsPlace ∧ Changes s σ σ' (d :: ((if d = .a then [] else [Ref.a]) ++ [.z, .n, .c, .v]))
      ∧ ∃ n, Reads σ src n ∧ σ' d = s.wrap d (σ d + n + σ .c)
  | sub d src => d.IsPlace ∧ Changes s σ σ' (d :: ((if d = .a then [] else [Ref.a]) ++ [.z, .n, .c, .v]))
      ∧ ∃ n, Reads σ src n ∧ σ' d = s.wrap d (σ d - n - (1 - σ .c))
  | cmp _ src => Changes s σ σ' ((if s.isWord src then [Ref.a] else []) ++ [.z, .n, .c])
  | and d src => d.IsPlace ∧ Changes s σ σ' [d, .z, .n]
      ∧ ∃ n, Reads σ src n ∧ σ' d = ((σ d).toNat &&& n.toNat : Nat)
  | or d src => d.IsPlace ∧ Changes s σ σ' [d, .z, .n]
      ∧ ∃ n, Reads σ src n ∧ σ' d = ((σ d).toNat ||| n.toNat : Nat)
  | xor d src => d.IsPlace ∧ Changes s σ σ' [d, .z, .n]
      ∧ ∃ n, Reads σ src n ∧ σ' d = ((σ d).toNat ^^^ n.toNat : Nat)
  | shl (.indexed ..) | shr (.indexed ..) => Changes s σ σ' [.z, .n, .c]
  | shl d => d.IsPlace ∧ Changes s σ σ' [d, .z, .n, .c] ∧ σ' d = s.wrap d (2 * σ d + σ .c)
  | shr d => d.IsPlace ∧ Changes s σ σ' [d, .z, .n, .c] ∧ σ' d = σ d / 2 + 128 * σ .c
  | inc (.indexed ..) | dec (.indexed ..) => Changes s σ σ' [.z, .n]
  | inc d => d.IsPlace ∧ Changes s σ σ' [d, .z, .n] ∧ σ' d = s.wrap d (σ d + 1)
  | dec d => d.IsPlace ∧ Changes s σ σ' [d, .z, .n] ∧ σ' d = s.wrap d (σ d - 1)
  | copy _ (.indexed ..) | copy _ (.indirect _) => Changes s σ σ' [.a, .z, .n]
  | copy src d => d.IsPlace ∧ Changes s σ σ' [d, .a, .z, .n]
      ∧ (s.typeOf src = s.typeOf d → Reads σ src (σ' d))
  | trash _ | nop => σ' = σ

end Op

/-! ### Accesses -/

/-- A cell that an operation reaches: the table, the constant offset, the index, and the value that the
index has at that moment. -/
structure Access where
  table : Ref
  offset : Ref
  index : Ref
  value : Int

/-- The access lies inside the table: offset and index together are at most its size less one. -/
def Access.InBounds (s : Setting) (a : Access) : Prop :=
  ∃ cell size c, s.typeOf a.table = .ok (.table cell size) ∧ a.offset = .constant c
    ∧ 0 ≤ c.value + a.value ∧ c.value + a.value ≤ size - 1

/-- The base, the offset and the index of an operand that is a cell of a table. -/
def Ref.cell? : Ref → Option (Ref × Ref × Ref)
  | indexed base offset index => some (base, offset, index)
  | _ => none

/-- The cells of tables that an operation reaches. -/
def Op.cells : Op → List (Ref × Ref × Ref)
  | trash _ => []
  | op => (op.src?.toList ++ op.dest?.toList).filterMap Ref.cell?

/-- The accesses of an operation, with the values its indexes have. -/
def Op.accesses (σ : Store) (op : Op) : List Access :=
  op.cells.map fun c => ⟨c.1, c.2.1, c.2.2, σ c.2.2⟩

/-! ### Blocks -/

/-- How something may run from a store: the accesses on the way and the store at its end. There is no
store where it was left by a jump, or has not come to its end yet. -/
abbrev Behaviour := Store → List Access → Option Store → Prop

/-- Runs a body one or more times. -/
inductive Iterates (body : Behaviour) : Behaviour
  | last {σ trace o} : body σ trace o → Iterates body σ trace o
  | more {σ σ' trace trace' o} : body σ trace (some σ') → Iterates body σ' trace' o →
      Iterates body σ (trace ++ trace') o

/-- Runs a body once for each value of a variable, up to the run with the final one. -/
inductive Counts (s : Setting) (d : Ref) (dir : Direction) (final : Int) (body : Behaviour) : Behaviour
  | cut {σ trace} : body σ trace none → Counts s d dir final body σ trace none
  | last {σ σ' trace} : body σ trace (some σ') → σ' d = final →
      Counts s d dir final body σ trace (some (σ'.put d (s.wrap d (σ' d + dir.step))))
  | more {σ σ' trace trace' o} : body σ trace (some σ') → σ' d ≠ final →
      Counts s d dir final body (σ'.put d (s.wrap d (σ' d + dir.step))) trace' o →
      Counts s d dir final body σ (trace ++ trace') o

/-- The locations a routine of the signature sets and spoils. A name that is still open stands for its
location as well. -/
def Signature.changed (sig : Signature) : List Ref :=
  (sig.outputs ++ sig.trashes).flatMap fun o => [.ofSlot o, .location o.name]

/-- What a call may do: it changes what the routine sets and spoils. -/
def Store.Returns (s : Setting) (target : String) (σ σ' : Store) : Prop :=
  ∃ ty sig, s.typeOfName target = .ok ty ∧ ty.target = .routine sig ∧ Changes s σ σ' sig.changed

/-- What setting bytes aside does at the end of its body: they have the values of its beginning again.
The accumulator serves on the way and may hold anything, unless it was set aside first. -/
def Store.Restores (s : Setting) (locations : List Ref) (σ σ1 σ' : Store) : Prop :=
  Typed s σ' ∧ (locations.head? = some .a → σ' .a = σ .a)
    ∧ ∀ r, r ≠ .a → σ' r = if r ∈ locations then σ r else σ1 r

mutual

/-- How an instruction may run. -/
def Instr.Runs (s : Setting) : Instr → Behaviour
  | .op _ op => fun σ trace o => trace = op.settled.accesses σ
      ∧ ∀ σ', o = some σ' → op.settled.Acts s σ σ'
  | .call _ target => fun σ trace o => trace = [] ∧ ∀ σ', o = some σ' → σ.Returns s target σ'
  | .goto _ _ => fun _ trace o => trace = [] ∧ o = none
  | .reset _ pointer _ => fun σ trace o => trace = []
      ∧ ∀ σ', o = some σ' → pointer.IsPlace ∧ σ.Changes s σ' [pointer]
  | .ifThen _ _ _ yes => fun σ trace o => yes.Runs s σ trace o ∨ (trace = [] ∧ o = some σ)
  | .ifElse _ _ _ yes no => fun σ trace o => yes.Runs s σ trace o ∨ no.Runs s σ trace o
  | .loop _ _ _ body => Iterates (body.Runs s)
  | .count _ d dir final body => fun σ trace o => d.IsPlace
      ∧ Counts s d.settled dir final.value (body.Runs s) σ trace o
  | .interruptsOff _ body => body.Runs s
  | .save _ locations body => fun σ trace o => (body.Runs s σ trace none ∧ o = none)
      ∨ ∃ σ1 σ', body.Runs s σ trace (some σ1) ∧ σ.Restores s locations σ1 σ' ∧ o = some σ'
  | .pointInto _ _ _ body => body.Runs s

/-- How a block may run. -/
def Block.Runs (s : Setting) : Block → Behaviour
  | .nil _ => fun σ trace o => trace = [] ∧ ∀ σ', o = some σ' → σ' = σ
  | .cons head tail => fun σ trace o => (head.Runs s σ trace none ∧ o = none)
      ∨ ∃ σ' first rest, head.Runs s σ first (some σ') ∧ tail.Runs s σ' rest o
        ∧ trace = first ++ rest

end

end CheckedAsm
