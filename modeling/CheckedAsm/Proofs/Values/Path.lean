import CheckedAsm.Proofs.Ranges.Execution
/-! # Paths through routine bodies

Which locations hold values along a path through a block, and which are used on the way. A path takes
either branch of a choice and goes through a loop one or more times. Each instruction has an effect of its
own: what it sets holds a value afterwards, what it spoils does not. A call has the effect that the routine
declares; a jump leaves the block with that effect. A path may also be cut short anywhere, so that loops
without end are covered as well.

What a path does to one location depends only on whether that location held a value before. So a path can be
taken again from any other set of locations, and tells what it did the first time. -/

namespace CheckedAsm

variable {σ : Type} {test : Set Ref → List Use}

/-- The tables that pointers are associated with. -/
abbrev Pointees := Ref → Option Ref

/-- Whether a reference is to storage, which holds a value only after it was given one. Constants and the
code of routines need no value. -/
def Setting.isStorage (s : Setting) : Ref → Bool
  | .constant _ => false
  | .location n => s.isLocal n || (match s.isConstant (.location n) with | .ok true => false | _ => true)
  | _ => true

namespace Ref

/-- The locations named in an operand. -/
def leaves : Ref → List Ref
  | constant _ => []
  | indexed base _ index => base.leaves ++ index.leaves
  | r => [r]

/-- The locations that are used where an operand is read. Through a pointer its table is read. -/
def read (env : Pointees) : Ref → List Ref
  | indirect p => p :: .y :: (env p).toList.flatMap leaves
  | r => r.leaves

/-- The locations that are used to find the place where an operand is written. -/
def reach : Ref → List Ref
  | indexed _ _ index => [index]
  | indirect p => [p, .y]
  | _ => []

/-- The location that changes where an operand is written. -/
def struck (env : Pointees) : Ref → List Ref
  | indexed base _ _ => [base]
  | indirect p => (env p).toList
  | r => [r]

end Ref

/-! ### Single operations -/

namespace Op

variable (s : Setting) (env : Pointees)

/-- The locations an operation uses. -/
def reads : Op → List Ref
  | ld _ src => src.read env
  | st src d => src.read env ++ d.reach
  | add d src | sub d src => src.read env ++ d.read env ++ [.c]
  | cmp d src | and d src | or d src | xor d src => src.read env ++ d.read env
  | shl d | shr d => d.read env ++ [.c]
  | inc d | dec d => d.read env
  | copy src d => src.read env ++ d.reach
  | trash _ | nop => []

/-- The locations an operation gives values. -/
def sets : Op → List Ref
  | ld d _ | and d _ | or d _ | xor d _ => [d, .z, .n]
  | st _ d | copy _ d => d.struck env
  | add d _ | sub d _ => [d, .z, .n, .c, .v]
  | cmp _ _ => [.z, .n, .c]
  | shl d | shr d => d.struck env ++ [.z, .n, .c]
  | inc d | dec d => d.struck env ++ [.z, .n]
  | trash _ | nop => []

/-- The locations an operation takes values from. Sums and comparisons of words and copies go through the
accumulator. -/
def spoils : Op → List Ref
  | add d src | sub d src => if src.cell?.isSome || d = .a then [] else [.a]
  | cmp _ src => if s.isWord src then [.a] else []
  | copy _ _ => [.a, .z, .n]
  | trash d => [d]
  | _ => []

/-- Whether the operation stores a location into itself. -/
def storesItself : Op → Bool
  | st src d => (d.struck env).contains src
  | _ => false

end Op

/-! ### What is used and what is touched -/

/-- What the value of a location is used for. -/
inductive Purpose where
  | operand
  | itself
  | input
  | vector
  | table
  | counter
  | loopTest
  | choice
  deriving DecidableEq

/-- Whether the analysis looks at uses of this kind. It does not look at what an operation stores into
itself, at the vector of a call or a jump, and at the condition of a choice. -/
def Purpose.isChecked : Purpose → Bool
  | itself | vector | choice => false
  | _ => true

/-- A use of a location, and whether it held a value at that moment. -/
structure Use where
  purpose : Purpose
  location : Ref
  held : Prop

/-- The uses of locations, where the given ones hold values. -/
def Setting.uses (s : Setting) (live : Set Ref) (purpose : Purpose) (rs : List Ref) : List Use :=
  (rs.filter s.isStorage).map fun r => ⟨purpose, r, r ∈ live⟩

/-- What happens on a way through something: the uses of locations, the locations that are touched, and the routines
that are entered, each with those that wait for it to come back. -/
structure Log where
  uses : List Use := []
  touched : List Ref := []
  entered : List (String × List String) := []

/-- What happens on one way and then on another. -/
def Log.append (l m : Log) : Log := ⟨l.uses ++ m.uses, l.touched ++ m.touched, l.entered ++ m.entered⟩

instance : Append Log := ⟨Log.append⟩

@[simp] theorem Log.uses_append (l m : Log) : (l ++ m).uses = l.uses ++ m.uses := rfl

@[simp] theorem Log.touched_append (l m : Log) : (l ++ m).touched = l.touched ++ m.touched := rfl

@[simp] theorem Log.entered_append (l m : Log) : (l ++ m).entered = l.entered ++ m.entered := rfl

/-- How a way through something ends: cut short, at the end of the block, or by a jump; the last two with the state
there. -/
inductive Ending (σ : Type) where
  | cut
  | done (state : σ)
  | left (state : σ)

/-- An ending with the state at the end of the block changed. -/
def Ending.map {σ : Type} (f : σ → σ) : Ending σ → Ending σ
  | done a => done (f a)
  | o => o

theorem Ending.map_eq_done {f : σ → σ} {o : Ending σ} {b : σ} : o.map f = .done b ↔ ∃ a, o = .done a ∧ f a = b := by
  cases o <;> simp [map]

theorem Ending.map_eq_left {f : σ → σ} {o : Ending σ} {b : σ} : o.map f = .left b ↔ o = .left b := by
  cases o <;> simp [map]

/-- The ways through something: from a state, what happens and how it ends. -/
abbrev Way (σ : Type) := σ → Log → Ending σ → Prop

namespace Way

/-- One step, cut short or not. -/
def acts (log : σ → Log) (f : σ → σ) : Way σ := fun a l o => l = log a ∧ (o = .cut ∨ o = .done (f a))

/-- Nothing at all. -/
def skip : Way σ := acts (fun _ => {}) id

/-- One thing after another. -/
def seq (first second : Way σ) : Way σ := fun a log o =>
  (first a log o ∧ ∀ b, o ≠ .done b) ∨ (o = .cut ∧ ∃ b, first a log (.done b))
    ∨ ∃ b l m, first a l (.done b) ∧ second b m o ∧ log = l ++ m

/-- One of two things, after some uses. -/
def choice (test : σ → List Use) (yes no : Way σ) : Way σ := fun a log o =>
  ∃ rest, (yes a rest o ∨ no a rest o) ∧ log = { uses := test a } ++ rest

end Way

/-- Goes through a body one or more times, with some uses after each time. It comes to an end only if there is a
condition for that. -/
inductive Turns {σ : Type} (ends : Bool) (test : σ → List Use) (body : Way σ) : Way σ
  | cut {a log} : body a log .cut → Turns ends test body a log .cut
  | left {a log b} : body a log (.left b) → Turns ends test body a log (.left b)
  | stop {a log b} : body a log (.done b) → Turns ends test body a (log ++ { uses := test b }) .cut
  | last {a log b} : ends = true → body a log (.done b) →
      Turns ends test body a (log ++ { uses := test b }) (.done b)
  | more {a log b log' o} : body a log (.done b) → Turns ends test body b log' o →
      Turns ends test body a (log ++ { uses := test b } ++ log') o

/-- The ways through something on which only is followed which locations hold values. -/
abbrev Paths := Way (Set Ref)

/-- What a single operation uses and touches. -/
def Op.log (s : Setting) (env : Pointees) (live : Set Ref) (op : Op) : Log :=
  { uses := s.uses live (if op.storesItself env then .itself else .operand) (op.reads env)
    touched := op.sets env ++ op.spoils s }

/-- The locations that hold values after some were set and then some were spoiled. -/
def valuesAfter (sets spoils : List Ref) (live : Set Ref) : Set Ref :=
  {r | (r ∈ live ∨ r ∈ sets) ∧ r ∉ spoils}

/-- The locations that hold values after bytes were set aside: those that were set aside hold one if they did
before. The accumulator serves on the way and is spoiled, unless it was set aside first. -/
def valuesRestored (locations : List Ref) (before inside : Set Ref) : Set Ref :=
  {r | (if r ∈ locations then r ∈ before else r ∈ inside) ∧ (r = .a → locations.head? = some .a)}

/-- What is touched where bytes are set aside: they are not, once they are restored, but the accumulator may be. -/
def touchedSaving {σ : Type} (locations touched : List Ref) : Ending σ → List Ref
  | .cut => touched.filter fun r => !locations.contains r
  | .done _ => touched.filter (fun r => !locations.contains r)
      ++ if locations.head? = some .a then [] else [.a]
  | .left _ => touched

/-- What a call uses: the vector it goes through, and what the routine reads. -/
def Setting.callUses (s : Setting) (live : Set Ref) (target : String) (ty : Ty) (sig : Signature) : List Use :=
  s.uses live .vector (if ty.isVector then [.location target] else [])
    ++ s.uses live .input (sig.inputs.map .ofSlot)

/-- What a call does: what it uses and touches, and which locations hold values when control comes back. -/
def Setting.Calls (s : Setting) (target : String) (live : Set Ref) (log : Log) (after : Set Ref) : Prop :=
  ∃ ty sig, s.typeOfName target = .ok ty ∧ ty.target = .routine sig
    ∧ log = { uses := s.callUses live target ty sig, touched := (sig.outputs ++ sig.trashes).map .ofSlot }
    ∧ after = valuesAfter (sig.outputs.map .ofSlot) (sig.trashes.map .ofSlot) live

mutual

/-- The paths through an instruction. -/
def Instr.Paths (s : Setting) (env : Pointees) : Instr → Paths
  | .op _ op => .acts (op.settled.log s env) (valuesAfter (op.settled.sets env) (op.settled.spoils s))
  | .call _ target => fun live log o => ∃ after, s.Calls target live log after ∧ (o = .cut ∨ o = .done after)
  | .goto _ target => fun live log o => ∃ after, s.Calls target live log after ∧ (o = .cut ∨ o = .left after)
  | .reset _ p _ =>
      .acts (fun live => { uses := s.uses live .table ((env p).toList.flatMap Ref.leaves), touched := [p] })
        (valuesAfter [p] [])
  | .ifThen _ src _ yes => .choice (fun live => s.uses live .choice src.leaves) (yes.Paths s env) .skip
  | .ifElse _ src _ yes no =>
      .choice (fun live => s.uses live .choice src.leaves) (yes.Paths s env) (no.Paths s env)
  | .loop _ src _ body =>
      Turns src.isSome (fun live => s.uses live .loopTest (src.toList.flatMap Ref.leaves)) (body.Paths s env)
  | .count _ d _ _ body =>
      .seq (.acts (fun live => { uses := s.uses live .counter d.leaves }) (valuesAfter [d] []))
        (.seq (Turns true (fun live => s.uses live .counter d.leaves) (body.Paths s env))
          (.acts (fun _ => {}) (valuesAfter [d] [])))
  | .interruptsOff _ body => body.Paths s env
  | .save _ locations body => fun live log o => ∃ inner o', body.Paths s env live inner o'
      ∧ log = { inner with touched := touchedSaving locations inner.touched o' }
      ∧ o = o'.map (valuesRestored locations live)
  | .pointInto _ p table body => fun live log o => ∃ o',
      body.Paths s (fun q => if q = p then some table else env q) (live \ {p}) log o'
      ∧ o = o'.map (· \ {p})

/-- The paths through a block. -/
def Block.Paths (s : Setting) (env : Pointees) : Block → Paths
  | .nil _ => .skip
  | .cons head tail => .seq (head.Paths s env) (tail.Paths s env)

end

/-! ### Taking a path again -/

/-- A way through and the same one from other locations end alike. A location that holds a value when it has been taken again held
one the first time, unless only the second start gave it one. -/
inductive Ending.Alike (live other : Set Ref) : Ending (Set Ref) → Ending (Set Ref) → Prop
  | cut : Alike live other .cut .cut
  | done {after after'} : (∀ r, (r ∈ other → r ∈ live) → r ∈ after' → r ∈ after) → Alike live other (.done after) (.done after')
  | left {after after'} : Alike live other (.left after) (.left after')

/-- Every way through can be taken again from any other locations. -/
def Repeatable (run : Paths) : Prop :=
  ∀ ⦃live log o⦄, run live log o → ∀ other, ∃ log' o', run other log' o' ∧ o.Alike live other o'

theorem Repeatable.done {run : Paths} {live after : Set Ref} {log : Log} (h : Repeatable run) (hrun : run live log (.done after))
    (other : Set Ref) : ∃ log' after', run other log' (.done after') ∧ ∀ r, (r ∈ other → r ∈ live) → r ∈ after' → r ∈ after := by
  obtain ⟨log', _, hrun', ⟨⟩ | ⟨hback⟩ | ⟨⟩⟩ := h hrun other
  exact ⟨log', _, hrun', hback⟩

theorem repeatable_acts {log : Set Ref → Log} {f : Set Ref → Set Ref}
    (h : ∀ live other r, (r ∈ other → r ∈ live) → r ∈ f other → r ∈ f live) : Repeatable (.acts log f) := by
  rintro live _ o ⟨-, rfl | rfl⟩ other
  · exact ⟨_, _, ⟨rfl, .inl rfl⟩, .cut⟩
  · exact ⟨_, _, ⟨rfl, .inr rfl⟩, .done (h live other)⟩

theorem repeatable_valuesAfter {sets spoils : List Ref} {live other : Set Ref} {r : Ref} (hr : r ∈ other → r ∈ live)
    (h : r ∈ valuesAfter sets spoils other) : r ∈ valuesAfter sets spoils live :=
  ⟨h.1.imp hr id, h.2⟩

theorem repeatable_skip : Repeatable .skip := repeatable_acts fun _ _ _ hr => hr

theorem Repeatable.choice {yes no : Paths} (hyes : Repeatable yes) (hno : Repeatable no) : Repeatable (.choice test yes no) := by
  rintro live log o ⟨rest, hrun | hrun, -⟩ other
  · obtain ⟨log', o', hrun, hback⟩ := hyes hrun other
    exact ⟨_, o', ⟨log', .inl hrun, rfl⟩, hback⟩
  · obtain ⟨log', o', hrun, hback⟩ := hno hrun other
    exact ⟨_, o', ⟨log', .inr hrun, rfl⟩, hback⟩

theorem Ending.Alike.from {live live' other other' : Set Ref} {o o' : Ending (Set Ref)} (h : o.Alike live' other' o')
    (hback : ∀ r, (r ∈ other → r ∈ live) → r ∈ other' → r ∈ live') : o.Alike live other o' := by
  cases h with
  | cut => exact .cut
  | done h => exact .done fun r hr => h r (hback r hr)
  | left => exact .left

theorem Repeatable.seq {first second : Paths} (hfirst : Repeatable first) (hsecond : Repeatable second) :
    Repeatable (.seq first second) := by
  rintro live log o (⟨hrun, hnot⟩ | ⟨rfl, mid, hrun⟩ | ⟨mid, _, _, hrun1, hrun2, -⟩) other
  · obtain ⟨log', o', hrun', hback⟩ := hfirst hrun other
    refine ⟨log', o', .inl ⟨hrun', ?_⟩, hback⟩
    cases hback with
    | done => exact absurd rfl (hnot _)
    | cut | left => simp
  · obtain ⟨log', mid', hrun', -⟩ := hfirst.done hrun other
    exact ⟨log', .cut, .inr (.inl ⟨rfl, mid', hrun'⟩), .cut⟩
  · obtain ⟨log1, mid', hrun1, hback1⟩ := hfirst.done hrun1 other
    obtain ⟨log2, o', hrun2, hback2⟩ := hsecond hrun2 mid'
    exact ⟨_, o', .inr (.inr ⟨mid', log1, log2, hrun1, hrun2, rfl⟩), hback2.from hback1⟩

theorem Turns.repeatable {ends : Bool} {body : Paths} (hbody : Repeatable body) : Repeatable (Turns ends test body) := by
  intro live log o h
  induction h with
  | cut hrun =>
    intro other
    obtain ⟨log', _, hrun', ⟨⟩⟩ := hbody hrun other
    exact ⟨_, _, .cut hrun', .cut⟩
  | left hrun =>
    intro other
    obtain ⟨log', _, hrun', ⟨⟩⟩ := hbody hrun other
    exact ⟨_, _, .left hrun', .left⟩
  | stop hrun =>
    intro other
    obtain ⟨log', after', hrun', -⟩ := hbody.done hrun other
    exact ⟨_, _, .stop hrun', .cut⟩
  | last hends hrun =>
    intro other
    obtain ⟨log', after', hrun', hback⟩ := hbody.done hrun other
    exact ⟨_, _, .last hends hrun', .done hback⟩
  | more hrun _ ih =>
    intro other
    obtain ⟨log1, after1, hrun1, hback1⟩ := hbody.done hrun other
    obtain ⟨log2, o', hrun2, hback2⟩ := ih after1
    exact ⟨_, o', .more hrun1 hrun2, hback2.from hback1⟩

mutual

theorem Instr.paths_repeatable (s : Setting) (env : Pointees) : ∀ i : Instr, Repeatable (i.Paths s env)
  | .op line op => repeatable_acts fun _ _ _ => repeatable_valuesAfter
  | .call line target => by
    rintro live log o ⟨after, ⟨ty, sig, hty, hsig, -, rfl⟩, rfl | rfl⟩ other
    · exact ⟨_, _, ⟨_, ⟨ty, sig, hty, hsig, rfl, rfl⟩, .inl rfl⟩, .cut⟩
    · exact ⟨_, _, ⟨_, ⟨ty, sig, hty, hsig, rfl, rfl⟩, .inr rfl⟩, .done fun r hr => repeatable_valuesAfter hr⟩
  | .goto line target => by
    rintro live log o ⟨after, ⟨ty, sig, hty, hsig, -, rfl⟩, rfl | rfl⟩ other
    · exact ⟨_, _, ⟨_, ⟨ty, sig, hty, hsig, rfl, rfl⟩, .inl rfl⟩, .cut⟩
    · exact ⟨_, _, ⟨_, ⟨ty, sig, hty, hsig, rfl, rfl⟩, .inr rfl⟩, .left⟩
  | .reset line p offset => repeatable_acts fun _ _ _ => repeatable_valuesAfter
  | .ifThen line src inv yes => (yes.paths_repeatable s env).choice repeatable_skip
  | .ifElse line src inv yes no => (yes.paths_repeatable s env).choice (no.paths_repeatable s env)
  | .loop line src inv body => Turns.repeatable (body.paths_repeatable s env)
  | .count line d dir final body =>
    (repeatable_acts fun _ _ _ => repeatable_valuesAfter).seq
      ((Turns.repeatable (body.paths_repeatable s env)).seq (repeatable_acts fun _ _ _ => repeatable_valuesAfter))
  | .interruptsOff line body => body.paths_repeatable s env
  | .save line locations body => by
    rintro live log _ ⟨inner, o, hrun, -, rfl⟩ other
    obtain ⟨log', o', hrun', hback⟩ := body.paths_repeatable s env hrun other
    refine ⟨_, _, ⟨log', o', hrun', rfl, rfl⟩, ?_⟩
    cases hback with
    | cut => exact .cut
    | left => exact .left
    | done hback =>
      refine .done fun r hr hafter => ⟨?_, hafter.2⟩
      have hvalue := hafter.1
      by_cases hmem : r ∈ locations
      · rw [if_pos hmem] at hvalue ⊢
        exact hr hvalue
      · rw [if_neg hmem] at hvalue ⊢
        exact hback r hr hvalue
  | .pointInto line p table body => by
    rintro live log _ ⟨o, hrun, rfl⟩ other
    obtain ⟨log', o', hrun', hback⟩ := body.paths_repeatable s _ hrun (other \ {p})
    refine ⟨log', _, ⟨o', hrun', rfl⟩, ?_⟩
    cases hback with
    | cut => exact .cut
    | left => exact .left
    | done hback => exact .done fun r hr hafter => ⟨hback r (fun h => ⟨hr h.1, h.2⟩) hafter.1, hafter.2⟩

theorem Block.paths_repeatable (s : Setting) (env : Pointees) : ∀ b : Block, Repeatable (b.Paths s env)
  | .nil _ => repeatable_skip
  | .cons head tail => (head.paths_repeatable s env).seq (tail.paths_repeatable s env)

end

end CheckedAsm
