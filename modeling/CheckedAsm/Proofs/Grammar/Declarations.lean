import CheckedAsm.Proofs.Assoc
import CheckedAsm.Proofs.Calls.Graph
import CheckedAsm.Proofs.Grammar.Spelling
import CheckedAsm.Source.Load
/-! # The table of symbols and the program

Files are read into a program and a table of symbols at once, and the two tell the same: beside the registers and flags
the table holds just the definitions and the routines of the program, each under its own name, and for each routine its
local definitions, in their order. This holds after every definition and every routine, whatever is included and
however many files are read one after the other. Once a file is read to its end, what is called in it is global. -/

namespace CheckedAsm

open Assoc List

variable {slot : Slot} {ty : Ty} {s s' s1 : Symbols} {p q : Program} {r : Routine} {file name : String} {e : Entry}
  {ds : List Defn} {d : Defn} {k : Nat} {mains starts : List String} {α : Type} {load : Include} {c : Cursor}
  {included ps : List Program}

/-! ### Agreement -/

instance : Append Program := ⟨fun p q => ⟨p.defns ++ q.defns, p.routines ++ q.routines⟩⟩

namespace Program

/-- The names that a program defines. -/
def names (p : Program) : List String := p.defns.map (·.name) ++ p.routines.map (·.name)

@[simp] theorem append_defns (p q : Program) : (p ++ q).defns = p.defns ++ q.defns := rfl

@[simp] theorem append_routines (p q : Program) : (p ++ q).routines = p.routines ++ q.routines := rfl

theorem merge_cons (p : Program) (ps : List Program) : merge (p :: ps) = p ++ merge ps := rfl

theorem merge_append (ps qs : List Program) : merge (ps ++ qs) = merge ps ++ merge qs :=
  congrArg₂ Program.mk (by simp [merge]) (by simp [merge])

theorem append_assoc (p q r : Program) : p ++ q ++ r = p ++ (q ++ r) :=
  congrArg₂ Program.mk (List.append_assoc ..) (List.append_assoc ..)

@[simp] theorem append_empty (p : Program) : p ++ (⟨[], []⟩ : Program) = p :=
  congrArg₂ Program.mk (append_nil _) (append_nil _)

theorem merge_singleton (p : Program) : merge [p] = p := by
  simp [merge]

end Program

/-- A routine either stands at an address or has a body, and only with a body has it locals. -/
structure Routine.Spelled (r : Routine) : Prop where
  given : r.body = none ↔ r.addr.isSome = true
  bare : r.body = none → r.locals = []

/-- The entry of a name in the table is the program's own definition or routine of that name. -/
def Program.Defines (p : Program) (name : String) (e : Entry) : Prop :=
  (∃ d ∈ p.defns, d.name = name ∧ e.decl = .defn d ∧ e.ty.Spelled ∧ d.Spelled e.ty) ∨
    ∃ r ∈ p.routines, r.name = name ∧ e.decl = .routine r ∧ e.ty.isRoutine = true ∧ r.Spelled

/-- The entry of a local definition. No local takes the name of a register or flag. -/
structure Defn.Local (d : Defn) (e : String × Entry) : Prop where
  name : e.1 = d.name
  decl : e.2.decl = .defn d
  ty : e.2.ty.Spelled
  spelled : d.Spelled e.2.ty
  apart : ∀ b ∈ Symbols.builtins, b.1 ≠ d.name

/-- The name of the operand is global, if it was left pending. The base of a table cell may not be left pending. -/
def Ref.Resolves (s : Symbols) : Ref → Prop
  | .pending n _ => s.hasGlobal n = true
  | .indexed (.pending ..) .. => False
  | _ => True

/-- What was left pending in an operation is global, and so is what is called or jumped to. -/
def Instr.Resolves (s : Symbols) : Instr → Prop
  | .op _ o => (∀ r, o.src? = some r → r.Resolves s) ∧ ∀ r, o.dest? = some r → r.Resolves s
  | .call _ target | .goto _ target => s.hasGlobal target = true
  | _ => True

/-- This holds for every instruction of a block, at any depth. -/
def Block.Resolves (s : Symbols) (b : Block) : Prop := ∀ i, b.Contains i → i.Resolves s

/-- The locations that a type names. -/
def Ty.slots : Ty → Slots
  | .routine sig => sig.inputs ++ sig.outputs ++ sig.trashes
  | .vector of | .table of _ => of.slots
  | _ => []

theorem Slots.mem_of_ofNames {names : List String} (h : slot ∈ ofNames names) : slot.site? = none ∧ slot.name ∈ names := by
  have hinsert {t : Slot} {l : Slots} (h : slot ∈ insert t l) : slot = t ∨ slot ∈ l := by
    fun_induction insert t l <;> grind
  have hfold (l : List Slot) : ∀ acc : Slots, slot ∈ l.foldl (fun acc s => insert s acc) acc → slot ∈ l ∨ slot ∈ acc := by
    induction l with
    | nil => exact fun _ => .inr
    | cons t l ih => grind
  obtain hmem | hmem := hfold _ _ h
  · obtain ⟨n, hn, rfl⟩ := mem_map.1 hmem
    exact ⟨rfl, hn⟩
  · cases hmem

theorem Ty.slots_settled (h : slot ∈ ty.settled.slots) : slot.site? = none ∧ slot.name ∈ ty.names := by
  induction ty with
  | bit | byte | word | pointer => cases h
  | vector of ih | table of size ih => exact ih h
  | routine sig =>
    simp only [settled, slots, mem_append] at h
    simp only [names, map_append, mem_append]
    obtain (h | h) | h := h <;> simp [Slots.mem_of_ofNames h]

namespace Symbols

/-- The body of a routine can be spelled, and its names are known to the table. -/
def Reads (s : Symbols) (r : Routine) : Prop :=
  ∀ known, (∀ n, s.Knows r.name n → known n) → ∀ b, r.body = some b → b.Spelled known

/-- The table declares just what the program defines. -/
structure Declares (s : Symbols) (p : Program) : Prop where
  readable : s.Readable
  builtins : ∀ e ∈ Symbols.builtins, s.globals.get? e.1 = some e.2
  globals : ∀ name e, s.globals.get? name = some e → (name, e) ∈ Symbols.builtins ∨ p.Defines name e
  defined : ∀ name ∈ p.names, ∃ e, s.globals.get? name = some e ∧ p.Defines name e
  names : p.names.Nodup
  bodies : ∀ r ∈ p.routines, s.Reads r
  locals : ∀ r ∈ p.routines, List.Forall₂ Defn.Local r.locals (s.localsOf r.name).entries
  others : ∀ name, (∀ r ∈ p.routines, r.name = name → r.locals = []) → s.locals.get? name = none

/-- What was left pending in operations is global, and so is what is called or jumped to. -/
def Settles (s : Symbols) (p : Program) : Prop :=
  ∀ r ∈ p.routines, ∀ b, r.body = some b → b.Resolves s

/-- The types of global locations are settled, with global names. -/
def Typed (s : Symbols) : Prop :=
  ∀ name e, s.globals.get? name = some e → ∀ slot ∈ e.ty.slots, slot.site? = none ∧ s.hasGlobal slot.name = true

/-- The fault names something that is not global, or complains of a base that was left pending. -/
def Lacks (s : Symbols) (c : Cursor) (f : Fault) : Prop :=
  (∃ n, f = c.flaw (.undefinedSymbol n) ∧ s.hasGlobal n = false) ∨ f = .lateBase

/-- The table declares just what the program defines, and all names are settled that can be. -/
structure Agrees (s : Symbols) (p : Program) : Prop where
  declares : s.Declares p
  settles : s.Settles p
  typed : s.Typed

/-- No global name is lost. -/
def Within (s s' : Symbols) : Prop := ∀ name, s.hasGlobal name = true → s'.hasGlobal name = true

theorem Within.trans (h : s.Within s1) (h' : s1.Within s') : s.Within s' := fun name hname => h' name (h name hname)

theorem Within.resolves (hin : s.Within s') {i : Instr} (h : i.Resolves s) : i.Resolves s' := by
  have href {r : Ref} (h : r.Resolves s) : r.Resolves s' := by
    cases r with
    | pending n => exact hin n h
    | indexed base => cases base <;> exact h
    | _ => trivial
  cases i with
  | op _ op => exact ⟨fun r hr => href (h.1 r hr), fun r hr => href (h.2 r hr)⟩
  | call _ target | goto _ target => exact hin target h
  | _ => trivial

theorem Settles.within (h : s.Settles p) (hin : s.Within s') : s'.Settles p :=
  fun r hr b hb i hi => hin.resolves (h r hr b hb i hi)

theorem Reads.mono (h : s.Reads r) (hin : ∀ n, s.Knows r.name n → s'.Knows r.name n) : s'.Reads r :=
  fun known hknown => h known fun n hn => hknown n (hin n hn)

theorem Settles.append (h : s.Settles p) (h' : s.Settles q) : s.Settles (p ++ q) :=
  fun r hr => (mem_append.1 hr).elim (h r) (h' r)

theorem within_declare : s.Within (s.declare name e) := by
  intro n hn
  unfold hasGlobal Assoc.has declare at *
  rw [get?_set]
  split
  · rfl
  · exact hn

theorem within_settleGlobals : s.Within s.settleGlobals := by
  intro n hn
  rw [hasGlobal, Assoc.has, settleGlobals, get?_mapValues, Option.isSome_map]
  exact hn

theorem initial_declares : initial.Declares {} where
  readable := ⟨fun _ _ h => (nomatch h), fun _ _ h => nomatch h⟩
  builtins e he := by
    simp only [Symbols.builtins, map_cons, map_nil, cons_append, nil_append, mem_cons,
      not_mem_nil, or_false] at he
    rcases he with rfl | rfl | rfl | rfl | rfl | rfl | rfl <;> rfl
  globals _ _ h := .inl (mem_of_get? h)
  defined _ h := nomatch h
  names := .nil
  bodies _ h := nomatch h
  locals _ h := nomatch h
  others _ _ := rfl

/-! ### Declaring one thing more -/

/-- Local definitions of a routine were declared one after the other, and nothing else was. -/
structure Adds (s s' : Symbols) (routine : String) (ds : List Defn) : Prop where
  globals : s'.globals = s.globals
  consts : s'.consts = s.consts
  typedefs : s'.typedefs = s.typedefs
  others : ∀ name, name ≠ routine ∨ ds = [] → s'.locals.get? name = s.locals.get? name
  entries : ∃ es, (s'.localsOf routine).entries = (s.localsOf routine).entries ++ es ∧ List.Forall₂ Defn.Local ds es

namespace Adds

variable {routine : String} {ds' : List Defn}

theorem refl : s.Adds s routine [] := ⟨rfl, rfl, rfl, fun _ _ => rfl, [], (append_nil _).symm, .nil⟩

theorem trans (h : s.Adds s1 routine ds) (h' : s1.Adds s' routine ds') : s.Adds s' routine (ds ++ ds') where
  globals := h'.globals.trans h.globals
  consts := h'.consts.trans h.consts
  typedefs := h'.typedefs.trans h.typedefs
  others name hname := by
    have hboth : (name ≠ routine ∨ ds' = []) ∧ (name ≠ routine ∨ ds = []) := by
      obtain hname | hnil := hname
      · exact ⟨.inl hname, .inl hname⟩
      · exact ⟨.inr (append_eq_nil_iff.1 hnil).2, .inr (append_eq_nil_iff.1 hnil).1⟩
    exact (h'.others name hboth.1).trans (h.others name hboth.2)
  entries := by
    obtain ⟨es, hes, hlocal⟩ := h.entries
    obtain ⟨es', hes', hlocal'⟩ := h'.entries
    exact ⟨es ++ es', by rw [hes', hes, append_assoc], rel_append hlocal hlocal'⟩

theorem readable (h : s.Adds s' routine ds) (hs : s.Readable) : s'.Readable :=
  ⟨h.consts ▸ hs.consts, h.typedefs ▸ hs.typedefs⟩

theorem one (hnew : s.hasLocal routine d.name = false) (hlocal : d.Local (d.name, ⟨.defn d, ty⟩)) :
    s.Adds (s.declareLocal routine d.name ⟨.defn d, ty⟩) routine [d] where
  globals := rfl
  consts := rfl
  typedefs := rfl
  others name hname := by
    have hne : routine ≠ name := hname.elim (·.symm) fun h => nomatch h
    rw [declareLocal, get?_set, if_neg hne]
  entries := by
    refine ⟨[(d.name, ⟨.defn d, ty⟩)], ?_, .cons hlocal .nil⟩
    rw [← entries_set_of_new hnew]
    simp [localsOf, declareLocal]

end Adds

end Symbols

section

theorem Program.Defines.append_left (h : p.Defines name e) : (p ++ q).Defines name e :=
  h.imp (fun ⟨d, hd, h⟩ => ⟨d, mem_append_left _ hd, h⟩) fun ⟨r, hr, h⟩ => ⟨r, mem_append_left _ hr, h⟩

theorem Program.Defines.append_right (h : q.Defines name e) : (p ++ q).Defines name e :=
  h.imp (fun ⟨d, hd, h⟩ => ⟨d, mem_append_right _ hd, h⟩) fun ⟨r, hr, h⟩ => ⟨r, mem_append_right _ hr, h⟩

theorem Program.names_append : (p ++ q).names.Perm (p.names ++ q.names) := by
  simp only [names, append_defns, append_routines, List.map_append, List.append_assoc]
  refine List.Perm.append_left _ ?_
  rw [← List.append_assoc, ← List.append_assoc]
  exact List.perm_append_comm.append_right _

theorem Program.mem_names (hr : r ∈ p.routines) : r.name ∈ p.names :=
  mem_append_right _ (mem_map_of_mem hr)

/-- One thing more is defined, under a name that was free, after its locals if it is a routine. -/
theorem Symbols.Declares.declare (h : s.Declares p) (hadds : s.Adds s1 name ds) (hfree : s.hasGlobal name = false)
    (hq : q.names = [name]) (hnew : q.Defines name e) (hds : ∀ r ∈ q.routines, r.locals = ds)
    (hbare : q.routines = [] → ds = []) (hreads : ∀ r ∈ q.routines, s1.Reads r) : (s1.declare name e).Declares (p ++ q) := by
  have hget (n : String) : (s1.declare name e).globals.get? n = if name = n then some e else s.globals.get? n := by
    rw [Symbols.declare, get?_set, hadds.globals]
  have hnone : s.globals.get? name = none := by simpa [hasGlobal, Assoc.has] using hfree
  have hmem : name ∉ p.names := by
    intro hmem
    obtain ⟨_, hsome, -⟩ := h.defined name hmem
    rw [hnone] at hsome
    cases hsome
  -- No routine read so far has the name, so no locals were recorded under it.
  have hclean : s.locals.get? name = none :=
    h.others name fun r hr hname => absurd (hname ▸ Program.mem_names hr) hmem
  have hlocals : (s1.declare name e).locals = s1.locals := rfl
  have hqname {r : Routine} (hr : r ∈ q.routines) : r.name = name := mem_singleton.1 (hq ▸ Program.mem_names hr)
  have hreadable : (s1.declare name e).Readable := ⟨(hadds.readable h.readable).consts, (hadds.readable h.readable).typedefs⟩
  have hlocalsOf {r : Routine} (hr : r ∈ p.routines) : (s1.declare name e).localsOf r.name = s.localsOf r.name := by
    have hne : r.name ≠ name := fun heq => hmem (heq ▸ Program.mem_names hr)
    rw [localsOf, hlocals, hadds.others r.name (.inl hne)]
    rfl
  refine ⟨hreadable, fun b hb => ?_, fun n k hk => ?_, fun n hn => ?_, ?_, fun r hr => ?_, fun r hr => ?_, fun n hn => ?_⟩
  · have hne : name ≠ b.1 := fun heq => by
      have hb := h.builtins b hb
      rw [← heq, hnone] at hb
      cases hb
    rw [hget, if_neg hne]
    exact h.builtins b hb
  · rw [hget] at hk
    split at hk
    case isTrue heq =>
      cases hk
      exact .inr (heq ▸ hnew.append_right)
    case isFalse => exact (h.globals n k hk).imp_right (·.append_left)
  · obtain hn | hn := mem_append.1 (Program.names_append.mem_iff.1 hn)
    · obtain ⟨k, hk, hdef⟩ := h.defined n hn
      refine ⟨k, ?_, hdef.append_left⟩
      have hne : name ≠ n := fun heq => hmem (heq ▸ hn)
      rw [hget, if_neg hne, hk]
    · obtain rfl : n = name := mem_singleton.1 (hq ▸ hn)
      exact ⟨e, by rw [hget, if_pos rfl], hnew.append_right⟩
  · rw [Program.names_append.nodup_iff, hq]
    refine nodup_append.2 ⟨h.names, nodup_singleton name, fun a ha b hb hab => hmem ?_⟩
    rw [← mem_singleton.1 hb, ← hab]
    exact ha
  · obtain hr | hr := mem_append.1 hr
    · refine (h.bodies r hr).mono fun n hn => hn.imp (fun hn => within_declare n ?_) fun hn => ?_
      · rwa [hasGlobal, hadds.globals]
      · rwa [hasLocal, hlocalsOf hr]
    · exact (hreads r hr).mono fun n hn => hn.imp_left (within_declare n)
  · obtain hr | hr := mem_append.1 hr
    · exact hlocalsOf hr ▸ h.locals r hr
    · obtain ⟨es, hes, hlocal⟩ := hadds.entries
      rw [hqname hr, hds r hr, localsOf, hlocals]
      rw [localsOf, localsOf, hclean] at hes
      exact hes ▸ hlocal
  · rw [hlocals]
    obtain rfl | hne := eq_or_ne n name
    · have hnil : ds = [] := by
        cases hrs : q.routines with
        | nil => exact hbare hrs
        | cons r rs =>
          have hr : r ∈ q.routines := hrs ▸ mem_cons_self
          rw [← hds r hr]
          exact hn r (mem_append_right _ hr) (hqname hr)
      rw [hadds.others n (.inr hnil), hclean]
    · rw [hadds.others n (.inl hne)]
      exact h.others n fun r hr => hn r (mem_append_left _ hr)

/-- Names for types and constants touch nothing else. -/
theorem Symbols.Declares.abbreviate (h : s.Declares p) (hs : s1.Readable) (hglobals : s1.globals = s.globals)
    (hlocals : s1.locals = s.locals) : s1.Declares p where
  readable := hs
  builtins := hglobals ▸ h.builtins
  globals := hglobals ▸ h.globals
  defined := hglobals ▸ h.defined
  names := h.names
  bodies r hr := (h.bodies r hr).mono fun n hn => by rwa [Knows, hasGlobal, hasLocal, localsOf, hglobals, hlocals]
  locals r hr := by
    rw [localsOf, hlocals]
    exact h.locals r hr
  others := hlocals ▸ h.others

theorem Ty.Spelled.settled (h : ty.Spelled) : ty.settled.Spelled := by
  induction ty with
  | bit => exact h
  | byte | word | pointer | routine => trivial
  | vector of => cases of <;> exact h
  | table of size ih => exact ⟨ih h.1, h.2⟩

theorem Ty.isTable_settled (ty : Ty) : ty.settled.isTable = ty.isTable := by cases ty <;> rfl

theorem Defn.Spelled.settled (h : d.Spelled ty) : d.Spelled ty.settled where
  once := h.once
  suits i hi := by
    have hi := h.suits i hi
    cases i <;> exact (Ty.isTable_settled ty).trans hi

theorem Symbols.Declares.settleGlobals (h : s.Declares p) : s.settleGlobals.Declares p := by
  have hget (n : String) :
      s.settleGlobals.globals.get? n = (s.globals.get? n).map fun e => { e with ty := e.ty.settled } := get?_mapValues
  have hbuiltin : ∀ b ∈ Symbols.builtins, b.2.ty.settled = b.2.ty := by decide
  have hdefines {n : String} {e : Entry} (hdef : p.Defines n e) : p.Defines n { e with ty := e.ty.settled } := by
    obtain ⟨d, hd, hname, hdecl, hty, hspelled⟩ | ⟨r, hr, hname, hdecl, hty, hspelled⟩ := hdef
    · exact .inl ⟨d, hd, hname, hdecl, hty.settled, hspelled.settled⟩
    · refine .inr ⟨r, hr, hname, hdecl, ?_, hspelled⟩
      obtain ⟨decl, ty⟩ := e
      cases ty <;> first | rfl | cases hty
  have hbodies : ∀ r ∈ p.routines, s.settleGlobals.Reads r := fun r hr =>
    (h.bodies r hr).mono fun n hn => hn.imp_left (within_settleGlobals n)
  refine ⟨⟨h.readable.consts, h.readable.typedefs⟩, fun b hb => ?_, fun n k hk => ?_, fun n hn => ?_, h.names, hbodies, h.locals,
    h.others⟩
  · rw [hget, h.builtins b hb, Option.map_some, hbuiltin b hb]
  · rw [hget] at hk
    obtain ⟨e, he, rfl⟩ := Option.map_eq_some_iff.1 hk
    obtain hb | hdef := h.globals n e he
    · refine .inl ?_
      rwa [hbuiltin (n, e) hb]
    · exact .inr (hdefines hdef)
  · obtain ⟨e, he, hdef⟩ := h.defined n hn
    exact ⟨_, by rw [hget, he]; rfl, hdefines hdef⟩

end

/-! ### Reading declarations -/

namespace Grammar

open Parse Symbols

variable {n : Nat}

theorem declareLocal_yields (hb : ∀ e ∈ Symbols.builtins, s.globals.get? e.1 = some e.2)
    (hty : ty.Spelled) (hd : d.Spelled ty) : (declareLocal s name ty d).Yields n n fun s' => s.Adds s' name [d] := by
  refine .ite (fun _ => fail_yields) fun hnew => .ite (fun _ => fail_yields) fun hglobal => .pure ?_
  refine .one (eq_false_of_ne_true hnew) ⟨rfl, rfl, hty, hd, fun b hb' heq => hglobal ?_⟩
  rw [hasGlobal, Assoc.has, ← heq, hb b hb']
  rfl

theorem localDefns_yields {word : String} {check : Defn → Option Flaw} (hk : n ≤ k) (hs : s.Readable)
    (hb : ∀ e ∈ Symbols.builtins, s.globals.get? e.1 = some e.2) :
    (localDefns word check name k s).Yields n n fun r => s.Adds r.1 name r.2 := by
  induction k generalizing s n with
  | zero => exact Nat.le_zero.1 hk ▸ .zero
  | succ k ih =>
    refine .given ((defn_yields hs).bind fun ⟨ty, d⟩ ⟨hty, hd⟩ => ?_) (.pure .refl)
    dsimp only
    split
    · exact fail_yields
    · refine (declareLocal_yields hb hty hd).bind fun s1 hadds => ?_
      exact (ih (by omega) (hadds.readable hs) (hadds.globals ▸ hb)).bind fun r hr => .pure (hadds.trans hr)

theorem locals_yields (hs : s.Readable) (hb : ∀ e ∈ Symbols.builtins, s.globals.get? e.1 = some e.2) :
    (locals s name).Yields n n fun r => s.Adds r.1 name r.2 := by
  have hdefns {s : Symbols} {word : String} {check : Defn → Option Flaw} (hs : s.Readable)
      (hb : ∀ e ∈ Symbols.builtins, s.globals.get? e.1 = some e.2) :
      Yields n n (fun c => localDefns word check name c.remaining s c) fun r => s.Adds r.1 name r.2 :=
    .remaining (f := (localDefns word check name · s)) fun _ _ _ hk => localDefns_yields hk hs hb
  refine (hdefns hs hb).bind fun r hr => ?_
  exact (hdefns (hr.readable hs) (hr.globals ▸ hb)).bind fun r' hr' => .pure (hr.trans hr')

theorem routine_yields {preserved : Bool} (hs : s.Readable) (hb : ∀ e ∈ Symbols.builtins, s.globals.get? e.1 = some e.2) :
    (routine s name preserved).Yields n n fun r =>
      s.Adds r.1 name r.2.2.locals ∧ r.2.1.isRoutine = true ∧ r.2.2.Spelled ∧ r.2.2.name = name ∧ r.1.Reads r.2.2 := by
  refine (type_yields hs).bind fun ty hty => .ite (fun _ => fail_yields) fun hroutine => ?_
  have hroutine : ty.isRoutine = true := by simpa using hroutine
  refine .given ?_ ?_
  · refine integer_yields.bind fun addr _ => ask_yields.bind fun l _ => .pure ⟨.refl, hroutine, ?_, rfl, fun _ _ _ h => nomatch h⟩
    exact ⟨⟨fun _ => rfl, fun _ => rfl⟩, fun _ => rfl⟩
  · refine (locals_yields hs hb).bind fun r hr => ?_
    -- The block is one and the same, whatever is taken for known.
    have hblock : (block ⟨r.1, name⟩).Yields n n fun b => ∀ known, (∀ n, r.1.Knows name n → known n) → b.Spelled known :=
      .all ⟨fun _ => True, fun _ _ => trivial⟩ fun known hknown => block_yields (hr.readable hs) hknown
    refine hblock.bind fun b hb => ask_yields.bind fun l _ => .pure ⟨hr, hroutine, ⟨⟨fun h => (nomatch h), fun h => nomatch h⟩, fun h => nomatch h⟩, rfl, ?_⟩
    exact fun known hknown _ heq => Option.some.inj heq ▸ hb known hknown

theorem declare_yields : (Grammar.declare s name e).Yields n n fun s' => s.hasGlobal name = false ∧ s' = s.declare name e :=
  .ite (fun _ => fail_yields) fun hnew => .pure ⟨eq_false_of_ne_true hnew, rfl⟩

theorem defns_yields (hk : n ≤ k) (h : s.Declares p) :
    (defns starts k s).Yields n n fun r => r.1.Declares (p ++ ⟨r.2, []⟩) ∧ s.Within r.1 := by
  induction k generalizing s p n with
  | zero => exact Nat.le_zero.1 hk ▸ .zero
  | succ k ih =>
    refine ask_yields.bind fun _ _ => .ite (fun _ => ?_) fun _ => .pure ⟨?_, fun _ => id⟩
    · refine (defn_yields h.readable).bind fun ⟨ty, d⟩ ⟨hty, hd⟩ => declare_yields.bind fun s1 ⟨hfree, hs1⟩ => ?_
      have hnew : (Program.mk [d] []).Defines d.name ⟨.defn d, ty⟩ := .inl ⟨d, mem_singleton_self d, rfl, rfl, hty, hd⟩
      have hone := h.declare .refl hfree rfl hnew (fun _ hr => (nomatch hr)) (fun _ => rfl) fun _ hr => nomatch hr
      subst hs1
      refine (ih (by omega) hone).bind fun r ⟨hr, hin⟩ => .pure ⟨?_, within_declare.trans hin⟩
      rwa [Program.append_assoc] at hr
    · simpa using h

theorem routines_yields (hk : n ≤ k) (h : s.Declares p) :
    (routines k s).Yields n n fun r => r.1.Declares (p ++ ⟨[], r.2⟩) ∧ s.Within r.1 := by
  induction k generalizing s p n with
  | zero => exact Nat.le_zero.1 hk ▸ .zero
  | succ k ih =>
    refine .given ?_ (.pure ⟨by simpa using h, fun _ => id⟩)
    refine take_yields.bind fun t _ => consume_yields.bind fun _ _ => ?_
    refine (routine_yields h.readable h.builtins).bind fun ⟨s1, ty, r⟩ ⟨hadds, hty, hspelled, hname, hreads⟩ => ?_
    refine declare_yields.bind fun s2 ⟨hfree, hs2⟩ => ?_
    have hfree : s.hasGlobal (t.getD "") = false := by rwa [hasGlobal, hadds.globals] at hfree
    have hnew : (Program.mk [] [r]).Defines (t.getD "") ⟨.routine r, ty⟩ :=
      .inr ⟨r, mem_singleton_self r, hname, rfl, hty, hspelled⟩
    have hone := h.declare (q := ⟨[], [r]⟩) hadds hfree (congrArg (fun n => [n]) hname) hnew
      (fun _ hr => mem_singleton.1 hr ▸ rfl) (fun h => (nomatch h)) fun _ hr => mem_singleton.1 hr ▸ hreads
    have hin : s.Within s2 := by
      intro n hn
      rw [hs2]
      exact within_declare n (by rwa [hasGlobal, hadds.globals])
    rw [← hs2] at hone
    refine (ih (by omega) hone).bind fun r ⟨hr, hin'⟩ => .pure ⟨?_, hin.trans hin'⟩
    rwa [Program.append_assoc] at hr

/-! ### Whole files -/

/-- A check passes just if the condition holds. Where it fails, it names something that is not global, or it complains of the base
of a table cell that was left pending. -/
def Asks (s : Symbols) (p : Parse PUnit) (P : Prop) : Prop :=
  ∀ c, P ∧ p c = .ok ((), c) ∨ ¬ P ∧ ∃ f, p c = .error f ∧ s.Lacks c f

section

variable {p q : Parse PUnit} {P Q : Prop}

theorem Asks.pure (h : P) : Asks s (pure ()) P := fun _ => .inl ⟨h, rfl⟩

theorem Asks.congr (hp : Asks s p P) (h : P ↔ Q) : Asks s p Q := by rwa [← h]

theorem Asks.bind (hp : Asks s p P) (hq : Asks s q Q) : Asks s (p >>= fun _ => q) (P ∧ Q) := by
  intro c
  obtain ⟨hP, hok⟩ | ⟨hP, f, herr, hf⟩ := hp c
  · have heq : (p >>= fun _ => q) c = q c := by
      show p c >>= (fun r => q r.2) = _
      rw [hok]
      rfl
    rw [heq]
    exact (hq c).imp (.imp_left fun hQ => ⟨hP, hQ⟩) (.imp_left fun hQ h => hQ h.2)
  · refine .inr ⟨fun h => hP h.1, f, ?_, hf⟩
    show p c >>= (fun r => q r.2) = _
    rw [herr]
    rfl

theorem Asks.forM {f : α → Parse PUnit} {R : α → Prop} (h : ∀ a, Asks s (f a) (R a)) (l : List α) :
    Asks s (l.forM f) (∀ a ∈ l, R a) := by
  induction l with
  | nil => exact .pure fun _ ha => nomatch ha
  | cons a l ih => exact ((h a).bind ih).congr forall_mem_cons.symm

end

theorem requireGlobal_asks : Asks s (requireGlobal s name) (s.hasGlobal name = true) := by
  intro c
  unfold requireGlobal
  split
  case isTrue h => exact .inl ⟨h, rfl⟩
  case isFalse h => exact .inr ⟨h, _, rfl, .inl ⟨name, rfl, eq_false_of_ne_true h⟩⟩

theorem requireRef_asks (o : Option Ref) : Asks s (requireRef s o) (∀ r, o = some r → r.Resolves s) := by
  unfold requireRef
  split
  · exact requireGlobal_asks.congr (by simp [Ref.Resolves])
  · have hlate : Asks s (abort .lateBase) False := fun _ => .inr ⟨id, _, rfl, .inr rfl⟩
    exact (requireGlobal_asks.bind hlate).congr (by simp [Ref.Resolves])
  · refine .pure ?_
    rintro r rfl
    unfold Ref.Resolves
    split <;> grind

theorem resolves_cons {head : Instr} {tail : Block} : (Block.cons head tail).Resolves s
    ↔ (head.Resolves s ∧ ∀ b ∈ head.blocks, b.Resolves s) ∧ tail.Resolves s := by
  refine ⟨fun h => ⟨⟨h head .head, fun b hb i hi => h i (.inside hb hi)⟩, fun i hi => h i (.tail hi)⟩, fun h i hi => ?_⟩
  cases hi with
  | head => exact h.1.1
  | tail hi => exact h.2 i hi
  | inside hb hi => exact h.1.2 _ hb i hi

mutual

theorem requireInstr_asks : ∀ i : Instr, Asks s (requireInstr s i) (i.Resolves s ∧ ∀ b ∈ i.blocks, b.Resolves s)
  | .op _ op => by
    unfold requireInstr
    exact ((requireRef_asks _).bind (requireRef_asks _)).congr (by simp [Instr.Resolves, Instr.blocks])
  | .call _ t | .goto _ t => by
    unfold requireInstr
    exact requireGlobal_asks.congr (by simp [Instr.Resolves, Instr.blocks])
  | .reset .. => by
    unfold requireInstr
    exact .pure (by simp [Instr.Resolves, Instr.blocks])
  | .ifElse _ _ _ yes no => by
    unfold requireInstr
    exact ((requireBlock_asks yes).bind (requireBlock_asks no)).congr (by simp [Instr.Resolves, Instr.blocks])
  | .ifThen _ _ _ body | .loop _ _ _ body | .count _ _ _ _ body | .interruptsOff _ body | .save _ _ body
  | .pointInto _ _ _ body => by
    unfold requireInstr
    exact (requireBlock_asks body).congr (by simp [Instr.Resolves, Instr.blocks])

theorem requireBlock_asks : ∀ b : Block, Asks s (requireBlock s b) (b.Resolves s)
  | .nil _ => by
    unfold requireBlock
    exact .pure fun _ hi => nomatch hi
  | .cons head tail => by
    unfold requireBlock
    exact ((requireInstr_asks head).bind (requireBlock_asks tail)).congr resolves_cons.symm

end

theorem requireRoutine_asks (r : Routine) :
    Asks s (r.body.forM (requireBlock s)) (∀ b, r.body = some b → b.Resolves s) := by
  cases r.body with
  | none => exact .pure fun _ h => nomatch h
  | some b => exact (requireBlock_asks b).congr (by simp)

/-- All names are settled at once, or one of them cannot be. -/
theorem settle_cases (s : Symbols) (q : Program) (c : Cursor) :
    ((∀ n ∈ s.globals.entries.flatMap fun e => e.2.ty.names, s.hasGlobal n = true) ∧ s.Settles q)
        ∧ settle s q c = .ok (s.settleGlobals, c)
      ∨ ¬ ((∀ n ∈ s.globals.entries.flatMap fun e => e.2.ty.names, s.hasGlobal n = true) ∧ s.Settles q)
        ∧ ∃ f, settle s q c = .error f ∧ s.Lacks c f := by
  have hasks := (Asks.forM (fun n => (requireGlobal_asks : Asks s (requireGlobal s n) _))
    (s.globals.entries.flatMap fun e => e.2.ty.names)).bind (.forM requireRoutine_asks q.routines)
  have heq : settle s q c = ((s.globals.entries.flatMap fun e => e.2.ty.names).forM (requireGlobal s) >>= fun _ =>
      q.routines.forM fun r => r.body.forM (requireBlock s)) c >>= fun r => .ok (s.settleGlobals, r.2) := by
    show (settle s q) c = (_ >>= fun _ => pure s.settleGlobals : Parse Symbols) c
    simp only [settle, bind_assoc]
  rw [heq]
  refine (hasks c).imp (.imp_right fun hok => ?_) (.imp_right fun ⟨f, hf, hlacks⟩ => ⟨f, ?_, hlacks⟩)
  · rw [hok]
    rfl
  · rw [hf]
    rfl

theorem settle_yields (h : s.Declares p) :
    (settle s q).Yields n n fun s' => s'.Declares p ∧ s.Within s' ∧ s'.Settles q ∧ s'.Typed := by
  intro c hc hn
  obtain ⟨⟨htypes, hsettles⟩, heq⟩ | ⟨-, f, heq, hlacks⟩ := settle_cases s q c
  · refine .inl ⟨_, c, heq, ⟨hc, hn⟩, h.settleGlobals, within_settleGlobals, hsettles.within within_settleGlobals,
      fun name e he slot hslot => ?_⟩
    rw [Symbols.settleGlobals, get?_mapValues] at he
    obtain ⟨own, hown, rfl⟩ := Option.map_eq_some_iff.1 he
    obtain ⟨hsite, hname⟩ := Ty.slots_settled hslot
    exact ⟨hsite, within_settleGlobals _ (htypes _ (mem_flatMap.2 ⟨_, mem_of_get? hown, hname⟩))⟩
  · refine .inr ⟨f, heq, ?_⟩
    obtain ⟨_, rfl, -⟩ | rfl := hlacks <;> rintro ⟨⟩

theorem typedef_yields (h : s.Declares p) : (typedef s).Yields n (n - 1) fun s' => s'.Declares p ∧ s.Within s' := by
  refine expect_yields.bind fun _ _ => (type_yields h.readable).bind fun ty hty => name_yields.bind fun n _ => ?_
  refine .ite (fun _ => fail_yields) fun _ => .pure ⟨h.abbreviate ⟨h.readable.consts, fun m t ht => ?_⟩ rfl rfl, fun _ => id⟩
  rw [get?_set] at ht
  split at ht
  · exact Option.some.inj ht ▸ hty
  · exact h.readable.typedefs m t ht

theorem constDefn_yields (h : s.Declares p) : (constDefn s).Yields n (n - 1) fun s' => s'.Declares p ∧ s.Within s' := by
  refine expect_yields.bind fun _ _ => name_yields.bind fun n _ => .ite (fun _ => fail_yields) fun _ => ?_
  refine (const_yields h.readable).bind fun c hc => ?_
  refine .pure ⟨h.abbreviate ⟨fun m k hk => ?_, h.readable.typedefs⟩ rfl rfl, fun _ => id⟩
  rw [get?_set] at hk
  split at hk
  · exact Option.some.inj hk ▸ hc
  · exact h.readable.consts m k hk

theorem abbreviations_yields (hk : n ≤ k) (h : s.Declares p) :
    (abbreviations k s).Yields n n fun s' => s'.Declares p ∧ s.Within s' := by
  induction k generalizing s n with
  | zero => exact Nat.le_zero.1 hk ▸ .zero
  | succ k ih =>
    have hnext {q : Parse Symbols} (hq : q.Yields n (n - 1) fun s' => s'.Declares p ∧ s.Within s') :
        (q >>= abbreviations k).Yields n n fun s' => s'.Declares p ∧ s.Within s' :=
      hq.bind fun s1 ⟨h1, hin⟩ => ((ih (by omega) h1).mono fun _ ⟨h', hin'⟩ => ⟨h', hin.trans hin'⟩).weaken (Nat.le_refl _) (Nat.sub_le ..)
    refine ask_yields.bind fun _ _ => .ite (fun _ => hnext (typedef_yields h)) fun _ => ?_
    exact ask_yields.bind fun _ _ => .ite (fun _ => hnext (constDefn_yields h)) fun _ => .pure ⟨h, fun _ => id⟩

/-- What follows the included files: the file itself. -/
def own (s : Symbols) (included : List Program) : Parse (Symbols × Program) := do
  let s ← fun c => abbreviations c.remaining s c
  let (s, ds) ← fun c => defns (typeWords s) c.remaining s c
  let (s, rs) ← fun c => routines c.remaining s c
  checkKind "EOF"
  let program := Program.merge (included ++ [⟨ds, rs⟩])
  let s ← settle s program
  pure (s, program)

theorem unit_eq : unit load s c = includes load c.remaining s c >>= fun r => own r.1.1 r.1.2 r.2 := rfl

theorem abbreviations_all (h : s.Declares p) :
    Yields n n (fun c => abbreviations c.remaining s c) fun s' => s'.Declares p ∧ s.Within s' :=
  .remaining (f := (abbreviations · s)) fun _ _ _ hk => abbreviations_yields hk h

theorem defns_all (h : s.Declares p) :
    Yields n n (fun c => defns starts c.remaining s c) fun r => r.1.Declares (p ++ ⟨r.2, []⟩) ∧ s.Within r.1 :=
  .remaining (f := (defns starts · s)) fun _ _ _ hk => defns_yields hk h

theorem routines_all (h : s.Declares p) :
    Yields n n (fun c => routines c.remaining s c) fun r => r.1.Declares (p ++ ⟨[], r.2⟩) ∧ s.Within r.1 :=
  .remaining (f := (routines · s)) fun _ _ _ hk => routines_yields hk h

theorem own_yields (h : s.Agrees (p ++ .merge included)) : (own s included).Yields n n fun r => r.1.Agrees (p ++ r.2) := by
  refine (abbreviations_all h.declares).bind fun s2 ⟨h2, hin2⟩ => (defns_all h2).bind fun ⟨s3, ds⟩ ⟨h3, hin3⟩ => ?_
  refine (routines_all h3).bind fun ⟨s4, rs⟩ ⟨h4, hin4⟩ => ?_
  refine checkKind_yields.bind fun _ _ => ?_
  have hmerge : p ++ .merge included ++ ⟨ds, []⟩ ++ ⟨[], rs⟩ = p ++ .merge (included ++ [⟨ds, rs⟩]) := by
    rw [Program.merge_append, Program.merge_singleton, Program.append_assoc, Program.append_assoc]
    exact congrArg (fun q => p ++ (Program.merge included ++ q)) (congrArg₂ Program.mk (append_nil ds) rfl)
  rw [hmerge] at h4
  refine (settle_yields h4).bind fun s' ⟨h', hin', hsettles', htyped⟩ => .pure ⟨h', fun r hr => ?_, htyped⟩
  have hin : s.Within s' := hin2.trans (hin3.trans (hin4.trans hin'))
  exact (mem_append.1 hr).elim (fun hr => h.settles.within hin r (mem_append_left _ hr)) (hsettles' r)

/-- What is loaded on top of a program keeps the table and the program in agreement. -/
def Include.Agrees (load : Include) : Prop :=
  ∀ ⦃s p name s' q⦄, s.Agrees p → load s name = .ok (s', q) → s'.Agrees (p ++ q)

theorem includes_succ (fuel : Nat) : includes load (fuel + 1) s c = if c.on "include" = true then
    match load s c.advance.text? with
    | .error f => .error f
    | .ok (s, p) => (includes load fuel s c.advance.advance).map fun r => ((r.1.1, p :: r.1.2), r.2)
    else .ok ((s, []), c) := by
  simp only [includes, bind, StateT.bind, consume, Except.bind, Cursor.consume]
  split
  · show (match load s c.advance.text? with | .error f => abort f | .ok (s, p) => _ : Parse _) c.advance.advance = _
    cases load s c.advance.text? <;> rfl
  · rfl

theorem includes_agrees (hload : load.Agrees) (h : s.Agrees p) {c' : Cursor} (hc : c.Sound)
    (hok : includes load k s c = .ok ((s', included), c')) : c'.Sound ∧ s'.Agrees (p ++ .merge included) := by
  induction k generalizing s p c included with
  | zero => cases hok
  | succ k ih =>
    rw [includes_succ] at hok
    split at hok
    · cases hq : load s c.advance.text? with
      | error => rw [hq] at hok; cases hok
      | ok r =>
        rw [hq] at hok
        obtain ⟨⟨⟨_, rest⟩, _⟩, hrest, heq⟩ := map_eq_ok.1 hok
        cases heq
        have hsound := ((hc.advance (Nat.le_refl _)).1.advance (Nat.le_refl _)).1
        rw [Program.merge_cons, ← Program.append_assoc]
        exact ih (hload h hq) hsound hrest
    · cases hok
      exact ⟨hc, by simpa [Program.merge] using h⟩

end Grammar

/-! ### Files -/

open Grammar

variable {fs : Files} {path : List String}

theorem Program.ofText_agrees {text : String} (hload : load.Agrees) (h : s.Agrees p)
    (hok : Program.ofText load s file text = .ok (s', q)) : s'.Agrees (p ++ q) := by
  obtain ⟨⟨_, _⟩, hunit, rfl⟩ := map_eq_ok.1 hok
  rw [unit_eq] at hunit
  obtain ⟨_, hincludes, hown⟩ := bind_eq_ok.1 hunit
  obtain ⟨hc, hs⟩ := includes_agrees hload h (Cursor.ofText_sound file text) hincludes
  exact ((own_yields hs).ok hc hown).2

theorem Files.loadWithin_agrees {depth : Nat} (h : s.Agrees p)
    (hok : fs.loadWithin path depth s file = .ok (s', q)) : s'.Agrees (p ++ q) := by
  induction depth generalizing s s' p q file with
  | zero => cases hok
  | succ depth ih =>
    obtain ⟨text, -, hok⟩ := bind_eq_ok.1 hok
    refine Program.ofText_agrees (fun s p name s' q h hload => ?_) h hok
    cases name with
    | none => cases hload
    | some n => exact ih h hload

theorem Files.loadAll_agrees (h : s.Agrees p) (hok : fs.loadAll path s mains = .ok (s', ps)) : s'.Agrees (p ++ .merge ps) := by
  induction mains generalizing s p ps with
  | nil =>
    cases hok
    simpa [Program.merge] using h
  | cons file mains ih =>
    simp only [loadAll, bind_eq_ok, pure_eq_ok] at hok
    obtain ⟨⟨s1, q⟩, hload, ⟨_, qs⟩, hall, heq⟩ := hok
    cases heq
    rw [Program.merge_cons, ← Program.append_assoc]
    exact ih (loadWithin_agrees h hload) hall

theorem Symbols.initial_agrees : initial.Agrees {} :=
  ⟨initial_declares, fun _ hr => (nomatch hr), fun name e he slot hslot => by
    have htypes : ∀ e ∈ builtins, e.2.ty.slots = [] := by decide
    rw [htypes _ (mem_of_get? he)] at hslot
    cases hslot⟩

/-- The table and the program of any files that are read together agree, with all names settled that can be. -/
theorem Files.read_agree (hok : fs.loadAll path .initial mains = .ok (s, ps)) : s.Agrees (.merge ps) :=
  loadAll_agrees (p := ⟨[], []⟩) Symbols.initial_agrees hok

/-! ### What the agreement tells -/

theorem exists_mem_of_forall₂ {β : Type} {R : α → β → Prop} {l : List α} {l' : List β} (h : List.Forall₂ R l l') {b : β}
    (hb : b ∈ l') : ∃ a ∈ l, R a b := by
  induction h with
  | nil => cases hb
  | cons hab _ ih =>
    obtain rfl | hb := mem_cons.1 hb
    · exact ⟨_, mem_cons_self, hab⟩
    · obtain ⟨a, ha, hab⟩ := ih hb
      exact ⟨a, mem_cons_of_mem _ ha, hab⟩

namespace Symbols.Declares

variable {q : String}

section

variable (h : s.Declares p)
include h

theorem globalType?_builtin (he : (name, e) ∈ Symbols.builtins) : s.globalType? name = some e.ty := by
  rw [globalType?, h.builtins (name, e) he]
  rfl

/-- A definition has the entry of its name. -/
theorem defn (hd : d ∈ p.defns) :
    ∃ ty, s.globals.get? d.name = some ⟨.defn d, ty⟩ ∧ ty.Spelled ∧ d.Spelled ty := by
  obtain ⟨hdefns, -, hapart⟩ := nodup_append.1 h.names
  have hmem : d.name ∈ p.defns.map (·.name) := mem_map_of_mem hd
  obtain ⟨⟨_, ty⟩, he, ⟨d', hd', hname, rfl, hty, hspelled⟩ | ⟨r, hr, hname, -⟩⟩ := h.defined d.name (mem_append_left _ hmem)
  · obtain rfl := inj_on_of_nodup_map hdefns hd' hd hname
    exact ⟨ty, he, hty, hspelled⟩
  · exact absurd hname.symm (hapart d.name hmem r.name (mem_map_of_mem hr))

/-- A routine has the entry of its name. -/
theorem routine (hr : r ∈ p.routines) :
    ∃ sig, s.globals.get? r.name = some ⟨.routine r, .routine sig⟩ ∧ r.Spelled := by
  obtain ⟨-, hroutines, hapart⟩ := nodup_append.1 h.names
  have hmem : r.name ∈ p.routines.map (·.name) := mem_map_of_mem hr
  obtain ⟨⟨_, ty⟩, he, ⟨d, hd, hname, -⟩ | ⟨r', hr', hname, rfl, hty, hspelled⟩⟩ := h.defined r.name (mem_append_right _ hmem)
  · exact absurd hname (hapart d.name (mem_map_of_mem hd) r.name hmem)
  · obtain rfl := inj_on_of_nodup_map hroutines hr' hr hname
    cases ty with
    | routine sig => exact ⟨sig, he, hspelled⟩
    | _ => cases hty

/-- A local definition has an entry of its own. -/
theorem localDefn (hr : r ∈ p.routines) (hd : d ∈ r.locals) :
    ∃ e ∈ (s.localsOf r.name).entries, d.Local e := exists_mem_of_forall₂ (h.locals r hr).flip hd

/-- What is local to a name is defined in the routine of that name. -/
theorem mem_locals (he : (name, e) ∈ (s.localsOf q).entries) :
    ∃ r ∈ p.routines, r.name = q ∧ ∃ d ∈ r.locals, d.Local (name, e) := by
  by_cases hr : ∃ r ∈ p.routines, r.name = q
  · obtain ⟨r, hr, rfl⟩ := hr
    exact ⟨r, hr, rfl, exists_mem_of_forall₂ (h.locals r hr) he⟩
  · rw [localsOf, h.others q fun r hmem hname => absurd ⟨r, hmem, hname⟩ hr] at he
    cases he

theorem localType?_defined (hty : s.localType? q name = some ty) :
    ∃ r ∈ p.routines, r.name = q ∧ ∃ d ∈ r.locals, d.name = name ∧ ty.Spelled ∧ d.Spelled ty
      ∧ ∀ b ∈ Symbols.builtins, b.1 ≠ name := by
  obtain ⟨e, he, rfl⟩ := Option.map_eq_some_iff.1 hty
  obtain ⟨r, hr, hname, d, hd, hlocal⟩ := h.mem_locals (mem_of_get? he)
  obtain rfl : name = d.name := hlocal.name
  exact ⟨r, hr, hname, d, hd, rfl, hlocal.ty, hlocal.spelled, hlocal.apart⟩

/-- Wherever it is named, a register or flag has its type. -/
theorem typeOf_builtin {f : Setting} (hf : f.symbols = s) (he : (name, e) ∈ Symbols.builtins) :
    f.typeOf (.location name) = .ok e.ty := by
  have hlocal : s.localType? f.routine name = none := by
    rw [Option.eq_none_iff_forall_ne_some]
    intro ty hty
    obtain ⟨_, -, -, _, -, -, -, -, hapart⟩ := h.localType?_defined hty
    exact hapart (name, e) he rfl
  simp only [Setting.typeOf, Setting.typeOfName, Setting.globalType, hf, hlocal, h.globalType?_builtin he]

end

end Symbols.Declares

end CheckedAsm
