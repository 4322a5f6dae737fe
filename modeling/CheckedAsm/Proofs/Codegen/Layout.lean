import CheckedAsm.Codegen.Layout
import CheckedAsm.Proofs.Codegen.Tails
/-! # The stages of a layout

A program is laid out in stages. First all names get their labels. Then the routines are added one after the other,
in the order of the roster. At the end the trampolines and the storage come, and with them the labels that were still
without an address. The labels of the routines' code keep the addresses they got. -/

namespace CheckedAsm

open Codegen Emitter List

variable {symbols : Symbols} {labels : LabelMap} {routines : List Routine} {st st' : CodeState} {name : String}
  {next : Option String} {p : Program} {roster : Option (List (List String))} {e e' : Emitter} {L : Layout} {id : LabelId}
  {cs : CodeSetting}

section

variable {α σ ε : Type} {f : σ → α → Except ε σ} {s s' : σ} {x : α} {xs ys : List α}

theorem foldlM_cons_ok : (x :: xs).foldlM f s = .ok s' ↔ ∃ s1, f s x = .ok s1 ∧ xs.foldlM f s1 = .ok s' := by
  rw [foldlM_cons, bind_eq_ok]

theorem foldlM_append_ok :
    (xs ++ ys).foldlM f s = .ok s' ↔ ∃ s1, xs.foldlM f s = .ok s1 ∧ ys.foldlM f s1 = .ok s' := by
  rw [foldlM_append, bind_eq_ok]

end

/-! ### Stages -/

namespace Codegen

/-- The routines of a chain, each with the one that follows it. -/
def links : List String → List (String × Option String)
  | [] => []
  | name :: rest => (name, rest.head?) :: links rest

/-- Adds the routine of a name. -/
def lay (symbols : Symbols) (labels : LabelMap) (routines : List Routine) (st : CodeState)
    (link : String × Option String) : Except Fault CodeState := do
  let r ← findRoutine routines link.1
  routine symbols labels st r link.2

/-- Adds the trampolines and the storage. -/
def conclude (symbols : Symbols) (labels : LabelMap) (placed : List Placed) (st : CodeState) : Except Fault Emitter := do
  let e ← trampolines ⟨symbols, labels, none⟩ st.trampolines.entries st.emitter
  let e ← initials placed e
  reserves placed e

variable {row : List String} {rows : List (List String)} {r : Routine}

theorem findRoutine_name (h : findRoutine routines name = .ok r) : r.name = name ∧ r ∈ routines := by
  unfold findRoutine at h
  split at h
  case h_1 r' hfind =>
    cases h
    exact ⟨by simpa using find?_some hfind, mem_of_find?_eq_some hfind⟩
  case h_2 => cases h

theorem chain_links (h : chain symbols labels routines row st = .ok st') :
    (links row).foldlM (lay symbols labels routines) st = .ok st' := by
  induction row generalizing st with
  | nil => exact h
  | cons name rest ih =>
    -- the one that follows is looked up by its name, so it is the one of that name
    have hstep : ∃ r st1, findRoutine routines name = .ok r ∧ routine symbols labels st r rest.head? = .ok st1
        ∧ chain symbols labels routines rest st1 = .ok st' := by
      cases rest with
      | nil =>
        simp only [chain, bind_eq_ok, pure_eq_ok] at h
        obtain ⟨r, hr, _, rfl, st1, hst, h⟩ := h
        exact ⟨r, st1, hr, hst, h⟩
      | cons n rest =>
        rw [chain] at h
        simp only [bind_eq_ok, pure_eq_ok] at h
        obtain ⟨r, hr, nr, hn, _, rfl, st1, hst, h⟩ := h
        rw [(findRoutine_name hn).1] at hst
        exact ⟨r, st1, hr, hst, h⟩
    obtain ⟨r, st1, hr, hst, h⟩ := hstep
    rw [links, foldlM_cons_ok]
    exact ⟨st1, bind_eq_ok.2 ⟨r, hr, hst⟩, ih h⟩

theorem rows_links (h : rows.foldlM (fun st row => chain symbols labels routines row st) st = .ok st') :
    (rows.flatMap links).foldlM (lay symbols labels routines) st = .ok st' := by
  induction rows generalizing st with
  | nil => exact h
  | cons row rows ih =>
    obtain ⟨st1, hrow, h⟩ := foldlM_cons_ok.1 h
    rw [flatMap_cons, foldlM_append_ok]
    exact ⟨st1, chain_links hrow, ih h⟩

end Codegen

/-- Gives labels to everything that has a name. -/
def Program.placed (symbols : Symbols) (p : Program) (e : Emitter) : Except Fault (Emitter × LabelMap × List Placed) := do
  let (e, globals) ← placeDefns ⟨symbols, {}, none⟩ p.defns e
  let (e, labels, locals) ← placeRoutines symbols p.routines e ⟨labelsOf globals, ⟨[]⟩⟩
  pure (e, labels, globals ++ locals)

theorem Program.layOut_stages (h : p.layOut symbols roster e = .ok L) :
    ∃ e1 ps st, p.placed symbols e = .ok (e1, L.labels, ps)
      ∧ ((roster.getD (defaultRoster p.routines)).flatMap links).foldlM (lay symbols L.labels p.routines)
        { emitter := e1 } = .ok st
      ∧ conclude symbols L.labels ps st = .ok L.emitter := by
  simp only [layOut, bind_eq_ok, pure_eq_ok] at h
  obtain ⟨⟨e0, globals⟩, hglobals, ⟨e1, labels, locals⟩, hlocals, st, hst, e2, htr, e3, hin, e4, hre, rfl⟩ := h
  refine ⟨e1, globals ++ locals, st, ?_, rows_links hst, ?_⟩
  · simp only [placed, bind_eq_ok, pure_eq_ok]
    exact ⟨_, hglobals, _, hlocals, rfl⟩
  · simp only [conclude, bind_eq_ok]
    exact ⟨e2, htr, e3, hin, hre⟩

/-- While the program is laid out, the routine is added to the first state, which gives the second. The one given
as `next` follows in its chain. -/
def Program.Lays (symbols : Symbols) (p : Program) (rows : List (List String)) (e : Emitter) (r : Routine)
    (next : Option String) (st st' : CodeState) : Prop :=
  ∃ e1 labels ps before after, p.placed symbols e = .ok (e1, labels, ps)
    ∧ rows.flatMap links = before ++ (r.name, next) :: after
    ∧ before.foldlM (lay symbols labels p.routines) { emitter := e1 } = .ok st
    ∧ findRoutine p.routines r.name = .ok r ∧ routine symbols labels st r next = .ok st'

/-! ### Labels of names -/

/-- All labels come before the given one. -/
structure LabelMap.Below (m : LabelMap) (n : Nat) : Prop where
  globals : ∀ name id, m.globals.get? name = some id → id < n
  locals : ∀ q ids name id, m.locals.get? q = some ids → ids.get? name = some id → id < n

theorem LabelMap.Below.label {m : LabelMap} {n : Nat} {q : Option String}
    (h : m.Below n) (hid : CodeSetting.label ⟨symbols, m, q⟩ name = .ok id) : id < n := by
  unfold CodeSetting.label at hid
  split at hid
  case h_1 hlocal =>
    cases hid
    obtain ⟨q, -, hq⟩ := Option.bind_eq_some_iff.1 hlocal
    obtain ⟨ids, hids, hname⟩ := Option.bind_eq_some_iff.1 hq
    exact h.locals q ids name id hids hname
  case h_2 =>
    split at hid
    case h_1 hglobal =>
      cases hid
      exact h.globals name id hglobal
    case h_2 => cases hid

theorem Codegen.mem_labelsOf {ps : List Placed} (h : (labelsOf ps).get? name = some id) :
    ∃ p ∈ ps, p.label = id ∧ p.defn.name = name := by
  suffices hall : ∀ m : Assoc String LabelId, (ps.foldl (fun m p => m.set p.defn.name p.label) m).get? name = some id →
      m.get? name = some id ∨ ∃ p ∈ ps, p.label = id ∧ p.defn.name = name by
    exact (hall ⟨[]⟩ h).resolve_left (by simp [Assoc.get?])
  clear h
  induction ps with
  | nil => exact fun m h => .inl h
  | cons p ps ih =>
    intro m h
    obtain h | ⟨q, hq, hid⟩ := ih _ h
    · rw [Assoc.get?_set] at h
      split at h
      case isTrue hname =>
        cases h
        exact .inr ⟨p, mem_cons_self, rfl, hname⟩
      case isFalse => exact .inl h
    · exact .inr ⟨q, mem_cons_of_mem p hq, hid⟩

/-- A routine gets its label, and its locals get theirs. -/
theorem LabelMap.Below.add {m : LabelMap} {n k : Nat} {q : String} {ps : List Placed} (h : m.Below k)
    (hle : k ≤ n) (hid : id < n) (hps : ∀ p ∈ ps, p.label < n) :
    LabelMap.Below ⟨m.globals.set q id, m.locals.set q (labelsOf ps)⟩ n := by
  refine ⟨fun name id' hid' => ?_, fun q' ids name id' hids hid' => ?_⟩
  · rw [Assoc.get?_set] at hid'
    split at hid'
    · cases hid'
      exact hid
    · exact (h.globals name id' hid').trans_le hle
  · rw [Assoc.get?_set] at hids
    split at hids
    · cases hids
      obtain ⟨p, hp, rfl, -⟩ := mem_labelsOf hid'
      exact hps p hp
    · exact (h.locals q' ids name id' hids hid').trans_le hle

/-- Labels come after those that are there. -/
structure Labels.Grows (ls ls' : Labels) : Prop where
  size : ls.size ≤ ls'.size
  kept : ∀ id < ls.size, ls'.entry id = ls.entry id

theorem Labels.Grows.trans {ls ls' ls'' : Labels} (h : ls.Grows ls') (h' : ls'.Grows ls'') : ls.Grows ls'' :=
  ⟨h.size.trans h'.size, fun id hid => (h'.kept id (hid.trans_le h.size)).trans (h.kept id hid)⟩

/-- A label is the first of those that follow. -/
theorem Labels.Grows.of_push {ls ls' : Labels} {l : Label} (h : Labels.Grows (ls.push l) ls') :
    ls.Grows ls' ∧ ls.size < ls'.size ∧ ls'.entry ls.size = l := by
  have hsize : ls.size + 1 ≤ ls'.size := by simpa using h.size
  have hkept : ∀ id < ls.size + 1, ls'.entry id = Labels.entry (ls.push l) id := by simpa using h.kept
  refine ⟨⟨Nat.le_of_succ_le hsize, fun id hid => ?_⟩, hsize, ?_⟩
  · rw [hkept id (Nat.lt_succ_of_lt hid), Labels.entry_push_lt hid]
  · rw [hkept _ (Nat.lt_succ_self _), Labels.entry_push_self]

/-- The definition has its label in the table. -/
structure Placed.Labelled (ls : Labels) (q : Placed) : Prop where
  lt : q.label < ls.size
  entry : ∃ n, q.ty.length = .ok n ∧ ls.entry q.label = ⟨q.defn.name, q.defn.addr, some n⟩

theorem Placed.Labelled.mono {ls ls' : Labels} {q : Placed} (h : q.Labelled ls) (hls : ls.Grows ls') : q.Labelled ls' := by
  obtain ⟨n, hn, hentry⟩ := h.entry
  exact ⟨h.lt.trans_le hls.size, n, hn, by rw [hls.kept _ h.lt, hentry]⟩

/-- Each definition has a label of its own, from the given one on. -/
structure Labels.Seats (ps : List Placed) (n : Nat) (ls : Labels) : Prop where
  placed : ∀ q ∈ ps, n ≤ q.label ∧ q.Labelled ls
  nodup : (ps.map (·.label)).Nodup

theorem Labels.Seats.append {ps ps' : List Placed} {n : Nat} {ls ls' : Labels} (h : Labels.Seats ps n ls)
    (h' : Labels.Seats ps' ls.size ls') (hn : n ≤ ls.size) (hls : ls.Grows ls') : Labels.Seats (ps ++ ps') n ls' where
  placed q hq := by
    obtain hq | hq := mem_append.1 hq
    · obtain ⟨hle, hlabelled⟩ := h.placed q hq
      exact ⟨hle, hlabelled.mono hls⟩
    · obtain ⟨hle, hlabelled⟩ := h'.placed q hq
      exact ⟨hn.trans hle, hlabelled⟩
  nodup := by
    rw [map_append, nodup_append]
    refine ⟨h.nodup, h'.nodup, fun a ha b hb => ?_⟩
    obtain ⟨q, hq, rfl⟩ := mem_map.1 ha
    obtain ⟨q', hq', rfl⟩ := mem_map.1 hb
    exact Nat.ne_of_lt (Nat.lt_of_lt_of_le (h.placed q hq).2.lt (h'.placed q' hq').1)

theorem Labels.Seats.of_le {ps : List Placed} {n k : Nat} {ls : Labels} (h : Labels.Seats ps n ls) (hk : k ≤ n) :
    Labels.Seats ps k ls :=
  ⟨fun q hq => ⟨hk.trans (h.placed q hq).1, (h.placed q hq).2⟩, h.nodup⟩

namespace Codegen

/-- The definitions get their labels, one after the other. -/
inductive DefnsPlaced (cs : CodeSetting) : List Defn → Labels → Labels → List Placed → Prop
  | nil {ls} : DefnsPlaced cs [] ls ls []
  | cons {d ds ty n ls ls' ps} : ty.length = .ok n → cs.typeOfName d.name = .ok ty →
    DefnsPlaced cs ds (ls.push ⟨d.name, d.addr, some n⟩) ls' ps → DefnsPlaced cs (d :: ds) ls ls' (⟨d, ty, ls.size⟩ :: ps)

/-- Each routine gets its label, and then its locals get theirs. -/
inductive RoutinesPlaced (symbols : Symbols) : List Routine → Labels → LabelMap → Labels → LabelMap → List Placed → Prop
  | nil {ls m} : RoutinesPlaced symbols [] ls m ls m []
  | cons {r rs ls ls1 ls' m m' ps ps'} :
    DefnsPlaced ⟨symbols, {}, some r.name⟩ r.locals (ls.push ⟨r.name, r.addr, none⟩) ls1 ps →
    RoutinesPlaced symbols rs ls1 ⟨m.globals.set r.name ls.size, m.locals.set r.name (labelsOf ps)⟩ ls' m' ps' →
    RoutinesPlaced symbols (r :: rs) ls m ls' m' (ps ++ ps')

section

variable {ds : List Defn} {rs : List Routine} {ls ls' : Labels} {m m' : LabelMap} {ps : List Placed}

theorem placeDefns_ok (h : placeDefns cs ds e = .ok (e', ps)) :
    DefnsPlaced cs ds e.labels e'.labels ps ∧ e' = { e with labels := e'.labels } := by
  induction ds generalizing e ps with
  | nil =>
    cases h
    exact ⟨.nil, rfl⟩
  | cons d ds ih =>
    simp only [placeDefns, bind_eq_ok, pure_eq_ok] at h
    obtain ⟨ty, hty, length, hlength, ⟨e1, ps1⟩, hrest, heq⟩ := h
    cases heq
    obtain ⟨hplaced, he⟩ := ih hrest
    exact ⟨.cons hlength hty hplaced, he⟩

theorem placeRoutines_ok (h : placeRoutines symbols rs e m = .ok (e', m', ps)) :
    RoutinesPlaced symbols rs e.labels m e'.labels m' ps ∧ e' = { e with labels := e'.labels } := by
  induction rs generalizing e m ps with
  | nil =>
    cases h
    exact ⟨.nil, rfl⟩
  | cons r rs ih =>
    simp only [placeRoutines, bind_eq_ok, pure_eq_ok] at h
    obtain ⟨⟨e1, ps1⟩, hlocals, ⟨e2, m2, ps2⟩, hrest, heq⟩ := h
    cases heq
    obtain ⟨hplaced, hfirst⟩ := placeDefns_ok hlocals
    obtain ⟨hothers, hsecond⟩ := ih hrest
    rw [hfirst] at hsecond
    exact ⟨.cons hplaced hothers, hsecond⟩

theorem DefnsPlaced.grows (h : DefnsPlaced cs ds ls ls' ps) : ls.Grows ls' := by
  induction h with
  | nil => exact ⟨le_rfl, fun _ _ => rfl⟩
  | cons _ _ _ ih => exact ih.of_push.1

theorem DefnsPlaced.seats (h : DefnsPlaced cs ds ls ls' ps) : Labels.Seats ps ls.size ls' := by
  induction h with
  | nil => exact ⟨by simp, by simp⟩
  | cons hn _ hrest ih =>
    obtain ⟨-, hsize, hentry⟩ := hrest.grows.of_push
    rw [Array.size_push] at ih
    refine ⟨forall_mem_cons.2 ⟨⟨le_rfl, hsize, _, hn, hentry⟩, (ih.of_le (Nat.le_succ _)).placed⟩, ?_⟩
    rw [map_cons, nodup_cons]
    refine ⟨fun hmem => ?_, ih.nodup⟩
    obtain ⟨q, hq, hlabel⟩ := mem_map.1 hmem
    exact Nat.lt_irrefl _ (hlabel ▸ (ih.placed q hq).1)

theorem DefnsPlaced.defns (h : DefnsPlaced cs ds ls ls' ps) : ps.map (·.defn) = ds := by
  induction h with
  | nil => rfl
  | cons _ _ _ ih => rw [map_cons, ih]

theorem RoutinesPlaced.grows (h : RoutinesPlaced symbols rs ls m ls' m' ps) : ls.Grows ls' := by
  induction h with
  | nil => exact ⟨le_rfl, fun _ _ => rfl⟩
  | cons hlocals _ ih => exact hlocals.grows.of_push.1.trans ih

theorem RoutinesPlaced.seats (h : RoutinesPlaced symbols rs ls m ls' m' ps) : Labels.Seats ps ls.size ls' := by
  induction h with
  | nil => exact ⟨by simp, by simp⟩
  | cons hlocals hrest ih =>
    have hboth := hlocals.seats.append ih hlocals.grows.size hrest.grows
    exact hboth.of_le (by simp)

theorem RoutinesPlaced.labels_below (h : RoutinesPlaced symbols rs ls m ls' m' ps) (hm : m.Below ls.size) : m'.Below ls'.size := by
  induction h with
  | nil => exact hm
  | cons hlocals _ ih =>
    obtain ⟨hgrows, hsize, -⟩ := hlocals.grows.of_push
    exact ih (hm.add hgrows.size hsize fun p hp => (hlocals.seats.placed p hp).2.lt)

end

end Codegen

section

variable {ps : List Placed}

/-- The global definitions get their labels first. Nothing but the labels changes. -/
theorem Program.placed_ok (h : p.placed symbols e = .ok (e', labels, ps)) :
    ∃ ls globals locals, DefnsPlaced ⟨symbols, {}, none⟩ p.defns e.labels ls globals
      ∧ RoutinesPlaced symbols p.routines ls ⟨labelsOf globals, ⟨[]⟩⟩ e'.labels labels locals
      ∧ ps = globals ++ locals ∧ e' = { e with labels := e'.labels } := by
  simp only [placed, bind_eq_ok, pure_eq_ok] at h
  obtain ⟨⟨e1, globals⟩, hglobals, ⟨e2, labels, locals⟩, hroutines, heq⟩ := h
  cases heq
  obtain ⟨hdefns, hfirst⟩ := placeDefns_ok hglobals
  obtain ⟨hroutines, hsecond⟩ := placeRoutines_ok hroutines
  rw [hfirst] at hsecond
  exact ⟨_, globals, locals, hdefns, hroutines, rfl, hsecond⟩

theorem Program.placed_emitter (h : p.placed symbols e = .ok (e', labels, ps)) : e' = { e with labels := e'.labels } := by
  obtain ⟨ls, globals, locals, -, -, -, he⟩ := placed_ok h
  exact he

theorem Program.placed_seats (h : p.placed symbols e = .ok (e', labels, ps)) : Labels.Seats ps e.labels.size e'.labels := by
  obtain ⟨ls, globals, locals, hglobals, hroutines, rfl, -⟩ := placed_ok h
  exact hglobals.seats.append hroutines.seats hglobals.grows.size hroutines.grows

theorem Program.placed_labels (h : p.placed symbols e = .ok (e', labels, ps)) :
    labels.Below e'.labels.size ∧ ∀ q ∈ ps, q.label < e'.labels.size := by
  refine ⟨?_, fun q hq => ((placed_seats h).placed q hq).2.lt⟩
  obtain ⟨ls, globals, locals, hglobals, hroutines, rfl, -⟩ := placed_ok h
  refine hroutines.labels_below ⟨fun name id hid => ?_, fun q ids name id hids => by cases hids⟩
  obtain ⟨p, hp, rfl, -⟩ := mem_labelsOf hid
  exact (hglobals.seats.placed p hp).2.lt

end

/-! ### Addresses that stay -/

/-- The labels from the given one on keep the addresses they have. -/
def Emitter.Settles (n : Nat) (e e' : Emitter) : Prop :=
  ∀ id a, n ≤ id → (e.labels.entry id).addr = some a → (e'.labels.entry id).addr = some a

theorem Emitter.Settles.refl (n : Nat) (e : Emitter) : e.Settles n e := fun _ _ _ ha => ha

theorem Emitter.Settles.trans {n : Nat} {e'' : Emitter} (h : e.Settles n e') (h' : e'.Settles n e'') :
    e.Settles n e'' := fun id a hid ha => h' id a hid (h id a hid ha)

theorem Emitter.Settles.of_eq {n : Nat} (h : ∀ id, n ≤ id → e'.labels.entry id = e.labels.entry id) :
    e.Settles n e' := fun id a hid ha => by rw [h id hid, ha]

/-- The trampolines come after the given label and are without an address. -/
structure CodeState.Awaits (n : Nat) (st : CodeState) : Prop where
  size : n ≤ st.emitter.labels.size
  trampolines : ∀ v id, (v, id) ∈ st.trampolines.entries →
    n ≤ id ∧ id < st.emitter.labels.size ∧ (st.emitter.labels.entry id).addr = none

namespace Codegen

section

variable {r : Routine} {body : Block} {n : Nat}

theorem retract_labels (h : e.retract = .ok e') : e'.labels = e.labels := by
  unfold Emitter.retract Emitter.pop? at h
  cases ht : e.tail? with
  | none => simp [ht] at h
  | some i =>
    simp only [ht, Option.map_some, map_eq_ok] at h
    obtain ⟨room, -, rfl⟩ := h
    rfl

theorem tailCall_labels (h : tailCall e = .ok e') : e'.labels = e.labels := by
  unfold tailCall at h
  split at h
  · simp only [bind_eq_ok, pure_eq_ok] at h
    obtain ⟨e1, hr, rfl⟩ := h
    rw [codes_labels, retract_labels hr]
  · cases h
    rfl

theorem finish_labels (h : finish next e = .ok e') : e'.labels = e.labels := by
  simp only [finish, bind_eq_ok] at h
  obtain ⟨e1, htail, h⟩ := h
  rw [← tailCall_labels htail]
  split at h
  · split at h
    · exact retract_labels h
    · cases h
      rfl
  · cases h
    rfl
  · rw [pure_eq_ok] at h
    rw [← h, codes_labels]

/-- Ends a routine that does not end with a call. -/
def close (next : Option String) (e : Emitter) : Except Fault Emitter :=
  match e.tail? with
  | some (.code .jmp (.absolute (.label id))) =>
    if next = some (e.labels.entry id).name then e.retract else pure e
  | some (.code .jmp _) => pure e
  | _ => pure (e.codes [⟨.rts, .implied⟩])

theorem finish_eq (next : Option String) (e : Emitter) : finish next e = tailCall e >>= close next := rfl

theorem close_cases (h : close next e = .ok e') :
    ((∀ o, e.tail? ≠ some (.code .jmp o)) ∧ e' = e.codes [⟨.rts, .implied⟩])
      ∨ (∃ o, e.tail? = some (.code .jmp o) ∧ e' = e)
      ∨ ∃ id, e.tail? = some (.code .jmp (.wide id)) ∧ next = some (e.labels.entry id).name ∧ e.retract = .ok e' := by
  unfold close at h
  split at h
  case h_1 id htail =>
    split at h
    case isTrue hnext => exact .inr (.inr ⟨id, htail, hnext, h⟩)
    case isFalse => exact .inr (.inl ⟨_, htail, (pure_eq_ok.1 h).symm⟩)
  case h_2 o _ htail => exact .inr (.inl ⟨o, htail, (pure_eq_ok.1 h).symm⟩)
  case h_3 hnot => exact .inl ⟨hnot, (pure_eq_ok.1 h).symm⟩

/-- The code of a routine: its label, its body, and what ends it. -/
theorem routine_code (hbody : r.body = some body) (h : routine symbols labels st r next = .ok st') :
    ∃ id st1 e, CodeSetting.label ⟨symbols, labels, some r.name⟩ r.name = .ok id
      ∧ body.compile ⟨symbols, labels, some r.name⟩ (st.resolve id) = .ok st1
      ∧ finish next st1.emitter = .ok e ∧ st' = st1.withEmitter e := by
  unfold routine at h
  rw [hbody] at h
  simp only [bind_eq_ok, pure_eq_ok] at h
  obtain ⟨id, hid, st1, hc, e, he, rfl⟩ := h
  exact ⟨id, st1, e, hid, hc, he, rfl⟩

theorem routine_settles (hbelow : labels.Below n) (hst : st.Awaits n) (h : routine symbols labels st r next = .ok st') :
    st.emitter.Settles n st'.emitter ∧ st'.Awaits n := by
  cases hbody : r.body with
  | none =>
    unfold routine at h
    rw [hbody] at h
    cases h
    exact ⟨.refl _ _, hst⟩
  | some body =>
    obtain ⟨id, st1, e, hid, hc, he, rfl⟩ := routine_code hbody h
    have hlabels : e.labels = st1.emitter.labels := finish_labels he
    obtain ⟨ks, hs, -⟩ := body.spans _ _ hc
    have hsize : (st.resolve id).emitter.labels.size = st.emitter.labels.size := size_resolve
    -- the label of the routine comes before those that matter here
    have hother : ∀ id', n ≤ id' → (st.resolve id).emitter.labels.entry id' = st.emitter.labels.entry id' :=
      fun id' hid' => entry_resolve_of_ne (Nat.ne_of_lt ((hbelow.label hid).trans_le hid'))
    have hfirst : st.emitter.Settles n (st.resolve id).emitter := .of_eq hother
    have hlast : st1.emitter.Settles n e := .of_eq fun _ _ => by rw [hlabels]
    refine ⟨(hfirst.trans fun _ _ _ ha => hs.adds.addr_kept ha).trans hlast, ?_, fun v id' hv => ?_⟩
    · have hle := hs.adds.size
      rw [hsize] at hle
      simp only [CodeState.withEmitter, hlabels]
      exact hst.size.trans hle
    · simp only [CodeState.withEmitter, hlabels]
      obtain hv | ⟨hle, hlt, hnone, -⟩ := hs.trampolines v id' hv
      · obtain ⟨hle, hlt, hnone⟩ := hst.trampolines v id' hv
        refine ⟨hle, hlt.trans_le (hsize ▸ hs.adds.size), ?_⟩
        rw [hs.adds.kept id' (by rwa [hsize]), hother id' hle, hnone]
      · exact ⟨hst.size.trans (hsize ▸ hle), hlt, hnone⟩

theorem lay_settles {xs : List (String × Option String)} (hbelow : labels.Below n) (hst : st.Awaits n)
    (h : xs.foldlM (lay symbols labels routines) st = .ok st') :
    st.emitter.Settles n st'.emitter ∧ st'.Awaits n := by
  induction xs generalizing st with
  | nil =>
    cases h
    exact ⟨.refl _ _, hst⟩
  | cons x xs ih =>
    obtain ⟨st1, hx, h⟩ := foldlM_cons_ok.1 h
    obtain ⟨r, -, hr⟩ := bind_eq_ok.1 hx
    obtain ⟨hs1, hst1⟩ := routine_settles hbelow hst hr
    obtain ⟨hs, hst'⟩ := ih hst1 h
    exact ⟨hs1.trans hs, hst'⟩

/-! Two runs of the last stages keep a relation that each of their steps keeps. -/

section

variable {R : Emitter → Emitter → Prop} {tr : List (String × LabelId)} {ps : List Placed}

theorem trampolines_tracks (h : R e e') (hstep : ∀ x ∈ tr, ∀ v, cs.label x.1 = .ok v → ∀ {e e'}, R e e' →
      R ((e.resolve x.2).codes [⟨.jmp, .indirect v⟩, ⟨.rts, .implied⟩])
        ((e'.resolve x.2).codes [⟨.jmp, .indirect v⟩, ⟨.rts, .implied⟩])) :
    Tracks R (trampolines cs tr e) (trampolines cs tr e') := by
  induction tr generalizing e e' with
  | nil => exact .pure h
  | cons x tr ih =>
    obtain ⟨hx, htr⟩ := forall_mem_cons.1 hstep
    unfold trampolines
    exact .after fun v hv => ih (hx v hv h) htr

/-- The emitter with an initial value in its place. -/
def filled (id : LabelId) (i : Item) (n : Int) (e : Emitter) : Emitter :=
  (((e.changeLabel id fun l => { l with length := some n }).resolve id).append i).move n

theorem initials_tracks (h : R e e') (hstep : ∀ q ∈ ps, q.defn.initial.isSome = true → ∀ {i n}, i.room = .ok n → ∀ {e e'},
      R e e' → R (filled q.label i n e) (filled q.label i n e')) : Tracks R (initials ps e) (initials ps e') := by
  induction ps generalizing e e' with
  | nil => exact .pure h
  | cons q ps ih =>
    obtain ⟨hq, hps⟩ := forall_mem_cons.1 hstep
    unfold initials
    cases hinitial : q.defn.initial with
    | none => exact ih h hps
    | some initial =>
      refine .after fun i _ => .after fun n hn => ?_
      simp only [Emitter.emit, hn, Except.map]
      exact ih (hq (by rw [hinitial]; rfl) hn h) hps

theorem reserves_tracks (h : R e e')
    (hstep : ∀ q ∈ ps, q.defn.addr = none → ∀ {e e'}, R e e' → (e'.labels.entry q.label).length = (e.labels.entry q.label).length
      ∧ ∀ n, R ((e.resolve q.label).move n) ((e'.resolve q.label).move n)) : Tracks R (reserves ps e) (reserves ps e') := by
  induction ps generalizing e e' with
  | nil => exact .pure h
  | cons q ps ih =>
    obtain ⟨hq, hps⟩ := forall_mem_cons.1 hstep
    unfold reserves
    split
    case isTrue hcond =>
      simp only [Bool.and_eq_true, Option.isNone_iff_eq_none] at hcond
      obtain ⟨hlength, hroom⟩ := hq hcond.2 h
      unfold Emitter.reserve
      rw [hlength]
      split
      · exact fun _ he => by cases he
      · exact ih (hroom _) hps
    case isFalse => exact ih h hps

end

/-- Trampolines and storage get addresses, and no other labels do. -/
theorem conclude_kept {ps : List Placed} (htr : ∀ v, (v, id) ∉ st.trampolines.entries) (hps : ∀ p ∈ ps, p.label ≠ id)
    (h : conclude symbols labels ps st = .ok e') : e'.labels.entry id = st.emitter.labels.entry id := by
  let R (e e' : Emitter) : Prop := e = e' ∧ e.labels.entry id = st.emitter.labels.entry id
  have hkept : Tracks R (conclude symbols labels ps st) (conclude symbols labels ps st) := by
    refine (trampolines_tracks (R := R) ⟨rfl, rfl⟩ fun x hx v _ e _ he => ?_).bind fun _ _ _ h1 =>
      (initials_tracks h1 fun q hq _ i n _ e _ he => ?_).bind fun _ _ _ h2 => reserves_tracks h2 fun q hq _ e _ he => ?_
    all_goals obtain ⟨rfl, he⟩ := he
    · have hne : x.2 ≠ id := fun heq => htr x.1 (heq ▸ hx)
      exact ⟨rfl, by rw [codes_labels, entry_resolve_of_ne hne, he]⟩
    · have hmeasure : (e.changeLabel q.label fun l => { l with length := some n }).labels.entry id = e.labels.entry id := by
        simp [Emitter.changeLabel, Labels.entry_modify, hps q hq]
      exact ⟨rfl, (entry_resolve_of_ne (hps q hq)).trans (hmeasure.trans he)⟩
    · exact ⟨rfl, fun _ => ⟨rfl, (entry_resolve_of_ne (hps q hq)).trans he⟩⟩
  obtain ⟨_, -, -, heq⟩ := hkept e' h
  exact heq

theorem conclude_settles {ps : List Placed} (hst : st.Awaits n) (hps : ∀ p ∈ ps, p.label < n)
    (h : conclude symbols labels ps st = .ok e') : st.emitter.Settles n e' := by
  intro id a hid ha
  have hnot : ∀ v, (v, id) ∉ st.trampolines.entries := by
    intro v hv
    obtain ⟨-, -, hnone⟩ := hst.trampolines v id hv
    rw [hnone] at ha
    cases ha
  rw [conclude_kept hnot (fun p hp => Nat.ne_of_lt ((hps p hp).trans_le hid)) h, ha]

end

end Codegen

/-- From when a routine has been added, the labels within the code have their final addresses. -/
theorem Program.Lays.settles {r : Routine}
    (h : p.Lays symbols (roster.getD (defaultRoster p.routines)) e r next st st') (hL : p.layOut symbols roster e = .ok L) :
    ∃ n, L.labels.Below n ∧ st.Awaits n ∧ st'.Awaits n ∧ st'.emitter.Settles n L.emitter
      ∧ routine symbols L.labels st r next = .ok st' := by
  obtain ⟨e1, labels, ps, before, after, hplaced, hsplit, hbefore, hr, hroutine⟩ := h
  obtain ⟨e1', ps', stend, hplaced', hlinks, hconclude⟩ := Program.layOut_stages hL
  cases hplaced.symm.trans hplaced'
  obtain ⟨hbelow, hps⟩ := Program.placed_labels hplaced
  have hnone : CodeState.Awaits e1.labels.size { emitter := e1 } := ⟨le_rfl, fun v id hv => by cases hv⟩
  obtain ⟨-, hst⟩ := lay_settles hbelow hnone hbefore
  obtain ⟨-, hst'⟩ := routine_settles hbelow hst hroutine
  have hafter : after.foldlM (lay symbols L.labels p.routines) st' = .ok stend := by
    rw [hsplit] at hlinks
    obtain ⟨st1, hbefore', hrest⟩ := foldlM_append_ok.1 hlinks
    obtain ⟨st2, hlay, hrest⟩ := foldlM_cons_ok.1 hrest
    obtain ⟨r', hr', hst2⟩ := bind_eq_ok.1 hlay
    cases hr.symm.trans hr'
    cases hbefore.symm.trans hbefore'
    cases hroutine.symm.trans hst2
    exact hrest
  obtain ⟨hsettles, hend⟩ := lay_settles hbelow hst' hafter
  exact ⟨_, hbelow, hst, hst', hsettles.trans (conclude_settles hend hps hconclude), hroutine⟩

end CheckedAsm
