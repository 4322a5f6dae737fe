import Mathlib
import CheckedAsm.Proofs.Codegen.Course
import CheckedAsm.Proofs.Grammar.Declarations
/-! # Programs in another place

A program can be laid out from any address on. The items are the same wherever it starts: a label that the program gives an
address to keeps that address, and all other labels go along with the start. Only the width of an operand could tell two
places apart, and what is addressed in its own width is storage, whose labels either have an address that was given or have
none before all code is there. The label of a routine gets its address earlier, so it must not stand for storage. -/

namespace CheckedAsm

open Codegen List

variable {d : Int} {e e' e1 : Emitter} {id : LabelId} {st st' : CodeState} {cs : CodeSetting} {body : Block} {symbols : Symbols}
  {labels m m' : LabelMap} {r : Routine} {ps : List Placed} {ds : List Defn} {rs : List Routine} {ls ls' : Labels} {p : Program}

/-! ### What goes along -/

/-- The two emitters hold the same items at a distance. Labels for which an address was given have it in both, and all others
are as far apart as the emitters. -/
structure Emitter.Moves (given : Labels) (d : Int) (e e' : Emitter) : Prop where
  items : e'.items = e.items
  addr : e'.addr = e.addr + d
  counter : e'.counter = e.counter
  size : e'.labels.size = e.labels.size
  given_le : given.size ≤ e.labels.size
  fixed : ∀ id a, (given.entry id).addr = some a → (e.labels.entry id).addr = some a ∧ e'.labels.entry id = e.labels.entry id
  others : ∀ id, (given.entry id).addr = none → e'.labels.entry id = (e.labels.entry id).moved d

namespace Emitter.Moves

variable {given : Labels}

section

variable (h : e.Moves given d e')
include h

theorem kept (id : LabelId) :
    (e'.labels.entry id).name = (e.labels.entry id).name ∧ (e'.labels.entry id).length = (e.labels.entry id).length := by
  cases ha : (given.entry id).addr with
  | some a => rw [(h.fixed id a ha).2]; exact ⟨rfl, rfl⟩
  | none => rw [h.others id ha]; exact ⟨rfl, rfl⟩

theorem codes (ks : List Code) : (e.codes ks).Moves given d (e'.codes ks) where
  items := by rw [← Array.toList_inj, codes_items, codes_items, h.items]
  addr := by rw [codes_addr, codes_addr, h.addr]; omega
  counter := by rw [codes_counter, codes_counter, h.counter]
  size := by simpa using h.size
  given_le := by simpa using h.given_le
  fixed := by simpa using h.fixed
  others := by simpa using h.others

/-- A label without a given address is put where the emitters are. -/
theorem resolve (hid : (given.entry id).addr = none) :
    (e.resolve id).Moves given d (e'.resolve id) where
  items := h.items
  addr := h.addr
  counter := h.counter
  size := by rw [size_resolve, size_resolve, h.size]
  given_le := by rw [size_resolve]; exact h.given_le
  fixed id' a ha := by
    have hne : id ≠ id' := by
      rintro rfl
      rw [hid] at ha
      cases ha
    rw [entry_resolve_of_ne hne, entry_resolve_of_ne hne]
    exact h.fixed id' a ha
  others id' ha := by
    simp only [Emitter.resolve, changeLabel, Labels.entry_modify, h.size, h.addr, h.others id' ha]
    split <;> rfl

theorem measure (n : Int) :
    (e.changeLabel id fun l => { l with length := some n }).Moves given d
      (e'.changeLabel id fun l => { l with length := some n }) where
  items := h.items
  addr := h.addr
  counter := h.counter
  size := by simpa [changeLabel] using h.size
  given_le := by simpa [changeLabel] using h.given_le
  fixed id' a ha := by
    obtain ⟨haddr, heq⟩ := h.fixed id' a ha
    simp only [changeLabel, Labels.entry_modify, h.size, heq, and_true]
    split <;> exact haddr
  others id' ha := by
    simp only [changeLabel, Labels.entry_modify, h.size, h.others id' ha]
    split <;> rfl

theorem move (n : Int) : (e.move n).Moves given d (e'.move n) where
  __ := h
  addr := by simp only [Emitter.move, h.addr]; omega

theorem append (i : Item) : (e.append i).Moves given d (e'.append i) where
  __ := h
  items := by simp only [Emitter.append, h.items]

theorem tail? : e'.tail? = e.tail? := by rw [Emitter.tail?, Emitter.tail?, h.items]

theorem retract : Tracks (Moves given d) e.retract e'.retract := by
  unfold Emitter.retract Emitter.pop?
  rw [h.tail?]
  cases e.tail? with
  | none => exact fun _ he => by cases he
  | some i =>
    intro e1 he
    obtain ⟨n, hn, rfl⟩ := map_eq_ok.1 he
    have hpop : ({ e with items := e.items.pop } : Emitter).Moves given d { e' with items := e'.items.pop } :=
      { h with items := by simp only [h.items] }
    exact ⟨_, map_eq_ok.2 ⟨n, hn, rfl⟩, hpop.move (-n)⟩

theorem finish (next : Option String) :
    Tracks (Moves given d) (Codegen.finish next e) (Codegen.finish next e') := by
  rw [finish_eq, finish_eq]
  have htail : Tracks (Moves given d) (tailCall e) (tailCall e') := by
    unfold tailCall
    rw [h.tail?]
    split
    · exact h.retract.bind fun _ _ _ hr => .pure (hr.codes _)
    · exact .pure h
  refine htail.bind fun e1 e1' _ h1 => ?_
  unfold close
  rw [h1.tail?]
  split
  case h_1 id _ =>
    rw [(h1.kept id).1]
    split
    · exact h1.retract
    · exact .pure h1
  case h_2 => exact .pure h1
  case h_3 => exact .pure (h1.codes _)

end

end Emitter.Moves

/-! ### Routines -/

/-- The two states have the same code at a distance, and the labels of storage are as they were at the beginning. -/
structure CodeState.Moves (given : Labels) (d : Int) (st st' : CodeState) : Prop where
  emitter : st.emitter.Moves given d st'.emitter
  trampolines : st'.trampolines = st.trampolines
  pointers : st'.pointers = st.pointers
  storage : ∀ id ∈ given.storage, st.emitter.labels.entry id = given.entry id

namespace CodeState.Moves

variable {given : Labels}

/-- Storage has its label in the same place in both. -/
theorem storage_eq (h : st.Moves given d st') (hid : id ∈ given.storage) :
    st'.emitter.labels.entry id = st.emitter.labels.entry id := by
  cases ha : (given.entry id).addr with
  | some a => exact (h.emitter.fixed id a ha).2
  | none =>
    -- a label that is still without an address does not move
    have hnone : (st.emitter.labels.entry id).addr = none := by rw [h.storage id hid, ha]
    rw [h.emitter.others id ha, Label.moved, hnone, Option.map_none, ← hnone]

theorem resolve (h : st.Moves given d st') (ha : (given.entry id).addr = none) (hid : id ∉ given.storage) :
    (st.resolve id).Moves given d (st'.resolve id) where
  emitter := h.emitter.resolve ha
  trampolines := h.trampolines
  pointers := h.pointers
  storage id' hid' := by
    have hne : id ≠ id' := fun heq => hid (heq ▸ hid')
    exact (Emitter.entry_resolve_of_ne hne).trans (h.storage id' hid')

/-- A block that addresses only storage directly is the same code in both places. -/
theorem compile (h : st.Moves given d st') (hbody : body.Addresses cs given.storage) :
    Tracks (Moves given d) (body.compile cs st) (body.compile cs st') := by
  let S : Shift := ⟨st.emitter.items.toList, st'.emitter.items.toList, d, st.emitter.labels.size, given.storage⟩
  have hlinks : S.Links st st' := by
    refine ⟨⟨⟨[], by simp [S]⟩, h.emitter.addr, h.emitter.size, le_rfl, h.emitter.counter, fun id hid => ?_,
      fun id hid => ⟨hid.1.trans_le h.emitter.given_le, h.storage_eq hid⟩⟩, h.trampolines, h.pointers⟩
    exact h.emitter.others id (by rw [Labels.entry_of_size_le (h.emitter.given_le.trans hid)])
  intro st1 hst1
  obtain ⟨st1', hst1', hend⟩ := body.compile_tracks hlinks hbody st1 hst1
  have hgrows := (body.compile_grows _ _ hst1).emitter
  have hgrows' := (body.compile_grows _ _ hst1').emitter
  obtain ⟨ks, hitems, hitems'⟩ := hend.emitter.items
  have hlt : ∀ id < given.size, id < st.emitter.labels.size ∧ id < st'.emitter.labels.size := fun id hid =>
    ⟨hid.trans_le h.emitter.given_le, hid.trans_le (h.emitter.size ▸ h.emitter.given_le)⟩
  refine ⟨st1', hst1', ⟨?_, hend.emitter.addr, hend.emitter.counter, hend.emitter.size,
    h.emitter.given_le.trans hgrows.size, fun id a ha => ?_, fun id ha => ?_⟩, hend.trampolines, hend.pointers,
    fun id hid => ?_⟩
  · rw [← Array.toList_inj, hitems, hitems']
    simp only [S, h.emitter.items]
  · have hid : id < given.size := by
      by_contra hge
      rw [Labels.entry_of_size_le (Nat.le_of_not_lt hge)] at ha
      cases ha
    rw [hgrows.kept id (hlt id hid).1, hgrows'.kept id (hlt id hid).2]
    exact h.emitter.fixed id a ha
  · by_cases hid : id < st.emitter.labels.size
    · rw [hgrows.kept id hid, hgrows'.kept id (h.emitter.size ▸ hid), h.emitter.others id ha]
    · exact hend.emitter.inner id (Nat.le_of_not_lt hid)
  · rw [hgrows.kept id (hlt id hid.1).1, h.storage id hid]

end CodeState.Moves

/-- The routine has a label of its own that is neither storage nor given, and addresses only storage directly. -/
structure Routine.Movable (symbols : Symbols) (labels : LabelMap) (given : Labels) (r : Routine) (body : Block) : Prop where
  label : ∀ id, CodeSetting.label ⟨symbols, labels, some r.name⟩ r.name = .ok id →
    (given.entry id).addr = none ∧ id ∉ given.storage
  body : body.Addresses ⟨symbols, labels, some r.name⟩ given.storage

namespace Codegen

section

variable {routines : List Routine} {given : Labels}

theorem routine_moves (h : st.Moves given d st') (next : Option String)
    (hr : ∀ body, r.body = some body → r.Movable symbols labels given body) :
    Tracks (CodeState.Moves given d) (routine symbols labels st r next) (routine symbols labels st' r next) := by
  unfold routine
  cases hbody : r.body with
  | none => exact .pure h
  | some body =>
    refine .after fun id hid => ?_
    obtain ⟨ha, hstorage⟩ := (hr body hbody).label id hid
    refine ((h.resolve ha hstorage).compile (hr body hbody).body).bind fun st1 st1' _ h1 => ?_
    refine (h1.emitter.finish next).bind fun e e' he hmoved => .pure ⟨hmoved, h1.trampolines, h1.pointers, fun id hid => ?_⟩
    simp only [CodeState.withEmitter, finish_labels he]
    exact h1.storage id hid

theorem chain_moves (h : st.Moves given d st')
    (hr : ∀ r ∈ routines, ∀ body, r.body = some body → r.Movable symbols labels given body) (row : List String) :
    Tracks (CodeState.Moves given d) (chain symbols labels routines row st) (chain symbols labels routines row st') := by
  induction row generalizing st st' with
  | nil => exact .pure h
  | cons name rest ih =>
    unfold chain
    refine .after fun r hfind => ?_
    have hstep := fun next => (routine_moves h next (hr r (findRoutine_name hfind).2)).bind fun _ _ _ h1 => ih h1
    cases rest with
    | nil => exact hstep none
    | cons n rest => exact .after fun nr _ => hstep (some nr.name)

theorem rows_moves (h : st.Moves given d st')
    (hr : ∀ r ∈ routines, ∀ body, r.body = some body → r.Movable symbols labels given body) (rows : List (List String)) :
    Tracks (CodeState.Moves given d) (rows.foldlM (fun st row => chain symbols labels routines row st) st)
      (rows.foldlM (fun st row => chain symbols labels routines row st) st') := by
  induction rows generalizing st st' with
  | nil => exact .pure h
  | cons row rows ih =>
    rw [foldlM_cons, foldlM_cons]
    exact (chain_moves h hr row).bind fun _ _ _ h1 => ih h1

/-! ### Names -/

/-- Giving labels depends on nothing but the labels that are there. -/
theorem placeDefns_apart (h : placeDefns cs ds e = .ok (e1, ps)) (he : e'.labels = e.labels) :
    placeDefns cs ds e' = .ok ({ e' with labels := e1.labels }, ps) := by
  induction ds generalizing e e' ps with
  | nil =>
    cases h
    rw [placeDefns, ← he]
  | cons d ds ih =>
    simp only [placeDefns, Emitter.newLabel, he, bind_eq_ok, pure_eq_ok] at h ⊢
    obtain ⟨ty, hty, length, hlength, ⟨e2, ps2⟩, hrest, heq⟩ := h
    cases heq
    exact ⟨ty, hty, length, hlength, _, ih hrest rfl, rfl⟩

theorem placeRoutines_apart (h : placeRoutines symbols rs e m = .ok (e1, m', ps)) (he : e'.labels = e.labels) :
    placeRoutines symbols rs e' m = .ok ({ e' with labels := e1.labels }, m', ps) := by
  induction rs generalizing e e' m ps with
  | nil =>
    cases h
    rw [placeRoutines, ← he]
  | cons r rs ih =>
    simp only [placeRoutines, Emitter.newLabel, he, bind_eq_ok, pure_eq_ok] at h ⊢
    obtain ⟨⟨e2, ps2⟩, hdefns, ⟨e3, m3, ps3⟩, hrest, heq⟩ := h
    cases heq
    exact ⟨_, placeDefns_apart hdefns rfl, _, ih hrest rfl, rfl⟩

/-- Definitions get labels with the addresses they give. -/
theorem DefnsPlaced.addrs (h : DefnsPlaced cs ds ls ls' ps) :
    ls'.toList.map (·.addr) = ls.toList.map (·.addr) ++ ds.map (·.addr) := by
  induction h with
  | nil => simp
  | cons _ _ _ ih => simp [ih]

theorem RoutinesPlaced.addrs (h : RoutinesPlaced symbols rs ls m ls' m' ps) :
    ls'.toList.map (·.addr) = ls.toList.map (·.addr) ++ rs.flatMap fun r => r.addr :: r.locals.map (·.addr) := by
  induction h with
  | nil => simp
  | cons hdefns _ ih => simp [ih, hdefns.addrs]

end

end Codegen

namespace Program

/-- The address that the program gives to a label. The labels of global definitions come first, then that of each routine with
those of its locals. -/
def given (p : Program) (id : LabelId) : Option Int :=
  ((p.defns.map (·.addr) ++ p.routines.flatMap fun r => r.addr :: r.locals.map (·.addr))[id]?).join

theorem placed_apart (h : p.placed symbols e = .ok (e1, labels, ps)) (he : e'.labels = e.labels) :
    p.placed symbols e' = .ok ({ e' with labels := e1.labels }, labels, ps) := by
  simp only [placed, bind_eq_ok, pure_eq_ok] at h ⊢
  obtain ⟨⟨e2, globals⟩, hglobals, ⟨e3, labels, locals⟩, hroutines, heq⟩ := h
  cases heq
  exact ⟨_, placeDefns_apart hglobals he, _, placeRoutines_apart hroutines rfl, rfl⟩

theorem placed_given (h : p.placed symbols e = .ok (e1, labels, ps)) (he : e.labels = #[]) (id : LabelId) :
    (e1.labels.entry id).addr = p.given id := by
  obtain ⟨ls, globals, locals, hglobals, hroutines, rfl, -⟩ := placed_ok h
  have hall := hroutines.addrs
  rw [hglobals.addrs, he, map_nil, nil_append] at hall
  rw [given, ← hall, getElem?_map, Array.getElem?_toList, Labels.entry]
  cases e1.labels[id]? <;> rfl

end Program

/-! ### Layouts -/

/-- The two layouts are the same program at a distance: the same names and items, the addresses that were given, and all other
labels as far apart as the layouts. -/
structure Layout.Moves (given : LabelId → Option Int) (d : Int) (L L' : Layout) : Prop where
  labels : L'.labels = L.labels
  items : L'.emitter.items = L.emitter.items
  size : L'.emitter.labels.size = L.emitter.labels.size
  fixed : ∀ id a, given id = some a →
    (L.emitter.labels.entry id).addr = some a ∧ L'.emitter.labels.entry id = L.emitter.labels.entry id
  others : ∀ id, given id = none → L'.emitter.labels.entry id = (L.emitter.labels.entry id).moved d

theorem Symbols.Declares.typeOf_register (h : symbols.Declares p) {s : Setting}
    (hs : s.symbols = symbols) {r : Ref} (hr : r.isRegister = true) : s.typeOf r = .ok .byte := by
  simp only [Ref.isRegister, decide_eq_true_eq] at hr
  obtain rfl | rfl | rfl := hr <;> exact h.typeOf_builtin hs (e := ⟨.builtin, .byte⟩) (by simp [Symbols.builtins])

namespace Program

variable {all : List Analysed}

/-- Each routine of an accepted program can be moved. -/
theorem placed_movable (hplaced : p.placed symbols e = .ok (e1, labels, ps)) (hdeclares : symbols.Declares p)
    (haccepted : (p.analyse symbols).2 = .ok all) (hapart : p.NamesApart) (hplain : p.NamesPlain)
    (hr : r ∈ p.routines) (hbody : r.body = some body) : r.Movable symbols labels e1.labels body := by
  obtain ⟨-, htells⟩ := placed_tells_of_locals hplaced (fun q hq name ty hty => by
    obtain ⟨q', hq', hname, d, hd, hdname, -⟩ := hdeclares.localType?_defined hty
    have hnodup := (nodup_append.1 hdeclares.names).2.1
    obtain rfl := inj_on_of_nodup_map hnodup hq' hq hname
    exact ⟨d, hd, hdname⟩) hapart
  refine ⟨fun id hid => ?_, ?_⟩
  · obtain ⟨hglobal, hlength⟩ := htells.label_own ⟨r, hr, rfl⟩ hid
    obtain ⟨id', -, -, hid', hentry⟩ := (placed_names hplaced (nodup_append.1 hdeclares.names).2.1).routine r hr
    cases hglobal.symm.trans hid'
    obtain ⟨sig, -, hspelled⟩ := hdeclares.routine hr
    refine ⟨?_, fun hmem => ?_⟩
    · rw [hentry]
      -- a routine that has a body was given no address
      have hnot : ¬r.addr.isSome = true := fun hsome => by
        rw [hspelled.given.2 hsome] at hbody
        cases hbody
      simpa using hnot
    · rw [Labels.storage, Set.mem_ofPred_eq, hlength] at hmem
      cases hmem.2
  · obtain ⟨facts, hfacts⟩ := analyse_ok haccepted hr
    refine Routine.addresses_storage_of_plain (fun s hs x hx => hdeclares.typeOf_register hs hx) (fun q hq => ?_) hplain htells
      hr hfacts hbody
    obtain ⟨sig, hentry, -⟩ := hdeclares.routine hq
    exact ⟨sig, by rw [Symbols.globalType?, hentry]; rfl⟩

/-- A label of storage has a given address only if the definition gives one. -/
theorem placed_spelled (hplaced : p.placed symbols e = .ok (e1, labels, ps)) (hdeclares : symbols.Declares p) {q : Placed}
    (hq : q ∈ ps) : (e1.labels.entry q.label).addr = q.defn.addr ∧ (q.defn.initial.isSome = true → q.defn.addr = none) := by
  obtain ⟨n, -, hentry⟩ := ((placed_seats hplaced).placed q hq).2.entry
  refine ⟨by rw [hentry], ?_⟩
  have hmem : q.defn ∈ p.defns ++ p.routines.flatMap (·.locals) := placed_defns hplaced ▸ mem_map_of_mem hq
  obtain hd | hd := mem_append.1 hmem
  · obtain ⟨ty, -, -, hspelled⟩ := hdeclares.defn hd
    exact hspelled.once
  · obtain ⟨r, hr, hd⟩ := mem_flatMap.1 hd
    obtain ⟨entry, -, hlocal⟩ := hdeclares.localDefn hr hd
    exact hlocal.spelled.once

/-- The stages of a layout, one after the other. -/
theorem layOut_eq (roster : Option (List (List String))) (e : Emitter) :
    p.layOut symbols roster e = (do
      let (e, labels, ps) ← p.placed symbols e
      let rows := roster.getD (defaultRoster p.routines)
      let st ← rows.foldlM (fun st row => chain symbols labels p.routines row st) { emitter := e }
      let e ← trampolines ⟨symbols, labels, none⟩ st.trampolines.entries st.emitter
      let e ← initials ps e
      let e ← reserves ps e
      pure ⟨e, labels⟩) := by
  simp only [layOut, placed, bind_assoc, pure_bind]

theorem layOut_tracks {roster : Option (List (List String))} (hdeclares : symbols.Declares p)
    (haccepted : (p.analyse symbols).2 = .ok all) (hapart : p.NamesApart) (hplain : p.NamesPlain)
    (hitems : e'.items = e.items) (haddr : e'.addr = e.addr + d) (hcounter : e'.counter = e.counter)
    (hlabels : e.labels = #[]) (hlabels' : e'.labels = #[]) :
    Tracks (Layout.Moves p.given d) (p.layOut symbols roster e) (p.layOut symbols roster e') := by
  rw [layOut_eq, layOut_eq]
  refine Tracks.bind (R := fun x x' => x'.1 = { e' with labels := x.1.labels } ∧ x'.2 = x.2) (fun ⟨e1, labels, ps⟩ hplaced =>
    ⟨_, placed_apart hplaced (hlabels'.trans hlabels.symm), rfl, rfl⟩) ?_
  rintro ⟨e1, labels, ps⟩ ⟨_, _⟩ hplaced ⟨rfl, rfl⟩
  have hstart : CodeState.Moves e1.labels d { emitter := e1 } { emitter := { e' with labels := e1.labels } } := by
    rw [placed_emitter hplaced]
    refine ⟨⟨hitems, haddr, hcounter, rfl, le_rfl, fun id a ha => ⟨ha, rfl⟩, fun id ha => ?_⟩, rfl, rfl, fun _ _ => rfl⟩
    simp only [Label.moved] at ha ⊢
    rw [ha, Option.map_none, ← ha]
  have hmovable : ∀ r ∈ p.routines, ∀ body, r.body = some body → r.Movable symbols labels e1.labels body :=
    fun _ hr _ hbody => placed_movable hplaced hdeclares haccepted hapart hplain hr hbody
  refine (rows_moves hstart hmovable _).bind fun st st' hst hmoves => ?_
  obtain ⟨hbelow, -⟩ := placed_labels hplaced
  obtain ⟨-, hawaits⟩ := lay_settles hbelow (n := e1.labels.size) ⟨le_rfl, fun v id hv => by cases hv⟩ (rows_links hst)
  have hspelled := fun q hq => placed_spelled hplaced hdeclares (q := q) hq
  rw [hmoves.trampolines]
  refine (trampolines_tracks hmoves.emitter fun x hx v _ e e' h => (h.resolve ?_).codes _).bind fun e2 e2' _ h2 => ?_
  · rw [Labels.entry_of_size_le (hawaits.trampolines x.1 x.2 hx).1]
  have hfree {q : Placed} (hq : q ∈ ps) (ha : q.defn.addr = none) : (e1.labels.entry q.label).addr = none := by
    rw [(hspelled q hq).1, ha]
  refine (initials_tracks h2 fun q hq hinitial i n _ e e' h => ?_).bind fun e3 e3' _ h3 => ?_
  · exact (((h.measure n).resolve (hfree hq ((hspelled q hq).2 hinitial))).append i).move n
  refine (reserves_tracks h3 fun q hq ha e e' h => ⟨(h.kept _).2, (h.resolve (hfree hq ha)).move⟩).bind fun e4 e4' _ h4 => .pure ?_
  exact ⟨rfl, h4.items, h4.size, fun id a ha => h4.fixed id a (by rw [placed_given hplaced hlabels, ha]),
    fun id ha => h4.others id (by rw [placed_given hplaced hlabels, ha])⟩

/-- An accepted program is the same wherever it is put: it is laid out from one address on exactly if it is from another one,
with the same items. The labels that have addresses of their own keep them, and all others are as far apart as the two
starts. No local may have the name of its own routine, and nothing else may be written like the name of a routine: the label
of the routine would stand for storage then. -/
theorem layOut_relocates {fs : Files} {path mains : List String} {parsed : List Program}
    (hread : fs.loadAll path .initial mains = .ok (symbols, parsed))
    (haccepted : ((merge parsed).analyse symbols).2 = .ok all) (hapart : (merge parsed).NamesApart)
    (hplain : (merge parsed).NamesPlain) (f : Format) (roster : Option (List (List String))) (o o' : Int) :
    ((∃ L, (merge parsed).layOut symbols roster (f.opened o) = .ok L)
        ↔ ∃ L, (merge parsed).layOut symbols roster (f.opened o') = .ok L)
      ∧ ∀ L L', (merge parsed).layOut symbols roster (f.opened o) = .ok L →
        (merge parsed).layOut symbols roster (f.opened o') = .ok L' → L.Moves (merge parsed).given (o' - o) L' := by
  obtain ⟨hdeclares, -⟩ := fs.read_agree hread
  have htracks (o o' : Int) : Tracks (Layout.Moves (merge parsed).given (o' - o))
      ((merge parsed).layOut symbols roster (f.opened o)) ((merge parsed).layOut symbols roster (f.opened o')) :=
    layOut_tracks hdeclares haccepted hapart hplain (by rw [← Array.toList_inj, f.opened_items, f.opened_items])
    (by rw [f.opened_addr, f.opened_addr]; omega) (by rw [f.opened_counter, f.opened_counter]) (f.opened_labels o)
    (f.opened_labels o')
  refine ⟨⟨fun ⟨L, hL⟩ => ?_, fun ⟨L, hL⟩ => ?_⟩, fun L L' hL hL' => ?_⟩
  · obtain ⟨L', hL', -⟩ := htracks o o' L hL
    exact ⟨L', hL'⟩
  · obtain ⟨L', hL', -⟩ := htracks o' o L hL
    exact ⟨L', hL'⟩
  · obtain ⟨L'', hL'', hmoves⟩ := htracks o o' L hL
    cases hL'.symm.trans hL''
    exact hmoves

end Program

/-- A routine that combines a location with an address of its own and one of its own, and keeps the result. -/
def scoring : Files := { entries := [⟨["m"], "byte score @ 16\nbyte lives
define main routine inputs score outputs lives trashes a, z, n static byte seed : 7 \x7b
ld a, score
or a, seed
st a, lives
\x7d
"⟩] }

theorem scoring_laidOut : ∃ symbols parsed all L L', scoring.loadAll [] .initial ["m"] = .ok (symbols, parsed)
    ∧ ((Program.merge parsed).analyse symbols).2 = .ok all ∧ (Program.merge parsed).NamesApart
    ∧ (Program.merge parsed).NamesPlain ∧ (Program.merge parsed).layOut symbols none (Format.c64.opened 0x0801) = .ok L
    ∧ (Program.merge parsed).layOut symbols none (Format.c64.opened 0) = .ok L' := by
  refine ⟨?_, ?_, ?_, ?_, ?_, ?read, ?accepted, ?apart, ?plain, ?first, ?second⟩
  case read => cbv; rfl
  case accepted => cbv; rfl
  case first => cbv; rfl
  case second => cbv; rfl
  case apart => unfold Program.NamesApart; decide
  case plain =>
    intro q hq r hr
    obtain rfl := mem_singleton.1 hq
    exact Ref.plain_of_name hr (by decide) (by decide)

theorem scoring_relocates : ∃ symbols parsed L L', scoring.loadAll [] .initial ["m"] = .ok (symbols, parsed)
    ∧ (Program.merge parsed).layOut symbols none (Format.c64.opened 0x0801) = .ok L
    ∧ (Program.merge parsed).layOut symbols none (Format.c64.opened 0) = .ok L'
    ∧ L.Moves (Program.merge parsed).given (0 - 0x0801) L' := by
  obtain ⟨symbols, parsed, all, L, L', hread, haccepted, hapart, hplain, hL, hL'⟩ := scoring_laidOut
  exact ⟨symbols, parsed, L, L', hread, hL, hL',
    (Program.layOut_relocates hread haccepted hapart hplain .c64 none 0x0801 0).2 L L' hL hL'⟩

/-- A routine with a local of its own name: the label of the routine stands for the local. -/
def selfNamed : Files := { entries := [⟨["m"], "define main routine trashes a, z, n static byte main : 0 \x7b ld a, main \x7d"⟩] }

theorem selfNamed_differs : ∃ symbols parsed all L L', selfNamed.loadAll [] .initial ["m"] = .ok (symbols, parsed)
    ∧ ((Program.merge parsed).analyse symbols).2 = .ok all
    ∧ (Program.merge parsed).layOut symbols none (Format.raw.opened 0) = .ok L
    ∧ (Program.merge parsed).layOut symbols none (Format.raw.opened 4096) = .ok L' ∧ L'.emitter.items ≠ L.emitter.items := by
  refine ⟨?_, ?_, ?_, ?_, ?_, ?read, ?accepted, ?first, ?second, ?differ⟩
  case read => cbv; rfl
  case accepted => cbv; rfl
  case first => cbv; rfl
  case second => cbv; rfl
  case differ => simp

end CheckedAsm
