import CheckedAsm.Proofs.Codegen.Layout
import CheckedAsm.Proofs.Codegen.Shift
import CheckedAsm.Proofs.Values.CodeTypes
/-! # Labels of storage and labels of routines

The label of a location of storage has a length from the beginning, that of a routine has none, and each bears the name
that it stands for. An accepted routine loads, stores, combines and shifts bytes only, so what it addresses directly is
storage and never a routine. -/

namespace CheckedAsm

open Assoc Codegen List Option

variable {symbols : Symbols} {labels m : LabelMap} {ls ls' : Labels} {routines : Set String} {q : Routine} {id : LabelId}
  {ps : List Placed} {name : String} {p : Program} {e e' : Emitter} {body : Block} {facts : Facts}

/-! ### Labels of names -/

/-- What the labels of names tell, once those of the given routines are among them. -/
structure LabelMap.Tells (symbols : Symbols) (m : LabelMap) (ls : Labels) (routines : Set String) : Prop where
  below : m.Below ls.size
  named : ∀ name id, m.globals.get? name = some id → (ls.entry id).name = name
  routine : ∀ name ∈ routines, ∃ id, m.globals.get? name = some id ∧ (ls.entry id).length = none
  storage : ∀ name id, m.globals.get? name = some id → (ls.entry id).length = none → name ∈ routines
  locals : ∀ q ids name id, m.locals.get? q = some ids → ids.get? name = some id → (ls.entry id).length.isSome = true
  typed : ∀ q ∈ routines, ∃ ids, m.locals.get? q = some ids
    ∧ ∀ name ty, symbols.localType? q name = some ty → (ids.get? name).isSome = true
  own : ∀ q ids, m.locals.get? q = some ids → ids.get? q = none

/-- Labels that come later change nothing. -/
theorem LabelMap.Tells.mono (h : m.Tells symbols ls routines) (hls : ls.Grows ls') : m.Tells symbols ls' routines where
  below := ⟨fun name id hid => (h.below.globals name id hid).trans_le hls.size,
    fun q ids name id hids hid => (h.below.locals q ids name id hids hid).trans_le hls.size⟩
  named name id hid := by rw [hls.kept id (h.below.globals name id hid), h.named name id hid]
  routine name hname := by
    obtain ⟨id, hid, hnone⟩ := h.routine name hname
    exact ⟨id, hid, by rw [hls.kept id (h.below.globals name id hid), hnone]⟩
  storage name id hid hnone := by
    rw [hls.kept id (h.below.globals name id hid)] at hnone
    exact h.storage name id hid hnone
  locals q ids name id hids hid := by
    rw [hls.kept id (h.below.locals q ids name id hids hid)]
    exact h.locals q ids name id hids hid
  typed := h.typed
  own := h.own

theorem Placed.Labelled.isSome {q : Placed} (h : q.Labelled ls) : (ls.entry q.label).length.isSome = true := by
  obtain ⟨n, -, hentry⟩ := h.entry
  rw [hentry, isSome_some]

/-- A routine gets its label, and its locals get theirs. -/
theorem LabelMap.Tells.add {q : String} (h : m.Tells symbols ls routines) (hlt : id < ls.size) (hname : (ls.entry id).name = q)
    (hnone : (ls.entry id).length = none) (hps : ∀ p ∈ ps, p.Labelled ls)
    (htyped : ∀ name ty, symbols.localType? q name = some ty → ((labelsOf ps).get? name).isSome = true)
    (hown : ∀ p ∈ ps, p.defn.name ≠ q) :
    LabelMap.Tells symbols ⟨m.globals.set q id, m.locals.set q (labelsOf ps)⟩ ls (insert q routines) where
  below := h.below.add le_rfl hlt fun p hp => (hps p hp).lt
  named name id' hid := by
    rw [get?_set] at hid
    split at hid
    case isTrue heq =>
      cases hid
      rw [hname, heq]
    case isFalse => exact h.named name id' hid
  routine name hmem := by
    simp only [get?_set]
    by_cases heq : q = name
    · rw [if_pos heq]
      exact ⟨id, rfl, hnone⟩
    · rw [if_neg heq]
      exact h.routine name (hmem.resolve_left fun hn => heq hn.symm)
  storage name id' hid hlen := by
    rw [get?_set] at hid
    split at hid
    case isTrue heq => exact .inl heq.symm
    case isFalse => exact .inr (h.storage name id' hid hlen)
  locals q' ids name id' hids hid := by
    rw [get?_set] at hids
    split at hids
    · cases hids
      obtain ⟨p, hp, rfl, -⟩ := mem_labelsOf hid
      exact (hps p hp).isSome
    · exact h.locals q' ids name id' hids hid
  typed q' hmem := by
    simp only [get?_set]
    by_cases heq : q = q'
    · rw [if_pos heq]
      exact ⟨_, rfl, heq ▸ htyped⟩
    · rw [if_neg heq]
      exact h.typed q' (hmem.resolve_left fun hn => heq hn.symm)
  own q' ids hids := by
    rw [get?_set] at hids
    split at hids
    case isTrue heq =>
      cases hids
      rw [eq_none_iff_forall_ne_some]
      intro id' hid
      obtain ⟨p, hp, -, hname⟩ := mem_labelsOf hid
      exact hown p hp (hname.trans heq.symm)
    case isFalse => exact h.own q' ids hids

/-- The label of a routine is its own. -/
theorem LabelMap.Tells.label_own {q : String} (h : m.Tells symbols ls routines) (hq : q ∈ routines)
    (hid : CodeSetting.label ⟨symbols, m, some q⟩ q = .ok id) : m.globals.get? q = some id ∧ (ls.entry id).length = none := by
  obtain ⟨ids, hids, -⟩ := h.typed q hq
  obtain ⟨id', hid', hnone⟩ := h.routine q hq
  simp only [CodeSetting.label, bind_some, hids, h.own q ids hids, hid'] at hid
  cases hid
  exact ⟨hid', hnone⟩

theorem Codegen.labelsOf_isSome (h : ∃ p ∈ ps, p.defn.name = name) : ((labelsOf ps).get? name).isSome = true := by
  suffices hall : ∀ m : Assoc String LabelId, (m.get? name).isSome = true ∨ (∃ p ∈ ps, p.defn.name = name) →
      ((ps.foldl (fun m p => m.set p.defn.name p.label) m).get? name).isSome = true from hall ⟨[]⟩ (.inr h)
  clear h
  induction ps with
  | nil =>
    rintro m (h | ⟨p, hp, -⟩)
    · exact h
    · cases hp
  | cons p ps ih =>
    intro m h
    refine ih _ ?_
    rw [get?_set]
    split
    · exact .inl rfl
    case isFalse hne =>
      obtain h | ⟨q, hq, hname⟩ := h
      · exact .inl h
      · obtain rfl | hq := mem_cons.1 hq
        · exact (hne hname).elim
        · exact .inr ⟨q, hq, hname⟩

theorem Codegen.RoutinesPlaced.tells {rs : List Routine} {m' : LabelMap}
    {names : Set String} (h : RoutinesPlaced symbols rs ls m ls' m' ps) (hm : m.Tells symbols ls names)
    (hlocals : ∀ r ∈ rs, ∀ name ty, symbols.localType? r.name name = some ty → ∃ d ∈ r.locals, d.name = name)
    (hown : ∀ r ∈ rs, ∀ d ∈ r.locals, d.name ≠ r.name) : m'.Tells symbols ls' (names ∪ {name | ∃ r ∈ rs, r.name = name}) := by
  induction h generalizing names with
  | nil => simpa using hm
  | @cons r rs ls ls1 ls' m m' ps ps' hdefns _ ih =>
    obtain ⟨hgrows, hsize, hentry⟩ := hdefns.grows.of_push
    obtain ⟨hr, hrs⟩ := forall_mem_cons.1 hlocals
    obtain ⟨hr', hrs'⟩ := forall_mem_cons.1 hown
    have htyped : ∀ name ty, symbols.localType? r.name name = some ty → ((labelsOf ps).get? name).isSome = true := by
      intro name ty hty
      obtain ⟨d, hd, hname⟩ := hr name ty hty
      rw [← hdefns.defns] at hd
      obtain ⟨p, hp, rfl⟩ := mem_map.1 hd
      exact labelsOf_isSome ⟨p, hp, hname⟩
    have hadd := (hm.mono hgrows).add hsize (by rw [hentry]) (by rw [hentry]) (fun p hp => (hdefns.seats.placed p hp).2)
      htyped fun p hp => hr' p.defn (hdefns.defns ▸ mem_map_of_mem hp)
    have hset : insert r.name names ∪ {name | ∃ r ∈ rs, r.name = name}
        = names ∪ {name | ∃ r' ∈ r :: rs, r'.name = name} := by
      ext name
      simp only [Set.mem_union, Set.mem_insert_iff, Set.mem_ofPred_eq, mem_cons, exists_eq_or_imp]
      tauto
    exact hset ▸ ih hadd hrs hrs'

/-- What the table of symbols says about the program that it was read with: the registers are bytes, routines have
routine types and words for names, and the locals of a routine are defined there. -/
structure Symbols.Describes (symbols : Symbols) (p : Program) : Prop where
  registers : ∀ s : Setting, s.symbols = symbols → ∀ r : Ref, r.isRegister = true → s.typeOf r = .ok .byte
  routines : ∀ r ∈ p.routines, ∃ sig, symbols.globalType? r.name = some (.routine sig)
  locals : ∀ r ∈ p.routines, ∀ name ty, symbols.localType? r.name name = some ty → ∃ d ∈ r.locals, d.name = name
  words : ∀ r ∈ p.routines, '+' ∉ r.name.toList ∧ '(' ∉ r.name.toList

/-- No routine has a local location of its own name, which would take the place of its label. -/
def Program.NamesApart (p : Program) : Prop := ∀ r ∈ p.routines, ∀ d ∈ r.locals, d.name ≠ r.name

theorem Program.placed_tells_of_locals (h : p.placed symbols e = .ok (e', labels, ps))
    (hlocals : ∀ r ∈ p.routines, ∀ name ty, symbols.localType? r.name name = some ty → ∃ d ∈ r.locals, d.name = name)
    (hapart : p.NamesApart) :
    (∀ q ∈ ps, (e'.labels.entry q.label).length.isSome = true)
      ∧ labels.Tells symbols e'.labels {name | ∃ r ∈ p.routines, r.name = name} := by
  refine ⟨fun q hq => ((placed_seats h).placed q hq).2.isSome, ?_⟩
  obtain ⟨ls, globals, locals, hglobals, hroutines, rfl, -⟩ := placed_ok h
  have hseats := hglobals.seats.placed
  have hstart : LabelMap.Tells symbols ⟨labelsOf globals, ⟨[]⟩⟩ ls ∅ := by
    refine ⟨⟨fun name id hid => ?_, fun q ids name id hids => by cases hids⟩, fun name id hid => ?_, ?_, ?_, ?_, ?_, ?_⟩
    · obtain ⟨p, hp, rfl, -⟩ := mem_labelsOf hid
      exact (hseats p hp).2.lt
    · obtain ⟨p, hp, rfl, hname⟩ := mem_labelsOf hid
      obtain ⟨n, -, hentry⟩ := (hseats p hp).2.entry
      rw [hentry, hname]
    · exact fun name hname => by cases hname
    · intro name id hid hnone
      obtain ⟨p, hp, rfl, -⟩ := mem_labelsOf hid
      have hsome := (hseats p hp).2.isSome
      rw [hnone] at hsome
      cases hsome
    · exact fun q ids name id hids => by cases hids
    · exact fun q hq => by cases hq
    · exact fun q ids hids => by cases hids
  have htells := hroutines.tells hstart hlocals hapart
  rwa [Set.empty_union] at htells

theorem Program.placed_tells
    (h : p.placed symbols e = .ok (e', labels, ps)) (hdescribes : symbols.Describes p) (hapart : p.NamesApart) :
    (∀ q ∈ ps, (e'.labels.entry q.label).length.isSome = true)
      ∧ labels.Tells symbols e'.labels {name | ∃ r ∈ p.routines, r.name = name} :=
  placed_tells_of_locals h hdescribes.locals hapart

/-! ### What is addressed directly -/

section

variable {f : Focus} {cx cx' : Context} {op : Op} {r : Ref}

/-- What an accepted operation addresses directly is a byte, or a cell of a table or behind a pointer. -/
theorem Focus.direct_byte (hregister : ∀ r : Ref, r.isRegister = true → f.setting.typeOf r = .ok .byte)
    (h : f.single cx op = .ok cx') (hr : op.direct? = some r) :
    (∃ b o i, r = .indexed b o i) ∨ (∃ b, r = .indirect b) ∨ f.setting.typeOf r = .ok .byte := by
  have hbyte {d src : Ref} (h : f.readByte cx d src = .ok ()) :
      (∃ b o i, src = .indexed b o i) ∨ (∃ b, src = .indirect b) ∨ f.setting.typeOf src = .ok .byte :=
    (readByte_ok h).2.imp (fun ⟨b, o, i, hsrc, _⟩ => ⟨b, o, i, hsrc⟩) .inr
  cases single_accepts h with
  | loadCell | storeCell =>
    obtain ⟨-, hsrc⟩ := ite_none_right_eq_some.1 hr
    exact .inl ⟨_, _, _, (Option.some.inj hsrc).symm⟩
  | loadBehind | storeBehind =>
    obtain ⟨-, hsrc⟩ := ite_none_right_eq_some.1 hr
    exact .inr (.inl ⟨_, (Option.some.inj hsrc).symm⟩)
  | load _ _ hd ht | store _ ht hd =>
    obtain ⟨hregisters, hsrc⟩ := ite_none_right_eq_some.1 hr
    cases hsrc
    rw [hregister _ hregisters] at hd
    cases hd
    exact .inr (.inr ht)
  | andCell _ hread | and _ hread | or _ hread | xor _ hread =>
    cases hr
    exact hbyte hread
  | shlCell | shrCell =>
    cases hr
    exact .inl ⟨_, _, _, rfl⟩
  | shl _ hty | shr _ hty =>
    cases hr
    exact .inr (.inr hty)
  | _ => cases hr

/-- A reference with a word for its name is plain. -/
theorem Ref.plain_of_name (h : r.name = name) (hplus : '+' ∉ name.toList) (hparen : '(' ∉ name.toList) :
    r = .location name ∨ ∃ site, r = .pending name site := by
  subst h
  cases r with
  | location n => exact .inl rfl
  | pending n site => exact .inr ⟨site, rfl⟩
  | constant c => simp [Ref.name, Const.name] at hparen
  | indexed b o i => simp [Ref.name] at hplus
  | indirect b => simp [Ref.name] at hplus

/-- The labels of storage. -/
def Labels.storage (ls : Labels) : Set LabelId := {id | id < ls.size ∧ (ls.entry id).length.isSome = true}

/-- Nothing but a name is written like the name of a routine. -/
def Program.NamesPlain (p : Program) : Prop :=
  ∀ q ∈ p.routines, ∀ r : Ref, r.name = q.name → r = .location q.name ∨ ∃ site, r = .pending q.name site

theorem Symbols.Describes.namesPlain (h : symbols.Describes p) : p.NamesPlain :=
  fun q hq _ hr => Ref.plain_of_name hr (h.words q hq).1 (h.words q hq).2

/-- An accepted routine addresses only storage directly. -/
theorem Routine.addresses_storage_of_plain
    (hregisters : ∀ s : Setting, s.symbols = symbols → ∀ r : Ref, r.isRegister = true → s.typeOf r = .ok .byte)
    (hroutines : ∀ r ∈ p.routines, ∃ sig, symbols.globalType? r.name = some (.routine sig)) (hplain : p.NamesPlain)
    (htells : labels.Tells symbols ls {name | ∃ r ∈ p.routines, r.name = name})
    (hq : q ∈ p.routines) (haccepted : (q.analyse symbols).2 = .ok facts) (hbody : q.body = some body) :
    body.Addresses ⟨symbols, labels, some q.name⟩ ls.storage := by
  intro op hop r id hr hid
  obtain ⟨sig, t, -, hwalk, -⟩ := Routine.analyse_ok haccepted hbody
  simp only [Routine.walk, bind_eq_ok] at hwalk
  obtain ⟨cx0, -, cx, -, hwalk⟩ := hwalk
  obtain ⟨f, hf, cx1, cx2, hsingle⟩ := body.walk_ops _ hwalk op hop
  refine ⟨htells.below.label hid, ?_⟩
  unfold CodeSetting.labelOf CodeSetting.label at hid
  split at hid
  case h_1 hlocal =>
    cases hid
    obtain ⟨q', -, hlocal⟩ := bind_eq_some_iff.1 hlocal
    obtain ⟨ids, hids, hname⟩ := bind_eq_some_iff.1 hlocal
    exact htells.locals q' ids r.name id hids hname
  case h_2 hnotlocal =>
    split at hid
    case h_2 => cases hid
    case h_1 hglobal =>
      cases hid
      rw [isSome_iff_ne_none]
      intro hnone
      -- a routine of that name has a routine type, but what is addressed here is a byte
      obtain ⟨q', hq', hname⟩ := htells.storage r.name id hglobal hnone
      have hregister := hregisters f.setting (by rw [hf]; rfl)
      obtain rfl | ⟨site, rfl⟩ := hplain q' hq' r hname.symm
      · obtain ⟨b, o, i, hr⟩ | ⟨b, hr⟩ | hty := Focus.direct_byte hregister hsingle hr
        · cases hr
        · cases hr
        · obtain ⟨sig', hsig'⟩ := hroutines q' hq'
          have hnone : symbols.localType? q.name q'.name = none := by
            rw [eq_none_iff_forall_ne_some]
            intro ty hty
            obtain ⟨ids, hids, hall⟩ := htells.typed q.name ⟨q, hq, rfl⟩
            obtain ⟨id', hid'⟩ := isSome_iff_exists.1 (hall q'.name ty hty)
            simp [hids, Ref.name, hid'] at hnotlocal
          rw [hf] at hty
          simp [Setting.typeOf, Setting.typeOfName, Routine.setting, hnone, Setting.globalType, hsig'] at hty
      · obtain ⟨b, o, i, hr⟩ | ⟨b, hr⟩ | hty := Focus.direct_byte hregister hsingle hr
        · cases hr
        · cases hr
        · cases hty

theorem Routine.addresses_storage
    (hdescribes : symbols.Describes p) (htells : labels.Tells symbols ls {name | ∃ r ∈ p.routines, r.name = name})
    (hq : q ∈ p.routines) (haccepted : (q.analyse symbols).2 = .ok facts) (hbody : q.body = some body) :
    body.Addresses ⟨symbols, labels, some q.name⟩ ls.storage :=
  addresses_storage_of_plain hdescribes.registers hdescribes.routines hdescribes.namesPlain htells hq haccepted hbody

end

end CheckedAsm
