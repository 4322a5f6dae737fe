import CheckedAsm.Proofs.Assoc
import CheckedAsm.Proofs.Codegen.Blocks
import Mathlib.Data.Set.Insert
/-! # What stands between two states

The code of a block is a list of instructions with labels between them. Every label that got an address
stands before one of the instructions or after the last, and branches go to such labels only. A jump goes to one
too, or to a routine or through a vector that the block names; a call goes to a routine or to the trampoline of
a vector. -/

namespace CheckedAsm

open Codegen Emitter List

/-- Whether the machine may go on with the next instruction or elsewhere. -/
def Mnemonic.isBranch : Mnemonic → Bool
  | bcc | bcs | bne | beq | bpl | bmi => true
  | _ => false

/-- A new label without an address changes no address. -/
theorem Labels.addr_push_of_none {ls : Labels} {l : Label} {id : LabelId} (hl : l.addr = none) :
    (Labels.entry (ls.push l) id).addr = (ls.entry id).addr := by
  by_cases hid : id < ls.size
  · rw [entry_push_lt hid]
  · rw [entry_of_size_le (Nat.le_of_not_lt hid)]
    obtain rfl | hgt := Nat.eq_or_lt_of_le (Nat.le_of_not_lt hid)
    · rw [entry_push_self, hl]
    · rw [entry_of_size_le (by rw [Array.size_push]; exact hgt)]

/-- Where an instruction leads, when it stands in the code between two states. The labels in `pending` are still to
get an address. -/
structure Code.Leads (cs : CodeSetting) (pending : Set LabelId) (st st' : CodeState) (k : Code) : Prop where
  branch : k.mnemonic.isBranch = true → ∃ id, k.operand = .relative id ∧ st.emitter.labels.size ≤ id
    ∧ (id ∈ pending ∨ (st'.emitter.labels.entry id).addr.isSome = true)
  jump : k.mnemonic = .jmp → (∃ target, cs.exit target = .ok k.operand)
    ∨ ∃ id, k.operand = .wide id ∧ st.emitter.labels.size ≤ id
      ∧ (id ∈ pending ∨ (st'.emitter.labels.entry id).addr.isSome = true)
  call : k.mnemonic = .jsr →
    ∃ target id, k.operand = .wide id ∧ cs.entry st'.trampolines target = some k.operand
  stays : k.mnemonic ≠ .rts

/-- The second state has some instructions more than the first, with labels between them. -/
structure CodeState.Spans (cs : CodeSetting) (pending : Set LabelId) (st st' : CodeState) (ks : List Code) : Prop where
  adds : st.emitter.Adds st'.emitter
  items : st'.emitter.items.toList = st.emitter.items.toList ++ ks.map Code.item
  leads : ∀ k ∈ ks, k.Leads cs pending st st'
  landed : ∀ id a, st.emitter.labels.size ≤ id → (st'.emitter.labels.entry id).addr = some a →
    ∃ xs ys, ks = xs ++ ys ∧ a = st.emitter.addr + Code.room xs
  pending_lt : ∀ id ∈ pending, id < st'.emitter.labels.size
  kept : ∀ v id, st.trampolines.get? v = some id → st'.trampolines.get? v = some id
  trampolines : ∀ v id, (v, id) ∈ st'.trampolines.entries → (v, id) ∈ st.trampolines.entries
    ∨ (st.emitter.labels.size ≤ id ∧ id < st'.emitter.labels.size
      ∧ (st'.emitter.labels.entry id).addr = none ∧ id ∉ pending)

section

variable {cs : CodeSetting} {pending : Set LabelId} {st st1 st2 st' : CodeState} {ks ks' : List Code} {k : Code}
  {id : LabelId} {m : Mnemonic}

/-! ### Instructions -/

namespace Code.Leads

theorem ofPlain (hk : k.mnemonic.isPlain = true) : k.Leads cs pending st st' := by
  obtain ⟨m, o⟩ := k
  constructor
  · intro hb
    cases m <;> simp [Mnemonic.isPlain, Mnemonic.isBranch] at hk hb
  · rintro ⟨⟩
    cases hk
  · rintro ⟨⟩
    cases hk
  · rintro ⟨⟩
    cases hk

theorem ofBranch (hm : m.isBranch = true) (hid : st.emitter.labels.size ≤ id)
    (ha : id ∈ pending ∨ (st'.emitter.labels.entry id).addr.isSome = true) :
    Code.Leads cs pending st st' ⟨m, .relative id⟩ := by
  refine ⟨fun _ => ⟨id, rfl, hid, ha⟩, ?_, ?_, ?_⟩
  all_goals
    rintro ⟨⟩
    cases hm

theorem ofJump (hid : st.emitter.labels.size ≤ id)
    (ha : id ∈ pending ∨ (st'.emitter.labels.entry id).addr.isSome = true) :
    Code.Leads cs pending st st' ⟨.jmp, .wide id⟩ where
  branch hb := by cases hb
  jump _ := .inr ⟨id, rfl, hid, ha⟩
  call hc := by cases hc
  stays hr := by cases hr

theorem ofExit {target : String} {o : Operand} (ho : cs.exit target = .ok o) :
    Code.Leads cs pending st st' ⟨.jmp, o⟩ where
  branch hb := by cases hb
  jump _ := .inl ⟨target, ho⟩
  call hc := by cases hc
  stays hr := by cases hr

theorem ofEntry {target : String} (ho : cs.entry st'.trampolines target = some (.wide id)) :
    Code.Leads cs pending st st' ⟨.jsr, .wide id⟩ where
  branch hb := by cases hb
  jump hj := by cases hj
  call _ := ⟨target, id, rfl, ho⟩
  stays hr := by cases hr

/-- Where an instruction leads does not change as more code is added, before it or after it. -/
theorem widen {pending' : Set LabelId} (h : k.Leads cs pending st1 st2)
    (hfirst : st.emitter.labels.size ≤ st1.emitter.labels.size)
    (hpending : ∀ id ∈ pending, id ∈ pending' ∨ (st'.emitter.labels.entry id).addr.isSome = true)
    (haddr : ∀ id a, (st2.emitter.labels.entry id).addr = some a → (st'.emitter.labels.entry id).addr.isSome = true)
    (hkept : ∀ v id, st2.trampolines.get? v = some id → st'.trampolines.get? v = some id) :
    k.Leads cs pending' st st' := by
  have hset : ∀ id, id ∈ pending ∨ (st2.emitter.labels.entry id).addr.isSome = true →
      id ∈ pending' ∨ (st'.emitter.labels.entry id).addr.isSome = true := by
    rintro id (hid | hid)
    · exact hpending id hid
    · obtain ⟨a, ha⟩ := Option.isSome_iff_exists.1 hid
      exact .inr (haddr id a ha)
  refine ⟨fun hb => ?_, fun hj => ?_, fun hc => ?_, h.stays⟩
  · obtain ⟨id, ho, hid, ha⟩ := h.branch hb
    exact ⟨id, ho, hfirst.trans hid, hset id ha⟩
  · obtain ht | ⟨id, ho, hid, ha⟩ := h.jump hj
    · exact .inl ht
    · exact .inr ⟨id, ho, hfirst.trans hid, hset id ha⟩
  · obtain ⟨target, id, ho, he⟩ := h.call hc
    exact ⟨target, id, ho, entry_of_trampolines hkept he⟩

end Code.Leads

theorem Mnemonic.isBranch_of_branch {i : Instr} {src : Ref} {inverted : Bool} (hb : branch i src inverted = .ok m) :
    m.isBranch = true := by
  unfold branch at hb
  split at hb
  case h_1 m' hm =>
    cases hb
    unfold branchMnemonic? at hm
    split at hm <;> cases hm <;> rfl
  case h_2 => cases hb

/-! ### Code put together -/

namespace CodeState.Spans

theorem refl (st : CodeState) : Spans cs ∅ st st [] where
  adds := .refl _
  items := by simp
  leads _ hk := by cases hk
  landed id a hid ha := by
    rw [Labels.entry_of_size_le hid] at ha
    cases ha
  pending_lt _ hid := by cases hid
  kept _ _ h := h
  trampolines _ _ h := .inl h

section

variable (h : Spans cs pending st st1 ks)
include h

/-- Code after code. -/
theorem append (h' : Spans cs ∅ st1 st2 ks') :
    Spans cs pending st st2 (ks ++ ks') where
  adds := h.adds.trans h'.adds
  items := by rw [h'.items, h.items, map_append, append_assoc]
  leads k hk := by
    have haddr : ∀ id a, (st1.emitter.labels.entry id).addr = some a →
        (st2.emitter.labels.entry id).addr.isSome = true := by
      intro id a ha
      rw [h'.adds.addr_kept ha]
      rfl
    obtain hk | hk := mem_append.1 hk
    · exact (h.leads k hk).widen (le_rfl) (fun _ hid => .inl hid) haddr h'.kept
    · refine (h'.leads k hk).widen h.adds.size (fun _ hid => by cases hid) (fun _ _ ha => ?_) fun _ _ hv => hv
      rw [ha]
      rfl
  landed id a hid ha := by
    by_cases hlt : id < st1.emitter.labels.size
    · rw [h'.adds.kept id hlt] at ha
      obtain ⟨xs, ys, rfl, hxs⟩ := h.landed id a hid ha
      exact ⟨xs, ys ++ ks', append_assoc _ _ _, hxs⟩
    · obtain ⟨xs, ys, rfl, hxs⟩ := h'.landed id a (Nat.le_of_not_lt hlt) ha
      refine ⟨ks ++ xs, ys, (append_assoc _ _ _).symm, ?_⟩
      rw [hxs, h.adds.addr_eq h.items, Code.room_append, Int.add_assoc]
  pending_lt id hid := (h.pending_lt id hid).trans_le h'.adds.size
  kept v id hv := h'.kept v id (h.kept v id hv)
  trampolines v id hv := by
    obtain hv | ⟨hle, hlt, hnone, -⟩ := h'.trampolines v id hv
    · obtain hv | ⟨hle, hlt, hnone, hp⟩ := h.trampolines v id hv
      · exact .inl hv
      · refine .inr ⟨hle, hlt.trans_le h'.adds.size, ?_, hp⟩
        rw [h'.adds.kept id hlt, hnone]
    · refine .inr ⟨h.adds.size.trans hle, hlt, hnone, fun hp => ?_⟩
      exact Nat.not_lt_of_le hle (h.pending_lt id hp)

/-- One more instruction. -/
theorem snoc (hk : k.Leads cs pending st st1) :
    Spans cs pending st (st1.codes [k]) (ks ++ [k]) where
  adds := h.adds.trans (.ofCodes _ _)
  items := by
    have hi := codes_items st1.emitter [k]
    rw [h.items] at hi
    rw [map_append, ← append_assoc]
    exact hi
  leads d hd := by
    have hlead : d.Leads cs pending st st1 := by
      obtain hd | hd := mem_append.1 hd
      · exact h.leads d hd
      · exact mem_singleton.1 hd ▸ hk
    refine hlead.widen (le_rfl) (fun _ hid => .inl hid) (fun _ _ ha => ?_) fun _ _ hv => hv
    simp only [codes, withEmitter, codes_labels, ha]
    rfl
  landed id a hid ha := by
    simp only [codes, withEmitter, codes_labels] at ha
    obtain ⟨xs, ys, rfl, hxs⟩ := h.landed id a hid ha
    exact ⟨xs, ys ++ [k], append_assoc _ _ _, hxs⟩
  pending_lt id hid := by
    simp only [codes, withEmitter, codes_labels]
    exact h.pending_lt id hid
  kept := h.kept
  trampolines v id hv := by
    simp only [codes, withEmitter, codes_labels]
    exact h.trampolines v id hv

theorem straight (hs : Code.Straight ks') :
    Spans cs pending st (st1.codes ks') (ks ++ ks') := by
  induction ks' generalizing st1 ks with
  | nil =>
    rw [append_nil]
    exact h
  | cons k ks' ih =>
    have hk : k.Leads cs pending st st1 := .ofPlain (hs k mem_cons_self)
    have hrest := ih (h.snoc hk) fun d hd => hs d (mem_cons_of_mem k hd)
    rwa [append_assoc] at hrest

/-- A new label that is to get its address later. -/
theorem newLabel (name : String) :
    Spans cs (insert st1.emitter.labels.size pending) st (st1.newLabel name).2 ks := by
  have hadds : st1.emitter.Adds (st1.newLabel name).2.emitter := .ofNewLabel _ _
  have hentry : ∀ id, ((st1.newLabel name).2.emitter.labels.entry id).addr = (st1.emitter.labels.entry id).addr :=
    fun _ => Labels.addr_push_of_none rfl
  have hsize : (st1.newLabel name).2.emitter.labels.size = st1.emitter.labels.size + 1 := by
    simp [CodeState.newLabel, Emitter.newLabel, withEmitter]
  refine ⟨h.adds.trans hadds, h.items, fun k hk => ?_, fun id a hid ha => ?_, ?_, h.kept, fun v id hv => ?_⟩
  · refine (h.leads k hk).widen (le_rfl) (fun _ hid => .inl (.inr hid)) (fun _ _ ha => ?_) fun _ _ hv => hv
    rw [hentry, ha]
    rfl
  · rw [hentry] at ha
    exact h.landed id a hid ha
  · rw [hsize]
    rintro id (rfl | hid)
    · exact Nat.lt_succ_self _
    · exact Nat.lt_succ_of_lt (h.pending_lt id hid)
  · obtain hv | ⟨hle, hlt, hnone, hp⟩ := h.trampolines v id hv
    · exact .inl hv
    · refine .inr ⟨hle, by rw [hsize]; exact Nat.lt_succ_of_lt hlt, by rw [hentry, hnone], ?_⟩
      rintro (rfl | hp')
      · exact Nat.lt_irrefl _ hlt
      · exact hp hp'

end

/-- A pending label gets its address. -/
theorem resolve (h : Spans cs (insert id pending) st st1 ks) (hid : st.emitter.labels.size ≤ id) :
    Spans cs pending st (st1.resolve id) ks := by
  have hlt : id < st1.emitter.labels.size := h.pending_lt id (Set.mem_insert _ _)
  have hself : ((st1.resolve id).emitter.labels.entry id).addr = some st1.emitter.addr := entry_resolve hlt
  have hother : ∀ id', id ≠ id' →
      (st1.resolve id).emitter.labels.entry id' = st1.emitter.labels.entry id' :=
    fun id' hne => entry_resolve_of_ne hne
  have hsize : (st1.resolve id).emitter.labels.size = st1.emitter.labels.size := size_resolve
  refine ⟨h.adds.resolve hid, h.items, fun k hk => ?_, fun id' a hid' ha => ?_, fun id' hid' => ?_, h.kept,
    fun v id' hv => ?_⟩
  · refine (h.leads k hk).widen (le_rfl) (fun id' hid' => ?_) (fun id' a ha => ?_) fun _ _ hv => hv
    · obtain rfl | hid' := hid'
      · rw [hself]
        exact .inr rfl
      · exact .inl hid'
    · by_cases hne : id = id'
      · subst hne
        rw [hself]
        rfl
      · rw [hother id' hne, ha]
        rfl
  · by_cases hne : id = id'
    · subst hne
      rw [hself] at ha
      cases ha
      exact ⟨ks, [], (append_nil ks).symm, h.adds.addr_eq h.items⟩
    · rw [hother id' hne] at ha
      exact h.landed id' a hid' ha
  · rw [hsize]
    exact h.pending_lt id' (.inr hid')
  · obtain hv | ⟨hle, hlt', hnone, hp⟩ := h.trampolines v id' hv
    · exact .inl hv
    · have hne : id ≠ id' := by
        rintro rfl
        exact hp (Set.mem_insert _ _)
      exact .inr ⟨hle, by rwa [hsize], by rw [hother id' hne, hnone], fun hp' => hp (.inr hp')⟩

/-- A label at the beginning of a loop. -/
theorem ofTopped (st : CodeState) : Spans cs ∅ st st.topped [] where
  adds := .ofLabelHere _
  items := by simp [topped, withEmitter, Emitter.labelHere, Emitter.newLabel]
  leads _ hk := by cases hk
  landed id a hid ha := by
    obtain rfl | hgt := Nat.eq_or_lt_of_le hid
    · rw [topped_entry] at ha
      cases ha
      exact ⟨[], [], rfl, (Int.add_zero _).symm⟩
    · rw [Labels.entry_of_size_le] at ha
      · cases ha
      · simp only [topped, withEmitter, Emitter.labelHere, Emitter.newLabel, Array.size_push]
        exact hgt
  pending_lt _ hid := by cases hid
  kept _ _ h := h
  trampolines _ _ h := .inl h

/-- A branch over what follows. -/
theorem ofBranched (st : CodeState) (hm : m.isBranch = true) :
    Spans cs (insert st.emitter.labels.size ∅) st (st.branched m) [⟨m, .relative st.emitter.labels.size⟩] :=
  ((refl st).newLabel "else_label").snoc (.ofBranch hm (le_rfl) (.inl (Set.mem_insert _ _)))

/-- A jump over what follows, and the label of an earlier branch after it. -/
theorem parted {n : LabelId} (h : Spans cs (insert n ∅) st st1 ks) (hn : st.emitter.labels.size ≤ n) :
    Spans cs (insert st1.emitter.labels.size ∅) st (st1.parted n)
      (ks ++ [⟨.jmp, .wide st1.emitter.labels.size⟩]) := by
  have hjump := (h.newLabel "end_label").snoc (.ofJump h.adds.size (.inl (Set.mem_insert _ _)))
  rw [Set.insert_comm] at hjump
  exact hjump.resolve hn

/-- A trampoline that may be new. -/
theorem ofTrampoline (st : CodeState) (vector : String) : Spans cs ∅ st (st.trampoline vector).2 [] := by
  obtain ⟨hgrows, -⟩ := trampoline_grows st vector
  cases hget : st.trampolines.get? vector with
  | some id =>
    have hst : (st.trampoline vector).2 = st := by simp only [trampoline, hget]
    rw [hst]
    exact refl st
  | none =>
    have hst : (st.trampoline vector).2 = { (st.newLabel (vector ++ "_trampoline")).2 with
        trampolines := st.trampolines.set vector st.emitter.labels.size } := by
      simp only [trampoline, hget]
      rfl
    have hnone : ∀ id, ((st.newLabel (vector ++ "_trampoline")).2.emitter.labels.entry id).addr
        = (st.emitter.labels.entry id).addr := fun _ => Labels.addr_push_of_none rfl
    rw [hst] at hgrows ⊢
    constructor
    case adds => exact hgrows.emitter
    case items => simp [CodeState.newLabel, withEmitter, Emitter.newLabel]
    case leads =>
      intro k hk
      cases hk
    case landed =>
      intro id a hid ha
      rw [hnone, Labels.entry_of_size_le hid] at ha
      cases ha
    case pending_lt =>
      intro id hid
      cases hid
    case kept => exact hgrows.trampolines
    case trampolines =>
      intro v id hv
      obtain hv | hv := Assoc.mem_setIn hv
      · exact .inl hv
      · cases hv
        refine .inr ⟨le_rfl, ?_, ?_, fun hid => by cases hid⟩
        · simp [CodeState.newLabel, withEmitter, Emitter.newLabel]
        · rw [hnone, Labels.entry_of_size_le (le_rfl)]

/-- The tables that pointers lead into do not matter. -/
theorem withPointers {ps ps' : Assoc String String} (h : Spans cs pending { st with pointers := ps } st1 ks) :
    Spans cs pending st { st1 with pointers := ps' } ks :=
  ⟨h.adds, h.items, fun k hk => ⟨(h.leads k hk).branch, (h.leads k hk).jump, (h.leads k hk).call,
    (h.leads k hk).stays⟩, h.landed, h.pending_lt, h.kept, h.trampolines⟩

end CodeState.Spans

end

end CheckedAsm
