import CheckedAsm.Proofs.Codegen.Inversion
import CheckedAsm.Proofs.Values.Following
/-! # The same code in another place

The code of a block does not depend on where it stands: from two states that agree on all names it uses, the same
instructions are added, and the new labels stand at the same distance from each other. An address matters only for
the width of an operand, so the locations that single operations address directly have to be labelled alike in both
states. -/

namespace CheckedAsm

open Codegen Emitter Labels List

variable {S : Shift} {e e' : Emitter} {id : LabelId} {st st' : CodeState} {cs : CodeSetting} {i : Instr} {dest src : Ref}

/-! ### Labels that moved -/

/-- The label at a distance from where it was. -/
def Label.moved (d : Int) (l : Label) : Label := { l with addr := l.addr.map (· + d) }

/-- How two pieces of code differ that are otherwise the same: they come after different items, at a distance, and so
do their labels, from the first one of their own on. The labels in `storage` are none of theirs and the same for
both. -/
structure Shift where
  before : List Item
  before' : List Item
  distance : Int
  first : Nat
  storage : Set LabelId

/-- The two emitters have the same code, each in its own place. -/
structure Shift.Relates (S : Shift) (e e' : Emitter) : Prop where
  items : ∃ ks : List Code, e.items.toList = S.before ++ ks.map Code.item
    ∧ e'.items.toList = S.before' ++ ks.map Code.item
  addr : e'.addr = e.addr + S.distance
  size : e'.labels.size = e.labels.size
  first_le : S.first ≤ e.labels.size
  counter : e'.counter = e.counter
  inner : ∀ id, S.first ≤ id → e'.labels.entry id = (e.labels.entry id).moved S.distance
  storage : ∀ id ∈ S.storage, id < S.first ∧ e'.labels.entry id = e.labels.entry id

/-- The two states have the same code, each in its own place, and agree on trampolines and pointers. -/
structure Shift.Links (S : Shift) (st st' : CodeState) : Prop where
  emitter : S.Relates st.emitter st'.emitter
  trampolines : st'.trampolines = st.trampolines
  pointers : st'.pointers = st.pointers

theorem Emitter.codes_counter (e : Emitter) (ks : List Code) : (e.codes ks).counter = e.counter := by
  induction ks generalizing e with
  | nil => rfl
  | cons k ks ih => exact ih (e.code k.mnemonic k.operand)

namespace Shift.Relates

section

variable (h : S.Relates e e')
include h

theorem codes (ks : List Code) : S.Relates (e.codes ks) (e'.codes ks) where
  items := by
    obtain ⟨xs, hi, hi'⟩ := h.items
    refine ⟨xs ++ ks, ?_, ?_⟩
    · rw [codes_items, hi, map_append, append_assoc]
    · rw [codes_items, hi', map_append, append_assoc]
  addr := by
    rw [codes_addr, codes_addr, h.addr]
    omega
  size := by simpa using h.size
  first_le := by simpa using h.first_le
  counter := by rw [codes_counter, codes_counter, h.counter]
  inner := by simpa using h.inner
  storage := by simpa using h.storage

/-- Both get a label more. -/
theorem push {l l' : Label} {n : Nat} (hl : l' = l.moved S.distance) :
    S.Relates { e with labels := e.labels.push l, counter := n } { e' with labels := e'.labels.push l', counter := n } where
  items := h.items
  addr := h.addr
  size := by simp [h.size]
  first_le := by
    have := h.first_le
    simp only [Array.size_push]
    omega
  counter := rfl
  inner id hid := by
    obtain hlt | heq | hgt := Nat.lt_trichotomy id e.labels.size
    · rw [entry_push_lt hlt, entry_push_lt (h.size ▸ hlt), h.inner id hid]
    · rw [heq, entry_push_self, ← h.size, entry_push_self, hl]
    · rw [entry_of_size_le (by rw [Array.size_push, h.size]; exact hgt),
        entry_of_size_le (by rw [Array.size_push]; exact hgt)]
      rfl
  storage id hid := by
    obtain ⟨hlt, heq⟩ := h.storage id hid
    have hsize : id < e.labels.size := hlt.trans_le h.first_le
    exact ⟨hlt, by rw [entry_push_lt hsize, entry_push_lt (h.size ▸ hsize), heq]⟩

theorem newLabel (name : String) :
    S.Relates (e.newLabel ⟨name, none, none⟩).2 (e'.newLabel ⟨name, none, none⟩).2 := by
  have hpush := h.push (l := ⟨name, none, none⟩) (n := e.counter) rfl
  rw [← h.counter] at hpush
  nth_rewrite 1 [h.counter] at hpush
  exact hpush

theorem labelHere : S.Relates (e.labelHere none).2 (e'.labelHere none).2 := by
  have hl : (⟨"label" ++ toString e.counter, some e'.addr, none⟩ : Label)
      = Label.moved S.distance ⟨"label" ++ toString e.counter, some e.addr, none⟩ := by
    rw [h.addr]
    rfl
  have hpush := h.push (n := e.counter + 1) hl
  simp only [Emitter.labelHere, Emitter.newLabel, h.counter]
  exact hpush

theorem resolve (hid : S.first ≤ id) : S.Relates (e.resolve id) (e'.resolve id) where
  items := h.items
  addr := h.addr
  size := by rw [size_resolve, size_resolve, h.size]
  first_le := by rw [size_resolve]; exact h.first_le
  counter := h.counter
  inner id' hid' := by
    simp only [Emitter.resolve, Emitter.changeLabel, entry_modify, h.size, h.inner id' hid', h.addr]
    split <;> rfl
  storage id' hid' := by
    obtain ⟨hlt, heq⟩ := h.storage id' hid'
    have hne : id ≠ id' := Nat.ne_of_gt (hlt.trans_le hid)
    exact ⟨hlt, by rw [entry_resolve_of_ne hne, entry_resolve_of_ne hne, heq]⟩

end

end Shift.Relates

namespace Shift.Links

section

variable (h : S.Links st st')
include h

theorem withEmitter (he : S.Relates e e') : S.Links (st.withEmitter e) (st'.withEmitter e') := ⟨he, h.trampolines, h.pointers⟩

theorem codes (ks : List Code) : S.Links (st.codes ks) (st'.codes ks) :=
  h.withEmitter (h.emitter.codes ks)

theorem resolve (hid : S.first ≤ id) : S.Links (st.resolve id) (st'.resolve id) :=
  h.withEmitter (h.emitter.resolve hid)

theorem newLabel (name : String) : S.Links (st.newLabel name).2 (st'.newLabel name).2 :=
  h.withEmitter (h.emitter.newLabel name)

theorem branched (m : Mnemonic) : S.Links (st.branched m) (st'.branched m) := by
  unfold CodeState.branched
  rw [h.emitter.size]
  exact (h.newLabel _).codes _

theorem parted (hid : S.first ≤ id) : S.Links (st.parted id) (st'.parted id) := by
  unfold CodeState.parted
  rw [h.emitter.size]
  exact ((h.newLabel _).codes _).resolve hid

theorem topped : S.Links st.topped st'.topped := h.withEmitter h.emitter.labelHere

theorem trampoline (vector : String) :
    (st'.trampoline vector).1 = (st.trampoline vector).1
      ∧ S.Links (st.trampoline vector).2 (st'.trampoline vector).2 := by
  unfold CodeState.trampoline
  rw [h.trampolines]
  cases st.trampolines.get? vector with
  | some id => exact ⟨rfl, h⟩
  | none =>
    have hnew := h.newLabel (vector ++ "_trampoline")
    have hset : st'.trampolines.set vector st'.emitter.labels.size
        = st.trampolines.set vector st.emitter.labels.size := by
      rw [h.emitter.size, h.trampolines]
    exact ⟨h.emitter.size, hnew.emitter, hset, hnew.pointers⟩

end

end Shift.Links

/-! ### Single operations -/

/-- Whether the reference is one of the three registers. -/
def Ref.isRegister (r : Ref) : Bool := r = .a ∨ r = .x ∨ r = .y

/-- The reference that an operation addresses as closely as its address allows. -/
def Op.direct? : Op → Option Ref
  | .ld dest src => if dest.isRegister then some src else none
  | .st src dest => if src.isRegister then some dest else none
  | .and _ src | .or _ src | .xor _ src => some src
  | .shl dest | .shr dest => some dest
  | _ => none

namespace Codegen

section

variable {ls ls' : Labels} {m : Mnemonic} {r : Ref} {ks : List Code} {o : Operand}

theorem direct_kept (hls : ∀ id, cs.labelOf r = .ok id → ls'.entry id = ls.entry id) :
    direct cs ls' r = direct cs ls r := by
  unfold direct
  cases hid : cs.labelOf r with
  | error f => rfl
  | ok id => simp only [bind, Except.bind, Operand.direct, hls id hid]

section

variable (hls : ∀ id, cs.labelOf src = .ok id → ls'.entry id = ls.entry id)
include hls

theorem accSource_kept :
    accSource cs ls' src = accSource cs ls src := by
  cases src <;> simp only [accSource, direct_kept hls]

theorem indexSource_kept {other : Ref} {mode : Target → Operand} :
    indexSource cs ls' other mode src = indexSource cs ls other mode src := by
  cases src <;> simp only [indexSource, direct_kept hls]

omit hls in
theorem storeTarget_kept (hls : ∀ id, cs.labelOf dest = .ok id → ls'.entry id = ls.entry id) :
    storeTarget cs ls' dest = storeTarget cs ls dest := by
  cases dest <;> simp only [storeTarget, direct_kept hls]

theorem bitwise_kept :
    bitwise cs ls' i m dest src = bitwise cs ls i m dest src := by
  have hdirect : accOperand cs (.direct ls') src = accOperand cs (.direct ls) src := by
    unfold accOperand
    split
    · rfl
    · rfl
    · cases hid : cs.labelOf src with
      | error f => rfl
      | ok id => simp only [bind, Except.bind, Operand.direct, hls id hid]
  simp only [bitwise, hdirect]

end

theorem shift_kept (hls : ∀ id, cs.labelOf dest = .ok id → ls'.entry id = ls.entry id) :
    shift cs ls' m dest = shift cs ls m dest := by
  cases dest <;> simp only [shift, direct_kept hls]

theorem load_kept (hls : dest.isRegister = true → ∀ id, cs.labelOf src = .ok id → ls'.entry id = ls.entry id) :
    load cs ls' i dest src = load cs ls i dest src := by
  by_cases hd : dest.isRegister = true
  · simp only [load, accSource_kept (hls hd), indexSource_kept (hls hd)]
  · simp only [Ref.isRegister, decide_eq_true_eq, not_or] at hd
    obtain ⟨ha, hx, hy⟩ := hd
    simp only [load, if_neg ha, if_neg hx, if_neg hy]

theorem store_kept (hls : src.isRegister = true → ∀ id, cs.labelOf dest = .ok id → ls'.entry id = ls.entry id)
    (h : store cs ls i src dest = .ok ks) : store cs ls' i src dest = .ok ks := by
  by_cases hs : src.isRegister = true
  · rw [← h]
    simp only [store, storeTarget_kept (hls hs)]
  · -- what is no register can be stored only into the carry
    have hnone : storeMnemonic? src = none := by
      simp only [Ref.isRegister, decide_eq_true_eq, not_or] at hs
      obtain ⟨ha, hx, hy⟩ := hs
      simp only [storeMnemonic?, if_neg ha, if_neg hx, if_neg hy]
    unfold store at h ⊢
    split at h
    case isTrue hc => rw [if_pos hc]; exact h
    case isFalse hc =>
      rw [if_neg hc]
      split at h
      case isTrue hc' => rw [if_pos hc']; exact h
      case isFalse => simp [hnone, bind_eq_ok] at h

end

section

theorem map_codes_tracks {x y : Except Fault (List Code)} (h : S.Relates e e') (hxy : ∀ ks, x = .ok ks → y = .ok ks) :
    Tracks S.Relates (x.map e.codes) (y.map e'.codes) := by
  intro a ha
  obtain ⟨ks, hks, rfl⟩ := map_eq_ok.1 ha
  exact ⟨e'.codes ks, map_eq_ok.2 ⟨ks, hxy ks hks, rfl⟩, h.codes ks⟩

theorem compare_tracks (h : S.Relates e e') : Tracks S.Relates (compare cs i e src dest) (compare cs i e' src dest) := by
  refine .after fun isWord _ => ?_
  split
  · refine .after fun ⟨low, high⟩ _ => .after fun id _ => .pure ?_
    have hcodes := h.codes [⟨.lda, .wide id⟩, ⟨.cmp, low⟩]
    have hsize : (e'.codes [⟨.lda, .wide id⟩, ⟨.cmp, low⟩]).labels.size = (e.codes [⟨.lda, .wide id⟩, ⟨.cmp, low⟩]).labels.size :=
      hcodes.size
    simp only [hsize]
    exact ((hcodes.newLabel "end_label").codes _).resolve hcodes.first_le
  · split
    · exact fun a ha => by cases ha
    · exact .after fun o _ => .pure (h.codes _)

theorem single_tracks {op : Op} (h : S.Relates e e')
    (hop : ∀ r id, op.direct? = some r → cs.labelOf r = .ok id → id ∈ S.storage) :
    Tracks S.Relates (single cs i e op) (single cs i e' op) := by
  have hkept : ∀ r, op.direct? = some r → ∀ id, cs.labelOf r = .ok id → e'.labels.entry id = e.labels.entry id :=
    fun r hr id hid => (h.storage id (hop r id hr hid)).2
  cases op with
  | ld dest src =>
    refine map_codes_tracks h fun ks hks => ?_
    rw [← hks, load_kept fun hd => hkept src (by simp [Op.direct?, hd])]
  | st src dest =>
    exact map_codes_tracks h fun ks hks => store_kept (fun hs => hkept dest (by simp [Op.direct?, hs])) hks
  | and dest src | or dest src | xor dest src =>
    refine map_codes_tracks h fun ks hks => ?_
    rw [← hks, bitwise_kept (hkept src rfl)]
  | shl dest | shr dest =>
    refine map_codes_tracks h fun ks hks => ?_
    rw [← hks, shift_kept (hkept dest rfl)]
  | cmp dest src => exact compare_tracks h
  | add dest src | sub dest src | inc dest | dec dest | copy src dest => exact map_codes_tracks h fun ks hks => hks
  | trash r => exact .pure h
  | nop => exact .pure (h.codes _)

end

end Codegen

/-! ### Blocks -/

/-- The block addresses directly only locations whose labels are among the given ones. -/
def Block.Addresses (b : Block) (cs : CodeSetting) (storage : Set LabelId) : Prop :=
  ∀ op ∈ b.ops, ∀ r id, op.direct? = some r → cs.labelOf r = .ok id → id ∈ storage

section

theorem Shift.Links.countEnd {top : LabelId} {dir : Direction} {final : Const} (h : S.Links st st') :
    Tracks S.Links (Codegen.countEnd cs i st top dest dir final) (Codegen.countEnd cs i st' top dest dir final) :=
  .after fun step _ => .after fun _ _ =>
    (compare_tracks (h.emitter.codes step)).bind fun _ _ _ he => .pure (h.withEmitter (he.codes _))

mutual

theorem Instr.compile_tracks : ∀ (i : Instr) {st st' : CodeState}, S.Links st st' →
    (∀ op ∈ i.ops, ∀ r id, op.direct? = some r → cs.labelOf r = .ok id → id ∈ S.storage) →
    Tracks S.Links (i.compile cs st) (i.compile cs st')
  | .op l op, st, st', h, hops => by
    rw [Instr.compile, Instr.compile]
    intro a ha
    obtain ⟨e, he, rfl⟩ := map_eq_ok.1 ha
    obtain ⟨e', he', hrel⟩ := single_tracks h.emitter (hops op.settled (by simp [Instr.ops])) e he
    exact ⟨_, map_eq_ok.2 ⟨e', he', rfl⟩, h.withEmitter hrel⟩
  | .call l target, st, st', h, _ => by
    refine .after fun id _ => .after fun t _ => ?_
    cases t with
    | routine sig => exact .pure (h.codes _)
    | vector of =>
      obtain ⟨hid, hlinks⟩ := h.trampoline target
      simp only [hid]
      exact .pure (hlinks.codes _)
    | _ => exact fun a ha => by cases ha
  | .goto l target, st, st', h, _ => by
    refine .after fun id _ => .after fun t _ => ?_
    cases t with
    | routine sig | vector of => exact .pure (h.codes _)
    | _ => exact fun a ha => by cases ha
  | .reset l p offset, st, st', h, _ => by
    rw [Instr.compile, Instr.compile, reset, reset, h.pointers]
    cases st.pointers.get? p.name with
    | none => exact fun a ha => by cases ha
    | some table => exact .after fun t _ => .after fun q _ => .pure (h.codes _)
  | .ifThen l src inverted yes, st, st', h, hops => by
    rw [Instr.compile, Instr.compile]
    refine .after fun m _ => (yes.compile_tracks (h.branched m) hops).bind fun a b _ hab => .pure ?_
    rw [h.emitter.size]
    exact hab.resolve h.emitter.first_le
  | .ifElse l src inverted yes no, st, st', h, hops => by
    have hfirst := h.emitter.first_le
    have hyes : ∀ op ∈ yes.ops, _ := fun op hop => hops op (mem_append_left _ hop)
    have hno : ∀ op ∈ no.ops, _ := fun op hop => hops op (mem_append_right _ hop)
    rw [Instr.compile, Instr.compile]
    refine .after fun m _ => (yes.compile_tracks (h.branched m) hyes).bind fun a b _ hab => ?_
    simp only [CodeState.newLabel, Emitter.newLabel, h.emitter.size]
    split
    · exact no.compile_tracks (hab.resolve hfirst) hno
    · refine (no.compile_tracks (hab.parted hfirst) hno).bind fun a' b' _ hab' => .pure ?_
      rw [hab.emitter.size]
      exact hab'.resolve hab.emitter.first_le
  | .loop l src inverted body, st, st', h, hops => by
    rw [Instr.compile, Instr.compile]
    refine (body.compile_tracks h.topped hops).bind fun a b _ hab => ?_
    cases src with
    | none => exact .pure (h.emitter.size ▸ hab.codes _)
    | some src => exact .after fun m _ => .pure (h.emitter.size ▸ hab.codes _)
  | .count l dest dir final body, st, st', h, hops => by
    rw [Instr.compile, Instr.compile]
    refine (body.compile_tracks h.topped hops).bind fun a b _ hab => ?_
    simp only [h.emitter.size]
    exact hab.countEnd
  | .interruptsOff l body, st, st', h, hops => by
    rw [Instr.compile, Instr.compile]
    exact (body.compile_tracks (h.codes _) hops).bind fun a b _ hab => .pure (hab.codes _)
  | .save l rs body, st, st', h, hops => by
    rw [Instr.compile, Instr.compile]
    exact .after fun before _ => (body.compile_tracks (h.codes before) hops).bind fun a b _ hab =>
      .after fun ks _ => .pure (hab.codes ks)
  | .pointInto l p t body, st, st', h, hops => by
    rw [Instr.compile, Instr.compile]
    have hset : S.Links { st with pointers := st.pointers.set p.name t.name }
        { st' with pointers := st'.pointers.set p.name t.name } := ⟨h.emitter, h.trampolines, by rw [h.pointers]⟩
    refine (body.compile_tracks hset hops).bind fun a b _ hab => ?_
    simp only [leavePoint, hab.pointers]
    split
    · exact .pure ⟨hab.emitter, hab.trampolines, rfl⟩
    · exact fun a ha => by cases ha

/-- The same code is added in another place. -/
theorem Block.compile_tracks : ∀ (b : Block) {st st' : CodeState}, S.Links st st' → b.Addresses cs S.storage →
    Tracks S.Links (b.compile cs st) (b.compile cs st')
  | .nil _, _, _, h, _ => .pure h
  | .cons head tail, st, st', h, hops => by
    rw [Block.compile, Block.compile]
    exact (head.compile_tracks h fun op hop => hops op (mem_append_left _ hop)).bind fun a b _ hab =>
      tail.compile_tracks hab fun op hop => hops op (mem_append_right _ hop)

end

end

end CheckedAsm
