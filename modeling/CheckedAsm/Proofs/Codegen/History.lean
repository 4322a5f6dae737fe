import CheckedAsm.Proofs.Codegen.Layout
/-! # How an emitter comes about

A layout is made by a few kinds of actions on an emitter. A history is the list of actions that were taken; it shows at
which moment a label got its address. While a block is compiled only new labels get addresses, and all of them do, except
for those of trampolines, which come after the routines. -/

namespace CheckedAsm

open Codegen List

variable {e : Emitter} {id : LabelId} {i : Item} {st st' : CodeState} {cs : CodeSetting}

/-- What is done to an emitter: an item is added, a label is added without an address or with the current one, a label
gets the current address or a length, room is left, a call that comes last becomes a jump, the last item is taken
back. -/
inductive Emitter.Action where
  | add (i : Item)
  | name (l : Label)
  | top
  | resolve (id : LabelId)
  | measure (id : LabelId) (n : Int)
  | leave (n : Int)
  | redirect
  | retract

namespace Emitter

/-- The emitter after an action. -/
def act (e : Emitter) : Action → Emitter
  | .add i => (e.append i).move i.width
  | .name l => (e.newLabel l).2
  | .top => (e.labelHere none).2
  | .resolve id => e.resolve id
  | .measure id n => e.changeLabel id fun l => { l with length := some n }
  | .leave n => e.move n
  | .redirect => (tailCall e).toOption.getD e
  | .retract => e.retract.toOption.getD e

/-- The emitter after some actions. -/
def acts (e : Emitter) (as : List Action) : Emitter := as.foldl act e

/-- The action gives the label the current address. -/
def Action.Gives (e : Emitter) (id : LabelId) : Action → Prop
  | .resolve id' => id' = id ∧ id < e.labels.size
  | .top => id = e.labels.size
  | _ => False

/-- In the course of some actions the label gets the address that is current after the first of them, and no later one
gives it another. -/
def Gets (e : Emitter) (as : List Action) (id : LabelId) (before : List Action) : Prop :=
  ∃ a after, as = before ++ a :: after ∧ a.Gives (e.acts before) id ∧ .resolve id ∉ after

section

variable {e' : Emitter} {a : Action} {as as' before : List Action}

theorem acts_cons (e : Emitter) (a : Action) (as : List Action) : e.acts (a :: as) = (e.act a).acts as := rfl

theorem acts_append (e : Emitter) (as as' : List Action) : e.acts (as ++ as') = (e.acts as).acts as' := foldl_append

/-! ### Actions on the last item -/

theorem retract_ok (h : e.retract = .ok e') :
    ∃ is i, e.items.toList = is ++ [i] ∧ e'.items.toList = is ∧ e'.addr = e.addr - i.width ∧ e'.labels = e.labels
      ∧ e'.start = e.start := by
  unfold retract pop? tail? at h
  cases ht : e.items.back? with
  | none => simp [ht] at h
  | some i =>
    simp only [ht, Option.map_some, map_eq_ok] at h
    obtain ⟨n, hn, rfl⟩ := h
    obtain ⟨ys, hys⟩ := Array.back?_eq_some_iff.1 ht
    refine ⟨ys.toList, i, by simp [hys], by simp [move, hys], ?_, rfl, rfl⟩
    simp only [move, Item.width, hn]
    omega

theorem tailCall_ok (h : tailCall e = .ok e') :
    (e' = e ∧ ∀ id, e.tail? ≠ some (.code .jsr (.wide id)))
      ∨ ∃ is id, e.items.toList = is ++ [.code .jsr (.wide id)] ∧ e'.items.toList = is ++ [.code .jmp (.wide id)]
      ∧ e'.addr = e.addr ∧ e'.labels = e.labels ∧ e'.start = e.start := by
  unfold tailCall at h
  split at h
  case h_1 id htail =>
    simp only [bind_eq_ok, pure_eq_ok] at h
    obtain ⟨e1, hr, rfl⟩ := h
    obtain ⟨is, i, hitems, hitems1, haddr, hlabels, hstart⟩ := retract_ok hr
    have hi : i = .code .jsr (.wide id) := by
      unfold tail? at htail
      rw [← Array.getLast?_toList, hitems, getLast?_concat] at htail
      exact Option.some.inj htail
    subst hi
    refine .inr ⟨is, id, hitems, ?_, ?_, ?_, hstart⟩
    · rw [codes_items, hitems1]
      rfl
    · rw [codes_addr, haddr]
      exact Int.sub_add_cancel e.addr 3
    · rw [codes_labels, hlabels]
  case h_2 hnot => exact .inl ⟨(Except.ok.inj h).symm, hnot⟩

theorem act_redirect (h : tailCall e = .ok e') : e.act .redirect = e' := by
  simp [act, h, Except.toOption]

theorem act_retract (h : e.retract = .ok e') : e.act .retract = e' := by
  simp [act, h, Except.toOption]

theorem act_redirect_cases (e : Emitter) : e.act .redirect = e ∨ tailCall e = .ok (e.act .redirect) := by
  cases h : tailCall e with
  | error f => exact .inl (by simp [act, h, Except.toOption])
  | ok e' => exact .inr (by rw [act_redirect h])

theorem act_retract_cases (e : Emitter) : e.act .retract = e ∨ e.retract = .ok (e.act .retract) := by
  cases h : e.retract with
  | error f => exact .inl (by simp [act, h, Except.toOption])
  | ok e' => exact .inr (by rw [act_retract h])

/-! ### What actions keep -/

/-- No item is taken back or changed without its label table being left alone. -/
theorem act_labels_of_last (ha : a = .redirect ∨ a = .retract) : (e.act a).labels = e.labels := by
  obtain rfl | rfl := ha
  · obtain h | h := act_redirect_cases e
    · rw [h]
    · exact tailCall_labels h
  · obtain h | h := act_retract_cases e
    · rw [h]
    · exact retract_labels h

theorem size_act (e : Emitter) (a : Action) : e.labels.size ≤ (e.act a).labels.size := by
  cases a with
  | add i => exact le_rfl
  | name l => simp [act, newLabel]
  | top => simp [act, labelHere, newLabel]
  | resolve id => exact size_resolve.ge
  | measure id n => simp [act, changeLabel]
  | leave n => exact le_rfl
  | redirect => rw [act_labels_of_last (.inl rfl)]
  | retract => rw [act_labels_of_last (.inr rfl)]

theorem addr_act (hid : id < e.labels.size) (ha : a ≠ .resolve id) :
    ((e.act a).labels.entry id).addr = (e.labels.entry id).addr := by
  cases a with
  | add i => rfl
  | name l => exact congrArg Label.addr (Labels.entry_push_lt hid)
  | top => exact congrArg Label.addr (Labels.entry_push_lt hid)
  | resolve id' => exact congrArg Label.addr (entry_resolve_of_ne fun h => ha (h ▸ rfl))
  | measure id' n =>
    simp only [act, changeLabel, Labels.entry_modify]
    split <;> rfl
  | leave n => rfl
  | redirect => rw [act_labels_of_last (.inl rfl)]
  | retract => rw [act_labels_of_last (.inr rfl)]

theorem start_act (e : Emitter) (a : Action) : (e.act a).start = e.start := by
  cases a with
  | redirect =>
    obtain h | h := act_redirect_cases e
    · rw [h]
    · obtain ⟨h, -⟩ | ⟨is, id, -, -, -, -, h⟩ := tailCall_ok h
      · rw [h]
      · exact h
  | retract =>
    obtain h | h := act_retract_cases e
    · rw [h]
    · obtain ⟨is, i, -, -, -, -, h⟩ := retract_ok h
      exact h
  | _ => rfl

theorem size_acts (e : Emitter) (as : List Action) : e.labels.size ≤ (e.acts as).labels.size := by
  induction as generalizing e with
  | nil => exact le_rfl
  | cons a as ih => exact (size_act e a).trans (ih (e.act a))

theorem addr_acts (hid : id < e.labels.size) (has : .resolve id ∉ as) :
    ((e.acts as).labels.entry id).addr = (e.labels.entry id).addr := by
  induction as generalizing e with
  | nil => rfl
  | cons a as ih =>
    rw [mem_cons, not_or] at has
    obtain ⟨ha, has⟩ := has
    rw [acts_cons, ih (hid.trans_le (size_act e a)) has, addr_act hid (Ne.symm ha)]

theorem start_acts (e : Emitter) (as : List Action) : (e.acts as).start = e.start := by
  induction as generalizing e with
  | nil => rfl
  | cons a as ih => rw [acts_cons, ih, start_act]

/-! ### The moment when a label gets its address -/

theorem Action.Gives.addr (h : a.Gives e id) :
    id < (e.act a).labels.size ∧ ((e.act a).labels.entry id).addr = some e.addr := by
  cases a with
  | resolve id' =>
    obtain ⟨rfl, hid⟩ := h
    exact ⟨hid.trans_le size_resolve.ge, entry_resolve hid⟩
  | top =>
    cases h
    simp only [act, labelHere, newLabel, Array.size_push]
    exact ⟨Nat.lt_succ_self _, congrArg Label.addr Labels.entry_push_self⟩
  | _ => cases h

theorem Gets.addr (h : e.Gets as id before) :
    ((e.acts as).labels.entry id).addr = some (e.acts before).addr := by
  obtain ⟨a, after, rfl, ha, hafter⟩ := h
  obtain ⟨hlt, haddr⟩ := ha.addr
  rw [acts_append, acts_cons, addr_acts hlt hafter, haddr]

theorem Gets.append (h : e.Gets as id before) (has' : .resolve id ∉ as') : e.Gets (as ++ as') id before := by
  obtain ⟨a, after, rfl, ha, hafter⟩ := h
  exact ⟨a, after ++ as', by simp, ha, by simp [hafter, has']⟩

theorem Gets.prepend (h : (e.acts as).Gets as' id before) : e.Gets (as ++ as') id (as ++ before) := by
  obtain ⟨a, after, rfl, ha, hafter⟩ := h
  refine ⟨a, after, by simp, ?_, hafter⟩
  rwa [acts_append]

/-- The last action that gives the label an address is the one that counts. -/
theorem Gets.of_mem (h : .resolve id ∈ as) (hid : id < e.labels.size) : ∃ before, e.Gets as id before := by
  induction as generalizing e with
  | nil => cases h
  | cons a as ih =>
    by_cases hmem : .resolve id ∈ as
    · obtain ⟨before, hgets⟩ := ih hmem (hid.trans_le (size_act e a))
      have hstep : (e.acts [a]).Gets as id before := hgets
      exact ⟨a :: before, hstep.prepend⟩
    · obtain rfl := (mem_cons.1 h).resolve_right hmem
      exact ⟨[], .resolve id, as, rfl, ⟨rfl, hid⟩, hmem⟩

theorem Gets.last (hid : id < (e.acts as).labels.size) : e.Gets (as ++ [.resolve id]) id as :=
  ⟨.resolve id, [], rfl, ⟨rfl, hid⟩, by simp⟩

/-- A label that got an address has one. -/
theorem isSome_acts (h : (e.labels.entry id).addr.isSome = true ∨ .resolve id ∈ as) (hid : id < e.labels.size) :
    ((e.acts as).labels.entry id).addr.isSome = true := by
  induction as generalizing e with
  | nil => exact h.resolve_right not_mem_nil
  | cons a as ih =>
    refine ih ?_ (hid.trans_le (size_act e a))
    by_cases ha : a = .resolve id
    · subst ha
      exact .inl (by rw [act, entry_resolve hid]; rfl)
    · rw [addr_act hid ha]
      exact h.imp_right fun hmem => (mem_cons.1 hmem).resolve_left (Ne.symm ha)

/-! ### Addresses and room -/

/-- The emitter is as far from its start as its items take room, and they become as many bytes. -/
structure Tight (e : Emitter) : Prop where
  addr : e.addr = e.start + Item.rooms e.items.toList
  exact : ∀ i ∈ e.items.toList, i.Exact

theorem Tight.add (h : e.Tight) (hi : i.Exact) : (e.act (.add i)).Tight where
  addr := by
    have hitems : ((e.append i).move i.width).items.toList = e.items.toList ++ [i] := by simp [append, move]
    rw [act, hitems, Item.rooms_append]
    simp only [append, move, h.addr, Item.rooms, foldr_cons, foldr_nil]
    omega
  exact j hj := by
    simp only [act, append, move, Array.toList_push, mem_append, mem_singleton] at hj
    obtain hj | rfl := hj
    · exact h.exact j hj
    · exact hi

theorem rooms_concat {is : List Item} : Item.rooms (is ++ [i]) = Item.rooms is + i.width := by
  rw [Item.rooms_append]
  simp [Item.rooms]

theorem Tight.redirect (h : e.Tight) : (e.act .redirect).Tight := by
  obtain hact | hact := act_redirect_cases e
  · rwa [hact]
  · obtain ⟨hact, -⟩ | ⟨is, id, hitems, hitems', haddr, -, hstart⟩ := tailCall_ok hact
    · rwa [hact]
    · have hexact := h.exact
      rw [hitems] at hexact
      refine ⟨?_, fun i hi => ?_⟩
      · rw [haddr, hstart, h.addr, hitems, hitems', rooms_concat, rooms_concat]
        rfl
      · rw [hitems', mem_append, mem_singleton] at hi
        obtain hi | rfl := hi
        · exact hexact i (mem_append_left _ hi)
        · exact Code.item_exact ⟨.jmp, .wide id⟩

theorem Tight.retract (h : e.Tight) : (e.act .retract).Tight := by
  obtain hact | hact := act_retract_cases e
  · rwa [hact]
  · obtain ⟨is, i, hitems, hitems', haddr, -, hstart⟩ := retract_ok hact
    have hexact := h.exact
    rw [hitems] at hexact
    refine ⟨?_, fun j hj => hexact j (mem_append_left _ (hitems' ▸ hj))⟩
    rw [haddr, hstart, h.addr, hitems, hitems', rooms_concat]
    omega

/-- Actions that leave no room and add only items that become as many bytes as they say. -/
def Action.Exact : Action → Prop
  | .add i => i.Exact
  | .leave _ => False
  | _ => True

theorem Tight.act (h : e.Tight) (ha : a.Exact) : (e.act a).Tight := by
  cases a with
  | add i => exact h.add ha
  | leave n => cases ha
  | redirect => exact h.redirect
  | retract => exact h.retract
  | name l => exact ⟨h.addr, h.exact⟩
  | top => exact ⟨h.addr, h.exact⟩
  | resolve id => exact ⟨h.addr, h.exact⟩
  | measure id n => exact ⟨h.addr, h.exact⟩

theorem Tight.acts (h : e.Tight) (has : ∀ a ∈ as, a.Exact) : (e.acts as).Tight := by
  induction as generalizing e with
  | nil => exact h
  | cons a as ih =>
    obtain ⟨ha, has⟩ := forall_mem_cons.1 has
    exact ih (h.act ha) has

/-- Unless items are taken back, those that are there keep their room. -/
theorem widths_acts (has : .retract ∉ as) :
    e.items.toList.map Item.width <+: (e.acts as).items.toList.map Item.width := by
  induction as generalizing e with
  | nil => exact prefix_rfl
  | cons a as ih =>
    rw [mem_cons, not_or] at has
    obtain ⟨ha, has⟩ := has
    refine List.IsPrefix.trans ?_ (ih has)
    cases a with
    | add i => simp [Emitter.act, append, move]
    | redirect =>
      obtain hact | hact := act_redirect_cases e
      · simp [hact]
      · obtain ⟨hact, -⟩ | ⟨is, id, hitems, hitems', -⟩ := tailCall_ok hact
        · simp [hact]
        · have hsame : (Item.code .jmp (.wide id)).width = (Item.code .jsr (.wide id)).width := rfl
          simp [hitems, hitems', hsame]
    | retract => exact (ha rfl).elim
    | _ => exact prefix_rfl

end

end Emitter

/-! ### Histories of code -/

/-- Actions by which the code of a block is added. Of the labels, only those from the given one on get an address. -/
def Emitter.Action.Inner (n : Nat) : Emitter.Action → Prop
  | .add i => ∃ k : Code, i = k.item
  | .name _ | .top => True
  | .resolve id => n ≤ id
  | _ => False

theorem Emitter.Action.Inner.mono {n n' : Nat} {a : Emitter.Action} (h : a.Inner n) (hn : n' ≤ n) : a.Inner n' := by
  cases a with
  | resolve id => exact hn.trans h
  | _ => exact h

/-- The actions lead from the first state to the second. They are those by which code is added, and those in `extra`. Every
label that is new gets its address on the way, except for the labels in `pending` and those of trampolines. -/
structure CodeState.Comes (extra : Set Emitter.Action) (pending : Set LabelId) (as : List Emitter.Action)
    (st st' : CodeState) : Prop where
  run : st.emitter.acts as = st'.emitter
  inner : ∀ a ∈ as, a.Inner st.emitter.labels.size ∨ a ∈ extra
  done : ∀ id, .resolve id ∈ extra → .resolve id ∈ as
  pending_lt : ∀ id ∈ pending, id < st'.emitter.labels.size
  stands : ∀ id, st.emitter.labels.size ≤ id → id < st'.emitter.labels.size →
    id ∈ pending ∨ (∃ before, st.emitter.Gets as id before) ∨ ∃ v, st'.trampolines.get? v = some id
  kept : ∀ v id, st.trampolines.get? v = some id → st'.trampolines.get? v = some id

namespace CodeState.Comes

section

variable {extra extra' : Set Emitter.Action} {pending : Set LabelId} {as as' : List Emitter.Action} {st1 st2 : CodeState}
  {k : Code} {ks : List Code}

theorem size (h : Comes extra pending as st st') : st.emitter.labels.size ≤ st'.emitter.labels.size :=
  h.run ▸ st.emitter.size_acts as

theorem refl (st : CodeState) : Comes ∅ ∅ [] st st where
  run := rfl
  inner _ ha := by cases ha
  done _ hid := by cases hid
  pending_lt _ hid := by cases hid
  stands _ hle hlt := (Nat.not_lt_of_le hle hlt).elim
  kept _ _ h := h

/-- One history after the other. -/
theorem join (h : Comes extra pending as st st1) (h' : Comes extra' ∅ as' st1 st2) :
    Comes (extra ∪ extra') pending (as ++ as') st st2 where
  run := by rw [Emitter.acts_append, h.run, h'.run]
  inner a ha := by
    obtain ha | ha := mem_append.1 ha
    · exact (h.inner a ha).imp_right .inl
    · exact (h'.inner a ha).imp (fun hinner => hinner.mono h.size) .inr
  done id hid := mem_append.2 (hid.imp (h.done id) (h'.done id))
  pending_lt id hid := (h.pending_lt id hid).trans_le h'.size
  stands id hle hid := by
    by_cases hlt : id < st1.emitter.labels.size
    · by_cases hmem : .resolve id ∈ as'
      · obtain ⟨before, hgets⟩ := Emitter.Gets.of_mem hmem (h.run ▸ hlt)
        exact .inr (.inl ⟨as ++ before, hgets.prepend⟩)
      · obtain hp | ⟨before, hgets⟩ | ⟨v, hv⟩ := h.stands id hle hlt
        · exact .inl hp
        · exact .inr (.inl ⟨before, hgets.append hmem⟩)
        · exact .inr (.inr ⟨v, h'.kept v id hv⟩)
    · obtain hp | ⟨before, hgets⟩ | ⟨v, hv⟩ := h'.stands id (Nat.le_of_not_lt hlt) hid
      · cases hp
      · exact .inr (.inl ⟨as ++ before, .prepend (h.run ▸ hgets)⟩)
      · exact .inr (.inr ⟨v, hv⟩)
  kept v id hv := h'.kept v id (h.kept v id hv)

theorem append (h : Comes extra pending as st st1) (h' : Comes ∅ ∅ as' st1 st2) :
    Comes extra pending (as ++ as') st st2 := by
  rw [← Set.union_empty extra]
  exact h.join h'

/-- One more instruction. -/
theorem ofCode (st : CodeState) (k : Code) : Comes ∅ ∅ [.add k.item] st (st.codes [k]) where
  run := rfl
  inner a ha := .inl (mem_singleton.1 ha ▸ ⟨k, rfl⟩)
  done _ hid := by cases hid
  pending_lt _ hid := by cases hid
  stands id hle hlt := (Nat.not_lt_of_le hle hlt).elim
  kept _ _ h := h

theorem ofCodes (st : CodeState) (ks : List Code) : Comes ∅ ∅ (ks.map fun k => .add k.item) st (st.codes ks) := by
  induction ks generalizing st with
  | nil => exact refl st
  | cons k ks ih => exact (ofCode st k).append (ih (st.codes [k]))

/-- A new label that is to get its address later. -/
theorem newLabel (h : Comes extra pending as st st1) (name : String) :
    Comes extra (insert st1.emitter.labels.size pending) (as ++ [.name ⟨name, none, none⟩]) st (st1.newLabel name).2 := by
  have hsize : (st1.newLabel name).2.emitter.labels.size = st1.emitter.labels.size + 1 := by
    simp [CodeState.newLabel, Emitter.newLabel, withEmitter]
  have hnot : ∀ id, Emitter.Action.resolve id ∉ [Emitter.Action.name ⟨name, none, none⟩] := by simp
  constructor
  case run =>
    rw [Emitter.acts_append, h.run]
    rfl
  case inner =>
    intro a ha
    obtain ha | ha := mem_append.1 ha
    · exact h.inner a ha
    · exact .inl (mem_singleton.1 ha ▸ trivial)
  case pending_lt =>
    rw [hsize]
    rintro id (rfl | hid)
    · exact Nat.lt_succ_self _
    · exact Nat.lt_succ_of_lt (h.pending_lt id hid)
  case done => exact fun id hid => mem_append_left _ (h.done id hid)
  case stands =>
    intro id hle hid
    rw [hsize] at hid
    obtain hid | rfl := Nat.lt_succ_iff_lt_or_eq.1 hid
    · obtain hp | ⟨before, hgets⟩ | hv := h.stands id hle hid
      · exact .inl (.inr hp)
      · exact .inr (.inl ⟨before, hgets.append (hnot id)⟩)
      · exact .inr (.inr hv)
    · exact .inl (Set.mem_insert _ _)
  case kept => exact h.kept

/-- A pending label gets its address. -/
theorem resolve (h : Comes extra (insert id pending) as st st1) (hid : st.emitter.labels.size ≤ id) :
    Comes extra pending (as ++ [.resolve id]) st (st1.resolve id) := by
  have hlt : id < (st.emitter.acts as).labels.size := h.run ▸ h.pending_lt id (Set.mem_insert _ _)
  have hsize : (st1.resolve id).emitter.labels.size = st1.emitter.labels.size := Emitter.size_resolve
  constructor
  case run =>
    rw [Emitter.acts_append, h.run]
    rfl
  case inner =>
    intro a ha
    obtain ha | ha := mem_append.1 ha
    · exact h.inner a ha
    · exact .inl (mem_singleton.1 ha ▸ hid)
  case pending_lt =>
    intro id' hid'
    rw [hsize]
    exact h.pending_lt id' (.inr hid')
  case done => exact fun id hid => mem_append_left _ (h.done id hid)
  case stands =>
    intro id' hle hid'
    rw [hsize] at hid'
    by_cases heq : id' = id
    · subst heq
      exact .inr (.inl ⟨as, .last hlt⟩)
    · obtain hp | ⟨before, hgets⟩ | hv := h.stands id' hle hid'
      · exact .inl (hp.resolve_left heq)
      · exact .inr (.inl ⟨before, hgets.append (by simpa using heq)⟩)
      · exact .inr (.inr hv)
  case kept => exact h.kept

/-- A label at the beginning of a loop. -/
theorem ofTopped (st : CodeState) : Comes ∅ ∅ [.top] st st.topped where
  run := rfl
  inner a ha := .inl (mem_singleton.1 ha ▸ trivial)
  done _ hid := by cases hid
  pending_lt _ hid := by cases hid
  stands id hle hlt := by
    simp only [topped, withEmitter, Emitter.labelHere, Emitter.newLabel, Array.size_push] at hlt
    exact .inr (.inl ⟨[], .top, [], rfl, Nat.le_antisymm (Nat.le_of_lt_succ hlt) hle, not_mem_nil⟩)
  kept _ _ h := h

/-- A trampoline that may be new. -/
theorem ofTrampoline (st : CodeState) (vector : String) : ∃ as, Comes ∅ ∅ as st (st.trampoline vector).2 := by
  obtain ⟨hgrows, hself⟩ := trampoline_grows st vector
  cases hget : st.trampolines.get? vector with
  | some id =>
    have hst : (st.trampoline vector).2 = st := by simp only [trampoline, hget]
    rw [hst]
    exact ⟨[], refl st⟩
  | none =>
    have hst : st.trampoline vector = (st.emitter.labels.size, { (st.newLabel (vector ++ "_trampoline")).2 with
        trampolines := st.trampolines.set vector st.emitter.labels.size }) := by
      simp only [trampoline, hget]
      rfl
    have hnew := (refl st).newLabel (vector ++ "_trampoline")
    rw [hst] at hgrows hself ⊢
    refine ⟨_, hnew.run, hnew.inner, hnew.done, fun id hid => (by cases hid), fun id hle hlt => ?_, hgrows.trampolines⟩
    obtain (rfl | hp) | hgets | ⟨v, hv⟩ := hnew.stands id hle hlt
    · exact .inr (.inr ⟨vector, hself⟩)
    · cases hp
    · exact .inr (.inl hgets)
    · exact .inr (.inr ⟨v, hgrows.trampolines v id hv⟩)

/-- The tables that pointers lead into do not matter. -/
theorem withPointers {ps ps' : Assoc String String} (h : Comes extra pending as { st with pointers := ps } st1) :
    Comes extra pending as st { st1 with pointers := ps' } :=
  ⟨h.run, h.inner, h.done, h.pending_lt, h.stands, h.kept⟩

/-- A branch over what follows. -/
theorem ofBranched (st : CodeState) (m : Mnemonic) :
    ∃ as, Comes ∅ (insert st.emitter.labels.size ∅) as st (st.branched m) :=
  ⟨_, ((refl st).newLabel "else_label").append (ofCode _ _)⟩

/-- A jump over what follows, and the label of an earlier branch after it. -/
theorem parted {n : LabelId} (h : Comes ∅ (insert n ∅) as st st1) (hn : st.emitter.labels.size ≤ n) :
    ∃ as, Comes ∅ (insert st1.emitter.labels.size ∅) as st (st1.parted n) := by
  have hjump := (h.newLabel "end_label").append (ofCode _ ⟨.jmp, .wide st1.emitter.labels.size⟩)
  rw [Set.insert_comm] at hjump
  exact ⟨_, hjump.resolve hn⟩

end

end CodeState.Comes

section

variable {i : Instr} {op : Op} {target : String} {src dest : Ref}

theorem wordComparison_comes (st : CodeState) (id : LabelId) (low high : Operand) :
    ∃ as, CodeState.Comes ∅ ∅ as st (st.withEmitter (wordComparison st.emitter id low high)) := by
  have hsize : (st.codes [⟨.lda, .wide id⟩, ⟨.cmp, low⟩]).emitter.labels.size = st.emitter.labels.size := by
    simp [CodeState.codes, CodeState.withEmitter]
  have hlower := (CodeState.Comes.ofCodes st [⟨.lda, .wide id⟩, ⟨.cmp, low⟩]).newLabel "end_label"
  have hupper := hlower.append (.ofCodes _ [⟨.bne, .relative st.emitter.labels.size⟩, ⟨.lda, .wideNext id⟩, ⟨.cmp, high⟩])
  rw [hsize] at hupper
  exact ⟨_, hupper.resolve (le_rfl)⟩

theorem single_comes (h : single cs i st.emitter op = .ok e) : ∃ as, CodeState.Comes ∅ ∅ as st (st.withEmitter e) := by
  have hemits : Emits cs ⟨#[], ⟨[]⟩, fun _ _ => none⟩ i op st.emitter e := single_emits h
  cases hemits with
  | line => exact ⟨_, .ofCodes st _⟩
  | word => exact wordComparison_comes st _ _ _
  | nothing => exact ⟨_, .ofCodes st []⟩

theorem compare_comes (h : compare cs i st.emitter src dest = .ok e) :
    ∃ as, CodeState.Comes ∅ ∅ as st (st.withEmitter e) := by
  have hs : single cs i st.emitter (.cmp dest src) = .ok e := h
  exact single_comes hs

theorem call_comes (h : call cs st target = .ok st') : ∃ as, CodeState.Comes ∅ ∅ as st st' := by
  simp only [call, bind_eq_ok] at h
  obtain ⟨id, -, t, -, h⟩ := h
  cases t with
  | routine sig =>
    rw [pure_eq_ok] at h
    subst h
    exact ⟨_, .ofCode st _⟩
  | vector of =>
    rw [pure_eq_ok] at h
    subst h
    obtain ⟨as, htr⟩ := CodeState.Comes.ofTrampoline st target
    exact ⟨_, htr.append (.ofCode _ _)⟩
  | _ => cases h

end

mutual

/-- The code of an instruction comes about by adding code, and each of its labels gets an address. -/
theorem Instr.comes (i : Instr) (st st' : CodeState) (h : i.compile cs st = .ok st') : ∃ as, CodeState.Comes ∅ ∅ as st st' := by
  cases Instr.compiled h with
  | op he =>
    exact single_comes he
  | call h => exact call_comes h
  | goto h =>
    obtain ⟨o, -, rfl⟩ := jump_code h
    exact ⟨_, .ofCode st _⟩
  | reset h =>
    obtain ⟨table, ks, -, -, rfl, -⟩ := reset_code h
    exact ⟨_, .ofCodes st ks⟩
  | ifThen yes m st1 _ hy =>
    obtain ⟨as, hb⟩ := CodeState.Comes.ofBranched st m
    obtain ⟨as', hyes⟩ := yes.comes _ _ hy
    exact ⟨_, (hb.append hyes).resolve (le_rfl)⟩
  | ifElse yes no m st1 _ hy hn =>
    obtain ⟨as, hb⟩ := CodeState.Comes.ofBranched st m
    obtain ⟨as', hyes⟩ := yes.comes _ _ hy
    have hboth := hb.append hyes
    obtain ⟨-, hn⟩ | ⟨-, st2, hn, rfl⟩ := hn
    · obtain ⟨as2, hno⟩ := no.comes _ _ hn
      exact ⟨_, (hboth.resolve (le_rfl)).append hno⟩
    · obtain ⟨as1, hparted⟩ := hboth.parted (le_rfl)
      obtain ⟨as2, hno⟩ := no.comes _ _ hn
      exact ⟨_, (hparted.append hno).resolve hboth.size⟩
  | forever body st1 hb | loop body _ st1 hb =>
    obtain ⟨as, hbody⟩ := body.comes _ _ hb
    exact ⟨_, ((CodeState.Comes.ofTopped st).append hbody).append (.ofCode _ _)⟩
  | count body st1 ks e hb _ _ he =>
    obtain ⟨as, hbody⟩ := body.comes _ _ hb
    obtain ⟨as', hcompare⟩ : ∃ as', CodeState.Comes ∅ ∅ as' (st1.codes ks) (st1.withEmitter e) := compare_comes he
    have hround := (hbody.append (.ofCodes st1 ks)).append hcompare
    exact ⟨_, ((CodeState.Comes.ofTopped st).append hround).append (.ofCode _ _)⟩
  | interruptsOff body st1 hb =>
    obtain ⟨as, hbody⟩ := body.comes _ _ hb
    exact ⟨_, ((CodeState.Comes.ofCode st _).append hbody).append (.ofCode _ _)⟩
  | save body before st1 after _ hb _ =>
    obtain ⟨as, hbody⟩ := body.comes _ _ hb
    exact ⟨_, ((CodeState.Comes.ofCodes st before).append hbody).append (.ofCodes _ after)⟩
  | pointInto body st1 hb =>
    obtain ⟨as, hbody⟩ := body.comes _ _ hb
    exact ⟨as, hbody.withPointers⟩

theorem Block.comes : (b : Block) → (st st' : CodeState) → b.compile cs st = .ok st' →
    ∃ as, CodeState.Comes ∅ ∅ as st st'
  | .nil l, st, st', h => by
    cases h
    exact ⟨[], .refl st⟩
  | .cons head tail, st, st', h => by
    obtain ⟨st1, hh, ht⟩ := compile_cons h
    obtain ⟨as, hhead⟩ := head.comes _ _ hh
    obtain ⟨as', htail⟩ := tail.comes _ _ ht
    exact ⟨_, hhead.append htail⟩

end

end CheckedAsm
