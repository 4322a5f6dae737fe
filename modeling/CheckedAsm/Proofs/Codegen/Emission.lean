import CheckedAsm.Codegen.Body
import CheckedAsm.Proofs.Attempt
import CheckedAsm.Proofs.Machine.Text
/-! # What code generation adds

Generating code for a block adds instructions after those that were there, moves the address by their
room, and adds labels after those that were there, which stay as they are. Every label of a choice or a
loop ends up at the address where it was resolved. A single operation adds the same instructions wherever
it stands, up to the width in which they write addresses. -/

namespace CheckedAsm

open List

variable {id id' : LabelId} {e e' e'' : Emitter} {ks : List Code} {a : Int}

/-! ### Labels -/

namespace Labels

variable {ls : Labels} {l : Label}

theorem entry_push_lt (hid : id < ls.size) : Labels.entry (ls.push l) id = ls.entry id := by
  simp [entry, Array.getElem?_push, Nat.ne_of_lt hid]

theorem entry_push_self : Labels.entry (ls.push l) ls.size = l := by
  simp [entry]

theorem entry_of_size_le (hid : ls.size ≤ id) : ls.entry id = ⟨"", none, none⟩ := by
  simp [entry, Array.getElem?_eq_none hid]

theorem entry_modify {f : Label → Label} :
    Labels.entry (ls.modify id f) id' = if id = id' ∧ id < ls.size then f (ls.entry id') else ls.entry id' := by
  unfold entry
  rw [Array.getElem?_modify]
  by_cases h : id = id'
  · subst h
    by_cases hid : id < ls.size
    · simp [hid]
    · simp [hid]
  · simp [h]

end Labels

namespace Emitter

theorem codes_items (e : Emitter) (ks : List Code) :
    (e.codes ks).items.toList = e.items.toList ++ ks.map Code.item := by
  induction ks generalizing e with
  | nil => simp [codes]
  | cons k ks ih =>
    have hk := ih (e.code k.mnemonic k.operand)
    simp only [codes, foldl_cons] at hk ⊢
    rw [hk]
    simp [code, append, move, Code.item]

theorem codes_addr (e : Emitter) (ks : List Code) : (e.codes ks).addr = e.addr + Code.room ks := by
  induction ks generalizing e with
  | nil => simp [codes]
  | cons k ks ih =>
    have hk := ih (e.code k.mnemonic k.operand)
    simp only [codes, foldl_cons] at hk ⊢
    rw [hk, Code.room_cons, ← Int.add_assoc]
    rfl

@[simp] theorem codes_labels (e : Emitter) (ks : List Code) : (e.codes ks).labels = e.labels := by
  induction ks generalizing e with
  | nil => rfl
  | cons k ks ih => exact ih (e.code k.mnemonic k.operand)

theorem size_resolve : (e.resolve id).labels.size = e.labels.size := Array.size_modify

theorem entry_resolve (hid : id < e.labels.size) :
    ((e.resolve id).labels.entry id).addr = some e.addr := by
  simp [resolve, changeLabel, Labels.entry_modify, hid]

theorem entry_resolve_of_ne (hid : id ≠ id') : (e.resolve id).labels.entry id' = e.labels.entry id' := by
  simp [resolve, changeLabel, Labels.entry_modify, hid]

/-- The second emitter has more instructions and more labels, and all else is as it was. -/
structure Adds (e e' : Emitter) : Prop where
  codes : ∃ ks : List Code, e'.items.toList = e.items.toList ++ ks.map Code.item
    ∧ e'.addr = e.addr + Code.room ks
  size : e.labels.size ≤ e'.labels.size
  kept : ∀ id < e.labels.size, e'.labels.entry id = e.labels.entry id

namespace Adds

theorem refl (e : Emitter) : Adds e e := ⟨⟨[], by simp⟩, Nat.le_refl _, fun _ _ => rfl⟩

theorem trans (h : Adds e e') (h' : Adds e' e'') : Adds e e'' where
  codes := by
    obtain ⟨ks, hi, ha⟩ := h.codes
    obtain ⟨ks', hi', ha'⟩ := h'.codes
    refine ⟨ks ++ ks', ?_, ?_⟩
    · rw [hi', hi, map_append, append_assoc]
    · rw [ha', ha, Code.room_append, Int.add_assoc]
  size := Nat.le_trans h.size h'.size
  kept id hid := by rw [h'.kept id (Nat.lt_of_lt_of_le hid h.size), h.kept id hid]

theorem ofCodes (e : Emitter) (ks : List Code) : Adds e (e.codes ks) :=
  ⟨⟨ks, e.codes_items ks, e.codes_addr ks⟩, by simp, by simp⟩

theorem ofNewLabel (e : Emitter) (l : Label) : Adds e (e.newLabel l).2 where
  codes := ⟨[], by simp [newLabel]⟩
  size := by simp [newLabel]
  kept _ hid := Labels.entry_push_lt hid

theorem ofLabelHere (e : Emitter) : Adds e (e.labelHere none).2 where
  codes := ⟨[], by simp [labelHere, newLabel]⟩
  size := by simp [labelHere, newLabel]
  kept _ hid := Labels.entry_push_lt hid

/-- A label that came later may be resolved. -/
theorem resolve (h : Adds e e') (hid : e.labels.size ≤ id) : Adds e (e'.resolve id) where
  codes := h.codes
  size := by rw [size_resolve]; exact h.size
  kept id' hid' := by rw [entry_resolve_of_ne (Nat.ne_of_gt (Nat.lt_of_lt_of_le hid' hid)), h.kept id' hid']

theorem addr_eq (h : Adds e e')
    (hi : e'.items.toList = e.items.toList ++ ks.map Code.item) : e'.addr = e.addr + Code.room ks := by
  obtain ⟨ks', hi', ha⟩ := h.codes
  rw [hi', append_right_inj, Code.map_item_inj] at hi
  rw [ha, hi]

/-- An address that a label has stays. -/
theorem addr_kept (h : Adds e e') (ha : (e.labels.entry id).addr = some a) : (e'.labels.entry id).addr = some a := by
  by_cases hid : id < e.labels.size
  · rw [h.kept id hid, ha]
  · rw [Labels.entry_of_size_le (Nat.le_of_not_lt hid)] at ha
    cases ha

end Adds

end Emitter

/-! ### Emitted code in a text -/

section

variable {T : Text} {h : Host}

/-- The text holds, at the same address, what the second emitter has more than the first. -/
def Text.Carries (T : Text) (e e' : Emitter) : Prop :=
  ∀ ks : List Code, e'.items.toList = e.items.toList ++ ks.map Code.item → T.Holds e.addr ks

theorem Text.Carries.split (hc : T.Carries e e'') (h1 : e.Adds e') (h2 : e'.Adds e'') :
    T.Carries e e' ∧ T.Carries e' e'' := by
  obtain ⟨ks, hi, ha⟩ := h1.codes
  obtain ⟨ks', hi', -⟩ := h2.codes
  have hh := hc (ks ++ ks') (by rw [hi', hi, map_append, append_assoc])
  rw [holds_append] at hh
  refine ⟨fun xs hx => ?_, fun xs hx => ?_⟩
  · rw [hi, append_right_inj, Code.map_item_inj] at hx
    exact hx ▸ hh.1
  · rw [hi', append_right_inj, Code.map_item_inj] at hx
    exact hx ▸ ha ▸ hh.2

theorem Text.Carries.holds (hc : T.Carries e (e.codes ks)) : T.Holds e.addr ks :=
  hc ks (e.codes_items ks)

/-- The labels that came between two emitters and have an address stand in the text, and the host has
their addresses. -/
def Text.Knows (T : Text) (h : Host) (e e' : Emitter) : Prop :=
  ∀ id a, e.labels.size ≤ id → (e'.labels.entry id).addr = some a →
    (h.labels.entry id).addr = some a ∧ T.inner id = true

theorem Text.Knows.split (hk : T.Knows h e e'') (h1 : e.Adds e') (h2 : e'.Adds e'') :
    T.Knows h e e' ∧ T.Knows h e' e'' :=
  ⟨fun id a hid ha => hk id a hid (h2.addr_kept ha),
    fun id a hid ha => hk id a (Nat.le_trans h1.size hid) ha⟩

theorem Text.Knows.of_resolve (hk : T.Knows h e (e'.resolve id))
    (hn : (e'.labels.entry id).addr = none) : T.Knows h e e' := by
  intro id' a hid ha
  by_cases hne : id = id'
  · subst hne
    rw [hn] at ha
    cases ha
  · exact hk id' a hid (by rw [Emitter.entry_resolve_of_ne hne, ha])

theorem Text.Knows.place (hk : T.Knows h e e') (hid : e.labels.size ≤ id)
    (ha : (e'.labels.entry id).addr = some a) : h.labels.place id = a := by
  rw [Labels.place, (hk id a hid ha).1]
  rfl

end

end CheckedAsm
