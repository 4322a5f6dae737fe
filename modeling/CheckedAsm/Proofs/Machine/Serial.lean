import CheckedAsm.Proofs.Attempt
import CheckedAsm.Proofs.Machine.Text
/-! # Items as bytes

Addresses are given out by the room that items say they take, while bytes are made later, one item after the other.
Instructions and single bytes become as many bytes as they say, so the bytes of such items are as many as their room.
Nothing but a label without an address can keep an item from having one. -/

namespace CheckedAsm

open List

variable {ls : Labels} {a : Int} {bs : List UInt8} {o : Operand} {t : Target} {is : List Item}

/-! ### Room -/

/-- The room of some items. -/
def Item.rooms (is : List Item) : Int := is.foldr (fun i n => i.width + n) 0

theorem Item.rooms_append (is js : List Item) : rooms (is ++ js) = rooms is + rooms js := by
  induction is with
  | nil => exact (Int.zero_add _).symm
  | cons i is ih => exact (congrArg (i.width + ·) ih).trans (Int.add_assoc ..).symm

theorem Item.rooms_codes (ks : List Code) : rooms (ks.map Code.item) = Code.room ks := by
  induction ks with
  | nil => rfl
  | cons k ks ih => exact congrArg (k.size + ·) ih

theorem toNat_lowBits (n : Int) : ((lowBits n).toNat : Int) = n % 256 := by
  rw [lowBits, UInt8.toNat_ofNat']
  omega

theorem byteOf_ok {n : Int} {b : UInt8} (h : byteOf n = .ok b) : b = lowBits n ∧ -127 ≤ n ∧ n ≤ 255 := by
  unfold byteOf at h
  split at h
  · cases h
  · exact ⟨(Except.ok.inj h).symm, by omega, by omega⟩

/-- Wherever the item becomes bytes, they are as many as its room. -/
def Item.Exact (i : Item) : Prop := ∀ ls a bs, i.bytes ls a = .ok bs → (bs.length : Int) = i.width

section

theorem Operand.pairBytes_length (h : Operand.pairBytes ls t = .ok bs) : bs.length = 2 := by
  obtain ⟨p, -, rfl⟩ := map_eq_ok.1 h
  rfl

theorem Operand.pageByte_length (h : Operand.pageByte ls t = .ok bs) : bs.length = 1 := by
  simp only [Operand.pageByte, bind_eq_ok, pure_eq_ok] at h
  obtain ⟨_, -, b, -, rfl⟩ := h
  rfl

theorem Operand.bytes_length (h : o.bytes ls a = .ok bs) : bs.length = o.size := by
  cases o with
  | implied =>
    cases h
    rfl
  | immediate b =>
    cases b with
    | byte v =>
      cases h
      rfl
    | high t | low t =>
      obtain ⟨p, -, rfl⟩ := map_eq_ok.1 h
      rfl
  | absolute t | absoluteX t | absoluteY t | indirect t => exact pairBytes_length h
  | zeroPage t | indirectY t => exact pageByte_length h
  | relative id =>
    simp only [Operand.bytes, bind_eq_ok, pure_eq_ok] at h
    obtain ⟨_, -, b, -, rfl⟩ := h
    rfl

theorem Item.code_bytes {m : Mnemonic} (h : (Item.code m o).bytes ls a = .ok bs) :
    ∃ b rest, m.opcode? o.mode = some b ∧ o.bytes ls a = .ok rest ∧ bs = b :: rest := by
  unfold Item.bytes at h
  split at h
  case h_1 => cases h
  case h_2 b hb =>
    obtain ⟨rest, hrest, rfl⟩ := map_eq_ok.1 h
    exact ⟨b, rest, hb, hrest, rfl⟩

theorem Code.item_exact (k : Code) : k.item.Exact := by
  intro ls a bs h
  obtain ⟨b, rest, -, hrest, rfl⟩ := Item.code_bytes h
  rw [Item.width_item, Code.size, length_cons, Operand.bytes_length hrest]
  omega

theorem Item.byte_exact (v : UInt8) : (Item.byte v).Exact := by
  intro ls a bs h
  simp only [Item.bytes, Except.ok.injEq] at h
  subst h
  rfl

end

/-! ### Bytes of several items -/

namespace Emitter

variable {i : Item} {js : List Item}

theorem bytesFrom_cons_ok : bytesFrom ls a (i :: is) = .ok bs ↔
    ∃ b rest, i.bytes ls a = .ok b ∧ bytesFrom ls (a + b.length) is = .ok rest ∧ bs = b ++ rest := by
  simp only [bytesFrom, bind_eq_ok, pure_eq_ok]
  constructor
  · rintro ⟨b, hb, rest, hrest, rfl⟩
    exact ⟨b, rest, hb, hrest, rfl⟩
  · rintro ⟨b, rest, hb, hrest, rfl⟩
    exact ⟨b, hb, rest, hrest, rfl⟩

theorem bytesFrom_append_ok : bytesFrom ls a (is ++ js) = .ok bs ↔
    ∃ b rest, bytesFrom ls a is = .ok b ∧ bytesFrom ls (a + b.length) js = .ok rest ∧ bs = b ++ rest := by
  induction is generalizing a bs with
  | nil => simp [bytesFrom]
  | cons i is ih =>
    simp only [cons_append, bytesFrom_cons_ok, ih]
    constructor
    · rintro ⟨b, _, hb, ⟨c, rest, hc, hrest, rfl⟩, rfl⟩
      refine ⟨b ++ c, rest, ⟨b, c, hb, hc, rfl⟩, ?_, (append_assoc ..).symm⟩
      rwa [length_append, Int.natCast_add, ← Int.add_assoc]
    · rintro ⟨_, rest, ⟨b, c, hb, hc, rfl⟩, hrest, rfl⟩
      refine ⟨b, c ++ rest, hb, ⟨c, rest, hc, ?_, rfl⟩, append_assoc ..⟩
      rwa [length_append, Int.natCast_add, ← Int.add_assoc] at hrest

/-- The bytes of items that become as many bytes as they say are as many as their room. -/
theorem bytesFrom_length (hexact : ∀ i ∈ is, i.Exact) (h : bytesFrom ls a is = .ok bs) :
    (bs.length : Int) = Item.rooms is := by
  induction is generalizing a bs with
  | nil =>
    cases h
    rfl
  | cons i is ih =>
    obtain ⟨b, rest, hb, hrest, rfl⟩ := bytesFrom_cons_ok.1 h
    obtain ⟨hi, his⟩ := forall_mem_cons.1 hexact
    rw [length_append, Int.natCast_add, hi ls a b hb, ih his hrest]
    rfl

end Emitter

/-! ### Labels that items refer to -/

/-- The label that an operand refers to. -/
def Operand.label? : Operand → Option LabelId
  | implied | immediate (.byte _) => none
  | immediate (.high t) | immediate (.low t) => some t.id
  | absolute t | absoluteX t | absoluteY t | zeroPage t | indirectY t => some t.id
  | indirect id | relative id => some id

mutual

/-- The labels that an item refers to. -/
def Item.labels : Item → List LabelId
  | .code _ o => o.label?.toList
  | .address t | .high t | .low t => [t.id]
  | .table cells _ => Item.cellLabels cells
  | .byte _ | .word _ | .letter _ | .unknown => []

/-- The labels that the cells of a table refer to. -/
def Item.cellLabels : List Item → List LabelId
  | [] => []
  | i :: rest => i.labels ++ Item.cellLabels rest

end

/-- A computation that does not fail because of a label without an address. -/
def Resolved {α : Type} (x : Except Fault α) : Prop := ∀ name, x ≠ .error (.unresolved name)

section

variable {α β : Type}

theorem Resolved.ok (a : α) : Resolved (.ok a : Except Fault α) := by
  rintro name ⟨⟩

theorem Resolved.map {x : Except Fault α} (hx : Resolved x) (f : α → β) : Resolved (x.map f) := by
  cases x with
  | ok a => exact .ok _
  | error e =>
    rintro name ⟨⟩
    exact hx name rfl

theorem Resolved.bind {x : Except Fault α} {f : α → Except Fault β} (hx : Resolved x) (hf : ∀ a, Resolved (f a)) :
    Resolved (x >>= f) := by
  cases x with
  | ok a => exact hf a
  | error e =>
    rintro name ⟨⟩
    exact hx name rfl

theorem Target.resolve_resolved (h : (ls.entry t.id).addr.isSome = true) : Resolved (t.resolve ls) := by
  obtain ⟨a, ha⟩ := Option.isSome_iff_exists.1 h
  unfold Target.resolve
  rw [ha]
  exact .ok _

theorem byteOf_resolved (n : Int) : Resolved (byteOf n) := by
  unfold byteOf
  split
  · rintro name ⟨⟩
  · exact .ok _

theorem Operand.bytes_resolved (h : ∀ id, o.label? = some id → (ls.entry id).addr.isSome = true) : Resolved (o.bytes ls a) := by
  have htarget : ∀ t : Target, o.label? = some t.id → Resolved (t.resolve ls) := fun t ht =>
    Target.resolve_resolved (h t.id ht)
  have hpair : ∀ t : Target, o.label? = some t.id → Resolved (Operand.pairBytes ls t) := fun t ht =>
    ((htarget t ht).map _).map _
  have hpage : ∀ t : Target, o.label? = some t.id → Resolved (Operand.pageByte ls t) := fun t ht =>
    (htarget t ht).bind fun _ => (byteOf_resolved _).bind fun _ => .ok _
  cases o with
  | implied => exact .ok _
  | immediate b =>
    cases b with
    | byte v => exact .ok _
    | high t | low t => exact ((htarget t rfl).map _).map _
  | absolute t | absoluteX t | absoluteY t => exact hpair t rfl
  | indirect id => exact hpair (.label id) rfl
  | zeroPage t | indirectY t => exact hpage t rfl
  | relative id => exact (htarget (.label id) rfl).bind fun _ => (byteOf_resolved _).bind fun _ => .ok _

mutual

/-- Where all labels have addresses, no item fails for want of one. -/
theorem Item.bytes_resolved {ls : Labels} {a : Int} :
    (i : Item) → (∀ id ∈ i.labels, (ls.entry id).addr.isSome = true) → Resolved (i.bytes ls a)
  | .byte v, _ => by
    unfold Item.bytes
    exact .ok _
  | .word n, _ => by
    unfold Item.bytes
    exact .ok _
  | .letter c, _ => by
    unfold Item.bytes
    rintro name ⟨⟩
  | .unknown, _ => by
    unfold Item.bytes
    rintro name ⟨⟩
  | .table cells n, h => by
    unfold Item.labels at h
    unfold Item.bytes
    exact (Item.cellBytes_resolved cells h).bind fun _ => .ok _
  | .address t, h => by
    unfold Item.labels at h
    unfold Item.bytes
    have ht : Resolved (t.resolve ls) := Target.resolve_resolved (h t.id (mem_singleton_self _))
    exact (ht.map _).map _
  | .high t, h | .low t, h => by
    unfold Item.labels at h
    unfold Item.bytes
    have ht : Resolved (t.resolve ls) := Target.resolve_resolved (h t.id (mem_singleton_self _))
    exact (ht.map _).map _
  | .code m o, h => by
    unfold Item.labels at h
    unfold Item.bytes
    split
    · rintro name ⟨⟩
    · refine (Operand.bytes_resolved fun id hid => h id ?_).map _
      rw [hid]
      exact mem_singleton_self _

theorem Item.cellBytes_resolved {ls : Labels} {a : Int} :
    (is : List Item) → (∀ id ∈ Item.cellLabels is, (ls.entry id).addr.isSome = true) → Resolved (Item.cellBytes ls a is)
  | [], _ => by
    unfold Item.cellBytes
    exact .ok _
  | i :: is, h => by
    unfold Item.cellLabels at h
    unfold Item.cellBytes
    have hi := Item.bytes_resolved (a := a) i fun id hid => h id (mem_append_left _ hid)
    have his := Item.cellBytes_resolved (a := a) is fun id hid => h id (mem_append_right _ hid)
    exact hi.bind fun _ => his.bind fun _ => .ok _

end

theorem Emitter.bytesFrom_resolved
    (h : ∀ i ∈ is, ∀ id ∈ i.labels, (ls.entry id).addr.isSome = true) : Resolved (bytesFrom ls a is) := by
  induction is generalizing a with
  | nil => exact .ok _
  | cons i is ih =>
    obtain ⟨hi, his⟩ := forall_mem_cons.1 h
    exact (i.bytes_resolved hi).bind fun _ => (ih his).bind fun _ => .ok _

end

end CheckedAsm
