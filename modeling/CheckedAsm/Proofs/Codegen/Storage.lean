import CheckedAsm.Proofs.Codegen.Branches
/-! # Storage in an image

Behind the code come the definitions that have initial values, then those that have neither a value nor an address. Each
begins where the one before it ends, so no two of them meet, and none meets the code. The bytes of an initial value
stand where its label says, as long as no table has more bytes of values than room. A table of words with initial
values has room for half of its words only. -/

namespace CheckedAsm

open Codegen Emitter List Program

variable {ty : Ty} {a n : Int} {ps qs us vs : List Placed} {q : Placed} {ls : Labels} {bs : List UInt8} {initial : Initial}
  {e e1 : Emitter} {id : LabelId} {as ds tr : List Emitter.Action} {symbols : Symbols} {p : Program} {rows : List (List String)}
  {L : Layout} {st : CodeState} {js : List Item}

/-! ### Initial values as bytes -/

/-- Numbers as a location of the type holds them, the lower byte of a word first. -/
def Ty.encode (ty : Ty) (ns : List Int) : List UInt8 :=
  match ty with
  | .word | .table .word _ => ns.flatMap fun n => [lowBits n, lowBits (n / 256)]
  | _ => ns.map lowBits

/-- The room that a location of the type gets: its length, but a table of words that is filled gets one byte for each
word. -/
def Ty.extent (ty : Ty) (filled : Bool) : Int :=
  match ty, filled with
  | .table .word size, true => size
  | ty, _ => ty.length.toOption.getD 0

theorem Ty.extent_cases (filled : Bool) (hn : ty.length = .ok n) :
    ty.length = .ok (ty.extent filled)
      ∨ filled = true ∧ ∃ n, ty = .table .word n ∧ ty.extent filled = n ∧ ty.length = .ok (n * 2) := by
  unfold extent
  split
  case h_1 size => exact .inr ⟨rfl, size, rfl, rfl, rfl⟩
  case h_2 => exact .inl (by rw [hn]; rfl)

namespace Placed

/-- The bytes of a definition's initial values. -/
def encoding (q : Placed) : List UInt8 :=
  match q.defn.initial with
  | some initial => q.ty.encode initial.numbers
  | none => []

/-- The room that a definition gets. -/
def room (q : Placed) : Int := q.ty.extent q.defn.initial.isSome

/-- The initial values need no more than the room. -/
def Fits (q : Placed) : Prop := (q.encoding.length : Int) ≤ q.room

instance (q : Placed) : Decidable q.Fits := inferInstanceAs (Decidable ((_ : Int) ≤ _))

/-- The room of some definitions. -/
def rooms (qs : List Placed) : Int := qs.foldr (fun q n => q.room + n) 0

theorem rooms_append (us vs : List Placed) : rooms (us ++ vs) = rooms us + rooms vs := by
  induction us with
  | nil => exact (Int.zero_add _).symm
  | cons u us ih => exact (congrArg (u.room + ·) ih).trans (Int.add_assoc ..).symm

theorem rooms_cons (q : Placed) (qs : List Placed) : rooms (q :: qs) = q.room + rooms qs := rfl

theorem rooms_nonneg (h : ∀ q ∈ qs, q.Fits) : 0 ≤ rooms qs := by
  induction qs with
  | nil => exact Int.le_refl 0
  | cons q qs ih =>
    obtain ⟨hq, hqs⟩ := forall_mem_cons.1 h
    have hrest := ih hqs
    unfold Fits at hq
    rw [rooms_cons]
    omega

/-- Of two definitions in a row, one begins where the other has ended. -/
theorem rooms_apart {us' vs' : List Placed} {q' : Placed} (h : us ++ q :: vs = us' ++ q' :: vs')
    (hne : q.label ≠ q'.label) (hfits : ∀ r ∈ us ++ q :: vs, r.Fits) :
    rooms us + q.room ≤ rooms us' ∨ rooms us' + q'.room ≤ rooms us := by
  have hfits' := hfits
  rw [h] at hfits'
  obtain ⟨ws, hus, hcons⟩ | ⟨ws, hus, hcons⟩ := append_eq_append_iff.1 h
  · cases ws with
    | nil =>
      cases hcons
      exact (hne rfl).elim
    | cons w ws =>
      cases hcons
      have hnonneg := rooms_nonneg fun r (hr : r ∈ ws) => hfits' r (by simp [hus, hr])
      rw [hus, rooms_append, rooms_cons]
      omega
  · cases ws with
    | nil =>
      cases hcons
      exact (hne rfl).elim
    | cons w ws =>
      cases hcons
      have hnonneg := rooms_nonneg fun r (hr : r ∈ ws) => hfits r (by simp [hus, hr])
      rw [hus, rooms_append, rooms_cons]
      omega

end Placed

namespace Codegen

section

variable {item : Item}

theorem cellBytes_byte (ns : List Int) :
    Item.cellBytes ls a (ns.map fun n => .byte (lowBits n)) = .ok (ns.map lowBits) := by
  induction ns with
  | nil =>
    unfold Item.cellBytes
    rfl
  | cons n ns ih =>
    simp only [map_cons, Item.cellBytes, Item.bytes, ih]
    rfl

theorem cellBytes_word (ns : List Int) :
    Item.cellBytes ls a (ns.map .word) = .ok (ns.flatMap fun n => [lowBits n, lowBits (n / 256)]) := by
  induction ns with
  | nil =>
    unfold Item.cellBytes
    rfl
  | cons n ns ih =>
    simp only [map_cons, flatMap_cons, Item.cellBytes, Item.bytes, ih]
    rfl

/-- Letters do not become words. -/
theorem cellBytes_letter {cs : List Char} (h : Item.cellBytes ls a (cs.map .letter) = .ok bs) : cs = [] := by
  cases cs with
  | nil => rfl
  | cons c cs =>
    simp only [map_cons, Item.cellBytes, Item.bytes] at h
    cases h

theorem wordCells_bytes (h : Item.cellBytes ls a (wordCells initial) = .ok bs) :
    bs = initial.numbers.flatMap fun n => [lowBits n, lowBits (n / 256)] := by
  cases initial with
  | value n => exact (Except.ok.inj ((cellBytes_word [n]).symm.trans h)).symm
  | values ns => exact (Except.ok.inj ((cellBytes_word ns).symm.trans h)).symm
  | text s =>
    have hnil := cellBytes_letter h
    rw [wordCells, hnil] at h
    rw [Initial.numbers, hnil]
    exact (Except.ok.inj ((cellBytes_word []).symm.trans h)).symm

/-- An initial value becomes the bytes of its numbers, with zeros up to its room. -/
theorem initialItem_bytes (h : initialItem ty initial = .ok item) (hbs : item.bytes ls a = .ok bs) :
    bs = ty.encode initial.numbers ++ List.replicate (item.width - (ty.encode initial.numbers).length).toNat 0 := by
  unfold initialItem at h
  split at h
  · obtain ⟨b, hb, rfl⟩ := map_eq_ok.1 h
    rw [(byteOf_ok hb).1, Item.bytes] at hbs
    exact (Except.ok.inj hbs).symm
  · cases h
    rw [Item.bytes] at hbs
    exact (Except.ok.inj hbs).symm
  · obtain ⟨cells, hcells, rfl⟩ := map_eq_ok.1 h
    rw [Item.bytes, (byteCells_ok hcells).1, cellBytes_byte] at hbs
    exact (Except.ok.inj hbs).symm
  · cases h
    simp only [Item.bytes, bind_eq_ok, pure_eq_ok] at hbs
    obtain ⟨cells, hcells, rfl⟩ := hbs
    rw [wordCells_bytes hcells]
    rfl
  · cases h

theorem initialItem_width (h : initialItem ty initial = .ok item) : item.isData = true ∧ item.width = ty.extent true := by
  unfold initialItem at h
  split at h
  · obtain ⟨b, -, rfl⟩ := map_eq_ok.1 h
    exact ⟨rfl, rfl⟩
  · cases h
    exact ⟨rfl, rfl⟩
  · obtain ⟨cells, -, rfl⟩ := map_eq_ok.1 h
    exact ⟨rfl, rfl⟩
  · cases h
    exact ⟨rfl, rfl⟩
  · cases h

end

end Codegen

namespace Placed

theorem width_item (hinitial : q.defn.initial = some initial) (hitem : initialItem q.ty initial = .ok q.item) :
    q.item.width = q.room := by
  rw [(initialItem_width hitem).2, room, hinitial]
  rfl

theorem rooms_items (h : ∀ u ∈ us, u.item.width = u.room) : Item.rooms (us.map item) = rooms us := by
  induction us with
  | nil => rfl
  | cons u us ih =>
    obtain ⟨hu, hus⟩ := forall_mem_cons.1 h
    exact congrArg₂ (· + ·) hu (ih hus)

theorem bytes_item (hinitial : q.defn.initial = some initial)
    (hitem : initialItem q.ty initial = .ok q.item) (hbs : q.item.bytes ls a = .ok bs) :
    bs = q.encoding ++ List.replicate (q.room - q.encoding.length).toNat 0 := by
  have hencoding : q.encoding = q.ty.encode initial.numbers := by rw [encoding, hinitial]
  rw [hencoding, ← width_item hinitial hitem]
  exact initialItem_bytes hitem hbs

/-- Initial values that fit become as many bytes as they say. -/
theorem item_exact (hinitial : q.defn.initial = some initial) (hitem : initialItem q.ty initial = .ok q.item) (hfits : q.Fits) :
    q.item.Exact := by
  intro ls a bs hbs
  rw [width_item hinitial hitem, bytes_item hinitial hitem hbs, length_append, length_replicate]
  unfold Fits at hfits
  omega

end Placed

/-! ### Places one after the other -/

/-- The actions by which a definition gets its place. -/
def Placed.seating (q : Placed) : List Emitter.Action :=
  match q.defn.initial with
  | some _ => [.measure q.label q.room, .resolve q.label, .add q.item]
  | none => [.resolve q.label, .leave q.room]

/-- A definition that waits for its place has a label, and what will stand there says how much room it takes. -/
structure Placed.Waits (ls : Labels) (q : Placed) : Prop where
  lt : q.label < ls.size
  name : (ls.entry q.label).name = q.defn.name
  fills : q.defn.initial.isSome = true → q.item.width = q.room
  leaves : q.defn.initial = none → (ls.entry q.label).length = some q.room

/-- The definitions have got their places one after the other, from the address of the first emitter to that of the second. -/
structure Emitter.Allots (e : Emitter) (qs : List Placed) (e' : Emitter) : Prop where
  addr : e'.addr = e.addr + Placed.rooms qs
  size : e'.labels.size = e.labels.size
  others : ∀ id ∉ qs.map (·.label), e'.labels.entry id = e.labels.entry id
  seat : ∀ us q vs, qs = us ++ q :: vs →
    e'.labels.entry q.label = ⟨q.defn.name, some (e.addr + Placed.rooms us), some q.room⟩

namespace Emitter

variable {e' e'' : Emitter}

theorem entry_resolve_self (hid : id < e.labels.size) :
    (e.resolve id).labels.entry id = ⟨(e.labels.entry id).name, some e.addr, (e.labels.entry id).length⟩ := by
  simp [resolve, changeLabel, Labels.entry_modify, hid]

theorem entry_measure {id' : LabelId} :
    (e.act (.measure id n)).labels.entry id'
      = if id = id' ∧ id < e.labels.size then ⟨(e.labels.entry id').name, (e.labels.entry id').addr, some n⟩
        else e.labels.entry id' :=
  Labels.entry_modify

theorem Allots.single (h : q.Waits e.labels) : e.Allots [q] (e.acts q.seating) := by
  have hseat : ∀ us q' vs, [q] = us ++ q' :: vs → us = [] ∧ q = q' := by
    intro us q' vs heq
    obtain ⟨rfl, hcons⟩ | ⟨w, -, hnil⟩ := cons_eq_append_iff.1 heq
    · cases hcons
      exact ⟨rfl, rfl⟩
    · simp at hnil
  unfold Placed.seating
  split
  case h_1 initial hinitial =>
    have hwidth := h.fills (by rw [hinitial]; rfl)
    have hlt : q.label < (e.act (.measure q.label q.room)).labels.size := Nat.lt_of_lt_of_eq h.lt Array.size_modify.symm
    refine ⟨?_, ?_, fun id hid => ?_, fun us q' vs heq => ?_⟩
    · show e.addr + q.item.width = e.addr + (q.room + 0)
      rw [hwidth, Int.add_zero]
    · exact (size_resolve).trans Array.size_modify
    · have hne : q.label ≠ id := by simpa [eq_comm] using hid
      show ((e.act (.measure q.label q.room)).resolve q.label).labels.entry id = _
      rw [entry_resolve_of_ne hne, entry_measure, if_neg fun hid => hne hid.1]
    · obtain ⟨rfl, rfl⟩ := hseat us q' vs heq
      show ((e.act (.measure q.label q.room)).resolve q.label).labels.entry q.label = _
      rw [entry_resolve_self hlt, entry_measure, if_pos ⟨rfl, h.lt⟩, h.name]
      simp [act, changeLabel, Placed.rooms]
  case h_2 hinitial =>
    refine ⟨?_, size_resolve, fun id hid => ?_, fun us q' vs heq => ?_⟩
    · show e.addr + q.room = e.addr + (q.room + 0)
      rw [Int.add_zero]
    · have hne : q.label ≠ id := by simpa [eq_comm] using hid
      exact entry_resolve_of_ne hne
    · obtain ⟨rfl, rfl⟩ := hseat us q' vs heq
      show (e.resolve q.label).labels.entry q.label = _
      rw [entry_resolve_self h.lt, h.name, h.leaves hinitial]
      simp [Placed.rooms]

theorem Allots.cons (h : e.Allots [q] e') (h' : e'.Allots qs e'') (hq : q.label ∉ qs.map (·.label)) :
    e.Allots (q :: qs) e'' where
  addr := by
    rw [h'.addr, h.addr, Placed.rooms_cons q qs, Int.add_assoc]
    simp [Placed.rooms]
  size := h'.size.trans h.size
  others id hid := by
    rw [map_cons, mem_cons, not_or] at hid
    rw [h'.others id hid.2, h.others id (by simpa using hid.1)]
  seat us q' vs heq := by
    obtain ⟨rfl, hcons⟩ | ⟨us', rfl, hrest⟩ := cons_eq_append_iff.1 heq
    · cases hcons
      rw [h'.others _ hq]
      exact h.seat [] q [] rfl
    · rw [h'.seat us' q' vs hrest, h.addr, Placed.rooms_cons q us', Int.add_assoc]
      simp [Placed.rooms]

/-- Definitions that wait get their places. -/
theorem Allots.run (hwaits : ∀ q ∈ qs, q.Waits e.labels) (hnodup : (qs.map (·.label)).Nodup) :
    e.Allots qs (e.acts (qs.flatMap Placed.seating)) := by
  induction qs generalizing e with
  | nil => exact ⟨(Int.add_zero _).symm, rfl, fun id _ => rfl, fun us q vs heq => by simp at heq⟩
  | cons q qs ih =>
    obtain ⟨hq, hqs⟩ := forall_mem_cons.1 hwaits
    rw [map_cons, nodup_cons] at hnodup
    have hfirst := Allots.single hq
    rw [flatMap_cons, acts_append]
    refine hfirst.cons (ih (fun q' hq' => ?_) hnodup.2) hnodup.1
    -- the others still wait, as their labels are not this one
    have hne : q'.label ∉ [q].map (·.label) := by
      intro hmem
      have hlabel : q'.label = q.label := mem_singleton.1 hmem
      exact hnodup.1 (hlabel ▸ mem_map_of_mem hq')
    have hwait := hqs q' hq'
    exact ⟨hfirst.size ▸ hwait.lt, by rw [hfirst.others _ hne, hwait.name], hwait.fills,
      fun hnone => by rw [hfirst.others _ hne, hwait.leaves hnone]⟩

/-- Labels keep their names, and their lengths as long as none is measured. -/
theorem act_describes {a : Action} (ha : ∀ id n, a ≠ .measure id n) (hid : id < e.labels.size) :
    ((e.act a).labels.entry id).name = (e.labels.entry id).name
      ∧ ((e.act a).labels.entry id).length = (e.labels.entry id).length := by
  cases a with
  | resolve id' =>
    simp only [act, resolve, changeLabel, Labels.entry_modify]
    split <;> exact ⟨rfl, rfl⟩
  | measure id' n => exact (ha id' n rfl).elim
  | name l | top =>
    have hkept (l : Label) := Labels.entry_push_lt (l := l) hid
    simp only [act, newLabel, labelHere]
    rw [hkept]
    exact ⟨rfl, rfl⟩
  | redirect | retract =>
    rw [act_labels_of_last (by simp)]
    exact ⟨rfl, rfl⟩
  | add i | leave n => exact ⟨rfl, rfl⟩

theorem acts_describes {as : List Action} (has : ∀ a ∈ as, ∀ id n, a ≠ .measure id n) (hid : id < e.labels.size) :
    ((e.acts as).labels.entry id).name = (e.labels.entry id).name
      ∧ ((e.acts as).labels.entry id).length = (e.labels.entry id).length := by
  induction as generalizing e with
  | nil => exact ⟨rfl, rfl⟩
  | cons a as ih =>
    obtain ⟨ha, has⟩ := forall_mem_cons.1 has
    obtain ⟨hname, hlength⟩ := act_describes ha hid
    obtain ⟨hname', hlength'⟩ := ih has (hid.trans_le (size_act e a))
    exact ⟨hname'.trans hname, hlength'.trans hlength⟩

end Emitter

theorem items_seating (e : Emitter) (qs : List Placed) :
    (e.acts (qs.flatMap Placed.seating)).items.toList = e.items.toList ++ (initialised qs).map Placed.item := by
  induction qs generalizing e with
  | nil => exact (append_nil _).symm
  | cons q qs ih =>
    rw [flatMap_cons, acts_append, ih]
    cases hinitial : q.defn.initial with
    | none =>
      have hskip : initialised (q :: qs) = initialised qs := filter_cons_of_neg (by rw [hinitial]; simp)
      rw [hskip, Placed.seating, hinitial]
      rfl
    | some initial =>
      have htake : initialised (q :: qs) = q :: initialised qs := filter_cons_of_pos (by rw [hinitial]; rfl)
      rw [htake, Placed.seating, hinitial]
      simp [Emitter.acts, Emitter.act, Emitter.changeLabel, Emitter.resolve, Emitter.append, Emitter.move]

theorem mem_initialised : q ∈ initialised ps ↔ q ∈ ps ∧ q.defn.initial.isSome = true :=
  mem_filter

theorem mem_unfilled : q ∈ unfilled ps ↔ q ∈ ps ∧ q.defn.initial = none ∧ q.defn.addr = none := by
  simp [unfilled]

theorem initialised_append (ps : List Placed) : initialised (initialised ps ++ unfilled ps) = initialised ps := by
  have hnil : (unfilled ps).filter (fun q => q.defn.initial.isSome) = [] := by
    refine filter_eq_nil_iff.2 fun q hq => ?_
    simp [(mem_unfilled.1 hq).2.1]
  rw [initialised, filter_append, hnil, append_nil]
  simp [initialised]

/-- Those definitions that get a place after the code have labels of their own. -/
theorem allocated_nodup (h : (ps.map (·.label)).Nodup) : ((initialised ps ++ unfilled ps).map (·.label)).Nodup := by
  rw [map_append, nodup_append]
  refine ⟨h.sublist (filter_sublist.map _), h.sublist (filter_sublist.map _), fun a ha b hb heq => ?_⟩
  obtain ⟨q, hq, rfl⟩ := mem_map.1 ha
  obtain ⟨q', hq', rfl⟩ := mem_map.1 hb
  obtain ⟨hmem, hsome⟩ := mem_initialised.1 hq
  obtain ⟨hmem', hnone, -⟩ := mem_unfilled.1 hq'
  obtain rfl := inj_on_of_nodup_map h hmem hmem' heq
  simp [hnone] at hsome

namespace Program.Course

section

variable (h : p.Course symbols rows e L e1 ps st as tr ds)
include h

theorem unmeasured : ∀ a ∈ as ++ tr, ∀ id n, a ≠ .measure id n := by
  rintro a ha id n rfl
  obtain ha | ha := mem_append.1 ha
  · obtain hinner | ⟨x, -, ⟨-, _, -, -, -, heq⟩ | heq | ⟨heq, -⟩⟩ := h.code.inner _ ha
    · exact hinner
    all_goals cases heq
  · obtain ⟨k, heq⟩ | ⟨x, -, heq⟩ := h.trampolines _ ha
    all_goals cases heq

/-- After the code every definition waits for its place. -/
theorem waits
    (hitems : ∀ q ∈ initialised ps, ∃ initial, q.defn.initial = some initial ∧ initialItem q.ty initial = .ok q.item)
    (hq : q ∈ ps) : q.Waits (e1.acts (as ++ tr)).labels := by
  obtain ⟨-, hlt, n, hn, hentry⟩ := (placed_seats h.placed).placed q hq
  obtain ⟨hname, hlength⟩ := acts_describes h.unmeasured hlt
  rw [hentry] at hname hlength
  refine ⟨hlt.trans_le (size_acts ..), hname, fun hsome => ?_, fun hnone => ?_⟩
  · obtain ⟨initial, hinitial, hitem⟩ := hitems q (mem_initialised.2 ⟨hq, hsome⟩)
    exact Placed.width_item hinitial hitem
  · obtain hroom | ⟨hfilled, -⟩ := Ty.extent_cases q.defn.initial.isSome hn
    · rw [hlength, Placed.room, Except.ok.inj (hn.symm.trans hroom)]
    · simp [hnone] at hfilled

/-- Storage gets its places behind the code: what has initial values first, then the rest. -/
theorem allots :
    (e1.acts (as ++ tr)).Allots (initialised ps ++ unfilled ps) L.emitter
      ∧ L.emitter.items.toList = (e1.acts (as ++ tr)).items.toList ++ (initialised ps).map Placed.item
      ∧ ∀ q ∈ initialised ps, ∃ initial, q.defn.initial = some initial ∧ initialItem q.ty initial = .ok q.item := by
  obtain ⟨e3, hin, hre⟩ := h.filled
  obtain ⟨hrunin, hitems⟩ := initials_acts hin
  have hrunre := reserves_acts hre
  have hnodup := allocated_nodup (placed_seats h.placed).nodup
  have hwaits : ∀ q ∈ initialised ps ++ unfilled ps, q.Waits (e1.acts (as ++ tr)).labels := by
    intro q hq
    obtain hq | hq := mem_append.1 hq
    · exact h.waits hitems (mem_of_mem_filter hq)
    · exact h.waits hitems (mem_of_mem_filter hq)
  have hfills : (initialised ps).flatMap Placed.fills = (initialised ps).flatMap Placed.seating := by
    refine flatMap_congr fun q hq => ?_
    obtain ⟨initial, hinitial, -⟩ := hitems q hq
    rw [Placed.fills, Placed.seating, hinitial, (hwaits q (mem_append_left _ hq)).fills (by rw [hinitial]; rfl)]
  have hfirst : (e1.acts (as ++ tr)).Allots (initialised ps) e3 := by
    rw [← hrunin, hfills]
    rw [map_append, nodup_append] at hnodup
    exact .run (fun q hq => hwaits q (mem_append_left _ hq)) hnodup.1
  have hleaves : (unfilled ps).flatMap (Placed.leaves e3.labels) = (unfilled ps).flatMap Placed.seating := by
    refine flatMap_congr fun q hq => ?_
    obtain ⟨-, hnone, -⟩ := mem_unfilled.1 hq
    have hnot : q.label ∉ (initialised ps).map (·.label) := by
      rw [map_append, nodup_append] at hnodup
      exact fun hmem => hnodup.2.2 _ hmem _ (mem_map_of_mem hq) rfl
    rw [Placed.leaves, Placed.seating, hnone, hfirst.others _ hnot, (hwaits q (mem_append_right _ hq)).leaves hnone]
    rfl
  have hrun : (e1.acts (as ++ tr)).acts ((initialised ps ++ unfilled ps).flatMap Placed.seating) = L.emitter := by
    rw [flatMap_append, acts_append, ← hfills, hrunin, ← hleaves, hrunre]
  refine ⟨hrun ▸ .run hwaits hnodup, ?_, hitems⟩
  rw [← hrun, items_seating, initialised_append]

end

end Program.Course

/-- Every definition without an address gets a place. -/
theorem mem_allocated (hq : q ∈ ps) (haddr : q.defn.addr = none) : q ∈ initialised ps ++ unfilled ps := by
  cases hinitial : q.defn.initial with
  | some initial => exact mem_append_left _ (mem_initialised.2 ⟨hq, by rw [hinitial]; rfl⟩)
  | none => exact mem_append_right _ (mem_unfilled.2 ⟨hq, hinitial, haddr⟩)

/-- The definition stands at the address, with its room. -/
def Labels.Stands (ls : Labels) (q : Placed) (a : Int) : Prop := ls.entry q.label = ⟨q.defn.name, some a, some q.room⟩

section

section

variable (h : p.Course symbols rows e L e1 ps st as tr ds)
include h

/-- Storage without an address of its own stands behind the code. -/
theorem Program.Course.stands (hfits : ∀ q ∈ ps, q.Fits) (hq : q ∈ ps)
    (haddr : q.defn.addr = none) : ∃ a, (e1.acts (as ++ tr)).addr ≤ a ∧ L.emitter.labels.Stands q a := by
  obtain ⟨us, vs, hsplit⟩ := append_of_mem (mem_allocated hq haddr)
  have hnonneg : 0 ≤ Placed.rooms us := by
    refine Placed.rooms_nonneg fun r hr => hfits r ?_
    have hmem : r ∈ initialised ps ++ unfilled ps := hsplit ▸ mem_append_left _ hr
    exact (mem_append.1 hmem).elim mem_of_mem_filter mem_of_mem_filter
  exact ⟨_, by omega, h.allots.1.seat us q vs hsplit⟩

/-- No two definitions without an address of their own meet. -/
theorem Program.Course.apart (hfits : ∀ q ∈ ps, q.Fits) :
    ps.Pairwise fun q q' => q.defn.addr = none → q'.defn.addr = none → ∀ a a', L.emitter.labels.Stands q a →
      L.emitter.labels.Stands q' a' → a + q.room ≤ a' ∨ a' + q'.room ≤ a := by
  have hlabels := pairwise_map.1 (placed_seats h.placed).nodup
  refine hlabels.imp_of_mem fun {q q'} hq hq' hne haddr haddr' a a' ha ha' => ?_
  obtain ⟨us, vs, hsplit⟩ := append_of_mem (mem_allocated hq haddr)
  obtain ⟨us', vs', hsplit'⟩ := append_of_mem (mem_allocated hq' haddr')
  obtain ⟨-, ha, -⟩ := Label.mk.inj (ha.symm.trans (h.allots.1.seat us q vs hsplit))
  obtain ⟨-, ha', -⟩ := Label.mk.inj (ha'.symm.trans (h.allots.1.seat us' q' vs' hsplit'))
  have hrooms := Placed.rooms_apart (hsplit.symm.trans hsplit') hne fun r hr => by
    rw [← hsplit] at hr
    exact hfits r ((mem_append.1 hr).elim mem_of_mem_filter mem_of_mem_filter)
  rw [Option.some.injEq] at ha ha'
  omega

/-- The bytes of an initial value stand where its label says, if those before it have no more bytes than room. -/
theorem Program.Course.filled_behind (he : e.Tight) (hsplit : initialised ps = us ++ q :: vs) (hfits : ∀ u ∈ us, u.Fits)
    (hbs : Emitter.bytesFrom ls e1.start (L.emitter.items.toList ++ js) = .ok bs) :
    ∃ pre post, bs = pre ++ (q.encoding ++ List.replicate (q.room - q.encoding.length).toNat 0) ++ post
      ∧ L.emitter.labels.Stands q (e1.start + pre.length) := by
  obtain ⟨hallots, hlayout, hitems⟩ := h.allots
  have htight : (e1.acts (as ++ tr)).Tight := (placed_tight h.placed he).acts h.exact
  rw [hlayout, hsplit, map_append, map_cons, ← append_assoc, append_assoc, cons_append] at hbs
  obtain ⟨pre, rest, hpre, hrest, rfl⟩ := bytesFrom_append_ok.1 hbs
  obtain ⟨own, post, hown, -, rfl⟩ := bytesFrom_cons_ok.1 hrest
  obtain ⟨initial, hinitial, hitem⟩ := hitems q (hsplit ▸ mem_append_right _ mem_cons_self)
  refine ⟨pre, post, by rw [← Placed.bytes_item hinitial hitem hown, append_assoc], ?_⟩
  -- what stands before has as many bytes as room, so the address is right
  have hbefore : ∀ u ∈ us, u.item.Exact ∧ u.item.width = u.room := by
    intro u hu
    obtain ⟨initial, hinitial, hitem⟩ := hitems u (hsplit ▸ mem_append_left _ hu)
    exact ⟨Placed.item_exact hinitial hitem (hfits u hu), Placed.width_item hinitial hitem⟩
  have hlength : (pre.length : Int) = Item.rooms ((e1.acts (as ++ tr)).items.toList ++ us.map Placed.item) := by
    refine bytesFrom_length (fun i hi => ?_) hpre
    obtain hi | hi := mem_append.1 hi
    · exact htight.exact i hi
    · obtain ⟨u, hu, rfl⟩ := mem_map.1 hi
      exact (hbefore u hu).1
  have hseat := hallots.seat us q (vs ++ unfilled ps) (by rw [hsplit, append_assoc, cons_append])
  rw [Item.rooms_append, Placed.rooms_items fun u hu => (hbefore u hu).2] at hlength
  rw [htight.addr, start_acts] at hseat
  rw [Labels.Stands, hseat, hlength, Int.add_assoc]

theorem Program.Course.filled_at (he : e.Tight) (hfits : ∀ q ∈ ps, q.Fits) (hq : q ∈ ps) (hsome : q.defn.initial.isSome = true)
    (hbs : Emitter.bytesFrom ls e1.start (L.emitter.items.toList ++ js) = .ok bs) :
    ∃ pre post, bs = pre ++ (q.encoding ++ List.replicate (q.room - q.encoding.length).toNat 0) ++ post
      ∧ L.emitter.labels.Stands q (e1.start + pre.length) := by
  obtain ⟨us, vs, hsplit⟩ := append_of_mem (mem_initialised.2 ⟨hq, hsome⟩)
  refine h.filled_behind he hsplit (fun u hu => hfits u ?_) hbs
  have hmem : u ∈ initialised ps := hsplit ▸ mem_append_left _ hu
  exact mem_of_mem_filter hmem

end

end

/-- A program has become bytes, and no table has more bytes of initial values than room. Then all storage is where its labels
say: an initial value stands at its label, with zeros up to its room; whatever has no address of its own lies behind every
instruction; and no two of these meet. The room is the length that the type says, but for tables of words that have initial
values, whose room is half of it. -/
theorem Image.storage_laid_out {symbols : Symbols} {p : Program} {roster : Option (List (List String))} {format : Option String}
    {origin : Option Int} {f : Format} {image : Image} {code : List UInt8} {e₁ : Emitter} {labels : LabelMap} {ps : List Placed}
    (hf : Format.named format = .ok f) (hi : Image.ofProgram symbols p roster format origin = .ok image)
    (hcode : image.bytes = .ok code)
    (hplaced : p.placed symbols (f.opened (origin.getD f.origin)) = .ok (e₁, labels, ps)) (hfits : ∀ q ∈ ps, q.Fits) :
    ps.map (·.defn) = p.defns ++ p.routines.flatMap (·.locals)
      ∧ (∀ q ∈ ps, q.ty.length = .ok q.room
        ∨ q.defn.initial.isSome = true ∧ ∃ n, q.ty = .table .word n ∧ q.room = n ∧ q.ty.length = .ok (n * 2))
      ∧ (∀ q ∈ ps, q.defn.initial.isSome = true → ∃ pre post,
        code = f.header (origin.getD f.origin)
          ++ (pre ++ (q.encoding ++ List.replicate (q.room - q.encoding.length).toNat 0) ++ post)
        ∧ image.layout.emitter.labels.Stands q (origin.getD f.origin + pre.length))
      ∧ (∃ instrs data bs, image.layout.emitter.items.toList = instrs ++ data ∧ (∀ i ∈ data, i.isData = true)
        ∧ Emitter.bytesFrom image.layout.emitter.labels (origin.getD f.origin) instrs = .ok bs
        ∧ ∀ q ∈ ps, q.defn.addr = none →
          ∃ a, origin.getD f.origin + bs.length ≤ a ∧ image.layout.emitter.labels.Stands q a)
      ∧ ps.Pairwise fun q q' => q.defn.addr = none → q'.defn.addr = none →
        ∀ a a', image.layout.emitter.labels.Stands q a → image.layout.emitter.labels.Stands q' a' →
          a + q.room ≤ a' ∨ a' + q'.room ≤ a := by
  simp only [Image.ofProgram, bind_eq_ok, pure_eq_ok] at hi
  obtain ⟨f', hf', L, hL, e, he, rfl⟩ := hi
  obtain rfl := Except.ok.inj (hf.symm.trans hf')
  obtain ⟨e₁', ps', st, as, tr, ds, hcourse⟩ := layOut_course hL
  obtain ⟨rfl, -, rfl⟩ := (by simpa using hplaced.symm.trans hcourse.placed : e₁ = e₁' ∧ labels = L.labels ∧ ps = ps')
  obtain ⟨hlabels, hstart, js, hitems, hjs⟩ := Format.closed_ok he
  obtain ⟨-, hlayout, hinit⟩ := hcourse.allots
  have hopened := f.opened_tight (origin.getD f.origin)
  have htight := (placed_tight hcourse.placed hopened).acts hcourse.exact
  have hfirst : e₁.start = origin.getD f.origin := by
    rw [placed_emitter hcourse.placed]
    exact f.opened_start _
  simp only [Image.bytes, bind_eq_ok, pure_eq_ok] at hcode
  obtain ⟨bs, hbs, rfl⟩ := hcode
  rw [Emitter.bytes, hstart, layOut_start hL, f.opened_start, ← hfirst, hitems] at hbs
  have hcoded := hbs
  rw [hlayout, append_assoc] at hcoded
  obtain ⟨instrs, rest, hinstrs, -, -⟩ := bytesFrom_append_ok.1 hcoded
  have haddr := htight.addr
  rw [← bytesFrom_length htight.exact hinstrs, start_acts, hfirst] at haddr
  simp only [hlabels]
  refine ⟨placed_defns hcourse.placed, fun q hq => ?_, fun q hq hsome => ?_, ?_, hcourse.apart hfits⟩
  · obtain ⟨-, -, n, hn, -⟩ := (placed_seats hcourse.placed).placed q hq
    exact Ty.extent_cases _ hn
  · obtain ⟨pre, post, rfl, hstands⟩ := hcourse.filled_at hopened hfits hq hsome hbs
    exact ⟨pre, post, rfl, hfirst ▸ hstands⟩
  · refine ⟨_, (initialised ps).map Placed.item ++ js, instrs, by rw [hitems, hlayout, append_assoc], fun i hi => ?_,
      hfirst ▸ hlabels ▸ hinstrs, fun q hq hnone => ?_⟩
    · obtain hi | hi := mem_append.1 hi
      · obtain ⟨q, hq, rfl⟩ := mem_map.1 hi
        obtain ⟨initial, -, hitem⟩ := hinit q hq
        exact (initialItem_width hitem).1
      · exact (hjs i hi).1
    · rw [← haddr]
      exact hcourse.stands hfits hq hnone

/-- A table, a word, a location without a value and one with an address, behind a routine of one instruction. -/
def shelves : Program :=
  { defns := [⟨0, "t", none, some (.values [1, 2])⟩, ⟨0, "u", none, none⟩, ⟨0, "w", none, some (.value 258)⟩,
      ⟨0, "io", some 0xd020, none⟩],
    routines := [⟨0, "main", none, [], some (.cons (.op 0 .nop) (.nil 0)), false⟩] }

/-- The symbols of the program. -/
def shelvesSymbols : Symbols :=
  ((((Symbols.initial.declare "t" ⟨.builtin, .table .byte 3⟩).declare "u" ⟨.builtin, .byte⟩).declare "w" ⟨.builtin, .word⟩).declare
    "io" ⟨.builtin, .byte⟩).declare "main" ⟨.builtin, .routine {}⟩

theorem shelves_laid_out :
    ∃ image code, Image.ofProgram shelvesSymbols shelves none (some "prg") (some 0xc000) = .ok image
      ∧ image.bytes = .ok code
      ∧ ∃ pre post, code = [0x00, 0xc0] ++ (pre ++ [1, 2, 0] ++ post)
        ∧ image.layout.emitter.labels.entry 0 = ⟨"t", some (0xc000 + pre.length), some 3⟩ := by
  refine ⟨_, _, rfl, rfl, ?_⟩
  obtain ⟨-, -, hfilled, -⟩ :=
    @Image.storage_laid_out shelvesSymbols shelves none (some "prg") (some 0xc000) Format.prg _ _ _ _ _ rfl rfl rfl rfl (by decide)
  exact hfilled ⟨⟨0, "t", none, some (.values [1, 2])⟩, .table .byte 3, 0⟩ mem_cons_self rfl

/-- A table of four words, the first of them with a value, and a byte. -/
def shortTable : Program :=
  { defns := [⟨0, "w", none, some (.value 1)⟩, ⟨0, "b", none, some (.value 7)⟩],
    routines := [⟨0, "main", none, [], some (.nil 0), false⟩] }

/-- The symbols of the program. -/
def shortTableSymbols : Symbols :=
  ((Symbols.initial.declare "w" ⟨.builtin, .table .word 4⟩).declare "b" ⟨.builtin, .byte⟩).declare "main" ⟨.builtin, .routine {}⟩

/-- The table is eight bytes long by its type, and the byte stands in the middle of it. -/
theorem shortTable_overlaps :
    (shortTable.analyse shortTableSymbols).2.isOk = true
      ∧ ∃ image, Image.ofProgram shortTableSymbols shortTable none (some "raw") none = .ok image
        ∧ image.bytes = .ok [0x60, 1, 0, 0, 0, 7] ∧ Ty.length (.table .word 4) = .ok 8
        ∧ (image.layout.emitter.labels.entry 0).addr = some 1 ∧ (image.layout.emitter.labels.entry 1).addr = some 5 :=
  ⟨rfl, _, rfl, rfl, rfl, rfl, rfl⟩

/-- A table of two bytes with three values moves what comes after it away from its label. -/
example : ((Image.ofProgram
      ((Symbols.initial.declare "t" ⟨.builtin, .table .byte 2⟩).declare "b" ⟨.builtin, .byte⟩)
      { defns := [⟨0, "t", none, some (.values [1, 2, 3])⟩, ⟨0, "b", none, some (.value 7)⟩],
        routines := [⟨0, "main", none, [], some (.nil 0), false⟩] } none (some "raw") none).toOption.bind fun image => do
      let a ← (image.layout.emitter.labels.entry 1).addr
      let code ← image.bytes.toOption
      pure (a, code)) = some (3, [0x60, 1, 2, 3, 7]) := by decide +kernel

end CheckedAsm
