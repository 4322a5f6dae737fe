import CheckedAsm.Proofs.Codegen.Storage
/-! # Cells of tables of words

A table of words or vectors has two bytes for each of its elements. A copy finds the lower byte of an element as far from the
beginning of the table as the element's number says, and its upper byte 256 places further on. This fits tables of exactly 256
elements. In a shorter table the upper bytes of the last elements, or of all of them, lie behind the table; in a
longer one the upper byte of an element is the lower byte of another. -/

namespace CheckedAsm

open Codegen List

variable {cs : CodeSetting} {index offset : Ref} {id : LabelId} {o : Operand × Operand} {ls : Labels}

namespace Codegen

variable {src dest base : Ref} {ks : List Code}

theorem copy_from_cell (h : copy cs (.indexed base offset index) dest = .ok ks) :
    ∃ id o d, cs.labelOf base = .ok id ∧ cellBytes id offset index = .ok o ∧ ks = moveBoth o d := by
  cases copy_code h with
  | behind _ hs | byte _ _ hs =>
    cases hs with
    | location _ ht => cases ht
  | cell _ _ hs | pair _ _ _ hs =>
    cases hs with
    | cell hid ho => exact ⟨_, _, _, hid, ho, rfl⟩
    | address _ ht | location _ ht => cases ht

theorem copy_to_cell (h : copy cs src (.indexed base offset index) = .ok ks) :
    ∃ id o s, cs.labelOf base = .ok id ∧ cellBytes id offset index = .ok o ∧ ks = moveBoth s o := by
  cases copy_code h with
  | cell hid ho => exact ⟨_, _, _, hid, ho, rfl⟩
  | byte _ ht => cases ht
  | pair _ ht => cases ht

end Codegen

/-- What a register that serves as an index holds. -/
def Ref.indexValue? (σ : Cpu) (index : Ref) : Option UInt8 :=
  if index = .x then some σ.x else if index = .y then some σ.y else none

/-- The address that an indexed operand leads to, as a number that may lie beyond the end of the memory. -/
def Operand.reach? (ls : Labels) (σ : Cpu) : Operand → Option Int
  | absoluteX t => some (t.place ls + σ.x.toNat)
  | absoluteY t => some (t.place ls + σ.y.toNat)
  | _ => none

theorem Codegen.cellBytes_reach (ls : Labels) (σ : Cpu) (h : cellBytes id offset index = .ok o) :
    ∃ c v, offset = .constant c ∧ index.indexValue? σ = some v
      ∧ o.1.reach? ls σ = some (ls.place id + (c.value + v.toNat))
      ∧ o.2.reach? ls σ = some (ls.place id + (c.value + v.toNat) + 256) := by
  simp only [cellBytes, bind_eq_ok, pure_eq_ok] at h
  obtain ⟨mode, hmode, d, hd, rfl⟩ := h
  cases offset with
  | constant c =>
    cases hd
    unfold indexMode at hmode
    split at hmode
    case isTrue hx =>
      cases hmode
      refine ⟨c, σ.x, rfl, if_pos hx, ?_, ?_⟩
      all_goals
        simp only [Operand.reach?, Target.place, Target.id, Target.distance, Option.some.injEq]
        omega
    case isFalse hx =>
      split at hmode
      case isTrue hy =>
        cases hmode
        refine ⟨c, σ.y, rfl, by rw [Ref.indexValue?, if_neg hx, if_pos hy], ?_, ?_⟩
        all_goals
          simp only [Operand.reach?, Target.place, Target.id, Target.distance, Option.some.injEq]
          omega
      case isFalse => cases hmode
  | _ => cases hd

/-- A copy for which there is code takes or sets an element of the table at a label: the one whose number is the constant offset
and the index register together. Its code moves two bytes, those at the two addresses. -/
def CodeSetting.Reaches (cs : CodeSetting) (ls : Labels) (table : LabelId) (i low high : Int) : Prop :=
  ∃ (src dest base index : Ref) (c : Const) (ks : List Code) (σ : Cpu) (v : UInt8) (o other : Operand × Operand),
    copy cs src dest = .ok ks
      ∧ (src = .indexed base (.constant c) index ∧ ks = moveBoth o other
        ∨ dest = .indexed base (.constant c) index ∧ ks = moveBoth other o)
      ∧ cs.labelOf base = .ok table ∧ index.indexValue? σ = some v ∧ i = c.value + v.toNat
      ∧ o.1.reach? ls σ = some low ∧ o.2.reach? ls σ = some high

theorem moveBoth_inj {o' d d' : Operand × Operand} (h : moveBoth o d = moveBoth o' d') : o = o' ∧ d = d' := by
  obtain ⟨a, b⟩ := o
  obtain ⟨a', b'⟩ := o'
  obtain ⟨s, t⟩ := d
  obtain ⟨s', t'⟩ := d'
  cases h
  exact ⟨rfl, rfl⟩

/-- The two addresses of an element. -/
theorem CodeSetting.Reaches.addresses {table : LabelId} {i low high : Int}
    (h : cs.Reaches ls table i low high) : low = ls.place table + i ∧ high = ls.place table + i + 256 := by
  obtain ⟨src, dest, base, index, c, ks, σ, v, o, other, hcopy, hcell, hbase, hv, rfl, hlow, hhigh⟩ := h
  have hbytes : cellBytes table (.constant c) index = .ok o := by
    obtain ⟨rfl, rfl⟩ | ⟨rfl, rfl⟩ := hcell
    · obtain ⟨id, o', d, hid, ho, heq⟩ := copy_from_cell hcopy
      obtain rfl := Except.ok.inj (hbase.symm.trans hid)
      rw [(moveBoth_inj heq).1, ho]
    · obtain ⟨id, o', s, hid, ho, heq⟩ := copy_to_cell hcopy
      obtain rfl := Except.ok.inj (hbase.symm.trans hid)
      rw [(moveBoth_inj heq).2, ho]
  obtain ⟨c', v', hc, hv', hlow', hhigh'⟩ := cellBytes_reach ls σ hbytes
  cases hc
  obtain rfl := Option.some.inj (hv.symm.trans hv')
  exact ⟨Option.some.inj (hlow.symm.trans hlow'), Option.some.inj (hhigh.symm.trans hhigh')⟩

/-- In the end every definition's label has its room as length. -/
theorem Program.Course.length {symbols : Symbols} {p : Program} {rows : List (List String)} {e e1 : Emitter} {L : Layout}
    {ps : List Placed} {st : CodeState} {as tr ds : List Emitter.Action} {q : Placed}
    (h : p.Course symbols rows e L e1 ps st as tr ds) (hq : q ∈ ps) :
    (L.emitter.labels.entry q.label).length = some q.room := by
  obtain ⟨hallots, -, hitems⟩ := h.allots
  by_cases hmem : q.label ∈ (initialised ps ++ unfilled ps).map (·.label)
  · obtain ⟨q', hq', hlabel⟩ := mem_map.1 hmem
    have hin : q' ∈ ps := (mem_append.1 hq').elim mem_of_mem_filter mem_of_mem_filter
    obtain rfl := inj_on_of_nodup_map (Program.placed_seats h.placed).nodup hin hq hlabel
    obtain ⟨us, vs, hsplit⟩ := append_of_mem hq'
    rw [hallots.seat us q' vs hsplit]
  · have hnone : q.defn.initial = none := by
      refine Option.not_isSome_iff_eq_none.1 fun hsome => hmem ?_
      exact mem_map_of_mem (mem_append_left _ (mem_initialised.2 ⟨hq, hsome⟩))
    rw [hallots.others _ hmem, (h.waits hitems hq).leaves hnone]

/-- In a program that was laid out, two different elements of a table of words or vectors are copied from or to. The lower byte of
each lies in the table, and the upper byte exactly where 256 more than the element's number is still less than the table's length. They
share no address exactly where their numbers are not 256 apart. A table of 256 elements without initial values has all
elements inside and apart. -/
theorem Program.word_cells {symbols : Symbols} {p : Program} {roster : Option (List (List String))} {e e₁ : Emitter} {L : Layout}
    {ps : List Placed} {q : Placed} {cell : Ty} {size : Int} {routine routine' : Option String} {i j low high low' high' : Int}
    (h : p.layOut symbols roster e = .ok L) (hplaced : p.placed symbols e = .ok (e₁, L.labels, ps)) (hq : q ∈ ps)
    (hty : q.ty = .table cell size) (hcell : cell ≠ .byte)
    (hi : CodeSetting.Reaches ⟨symbols, L.labels, routine⟩ L.emitter.labels q.label i low high)
    (hj : CodeSetting.Reaches ⟨symbols, L.labels, routine'⟩ L.emitter.labels q.label j low' high')
    (hi' : 0 ≤ i ∧ i < size) (hj' : 0 ≤ j ∧ j < size) (hne : i ≠ j) :
    let start := L.emitter.labels.place q.label
    ∃ length, (L.emitter.labels.entry q.label).length = some length
      ∧ (length = 2 * size ∨ q.defn.initial.isSome = true ∧ cell = .word ∧ length = size)
      ∧ (start ≤ low ∧ low < start + length)
      ∧ (start ≤ high ∧ high < start + length ↔ i + 256 < length)
      ∧ (low ≠ low' ∧ low ≠ high' ∧ high ≠ low' ∧ high ≠ high' ↔ i ≠ j + 256 ∧ j ≠ i + 256)
      ∧ (size = 256 → q.defn.initial = none →
        high < start + length ∧ low ≠ low' ∧ low ≠ high' ∧ high ≠ low' ∧ high ≠ high') := by
  obtain ⟨e₁', ps', st, as, tr, ds, hcourse⟩ := Program.layOut_course h
  obtain ⟨rfl, rfl⟩ := (by simpa using hplaced.symm.trans hcourse.placed : e₁ = e₁' ∧ ps = ps')
  obtain ⟨hlow, hhigh⟩ := hi.addresses
  obtain ⟨hlow', hhigh'⟩ := hj.addresses
  have hdouble : q.ty.length = .ok (size * 2) := by
    rw [hty]
    cases cell with
    | byte => exact (hcell rfl).elim
    | _ => rfl
  have hroom : q.room = 2 * size ∨ q.defn.initial.isSome = true ∧ cell = .word ∧ q.room = size := by
    obtain hroom | ⟨hsome, n, htable, hroom, -⟩ := Ty.extent_cases q.defn.initial.isSome hdouble
    · have hlength := Except.ok.inj (hdouble.symm.trans hroom)
      exact .inl (by rw [Placed.room, ← hlength, Int.mul_comm])
    · rw [hty] at htable
      cases htable
      exact .inr ⟨hsome, rfl, hroom⟩
  have hlong : size ≤ q.room := by
    obtain hroom | ⟨-, -, hroom⟩ := hroom <;> omega
  refine ⟨q.room, hcourse.length hq, hroom, by omega, by omega, by omega, fun hsize hnone => ?_⟩
  obtain hroom | ⟨hsome, -⟩ := hroom
  · omega
  · simp [hnone] at hsome

/-- A word and a table of so many words, and a routine that copies the first of these. -/
def fetching : Program :=
  { defns := [⟨0, "one", none, none⟩, ⟨0, "many", none, none⟩],
    routines := [⟨0, "main", none, [], some (.cons (.op 0 (.ld .x (.constant ⟨.byte, 0⟩)))
      (.cons (.op 0 (.copy (.indexed (.location "many") (.constant ⟨.byte, 0⟩) .x) (.location "one"))) (.nil 0))), false⟩] }

/-- What the routine says of itself. -/
def fetchingSignature : Signature where
  inputs := [⟨"many", none⟩]
  outputs := [⟨"one", none⟩]
  trashes := [⟨"a", none⟩, ⟨"n", none⟩, ⟨"x", none⟩, ⟨"z", none⟩]

/-- The symbols of the program. -/
def fetchingSymbols (size : Int) : Symbols :=
  ((Symbols.initial.declare "one" ⟨.builtin, .word⟩).declare "many" ⟨.builtin, .table .word size⟩).declare "main"
    ⟨.builtin, .routine fetchingSignature⟩

/-- A machine whose first index register holds a value. -/
def indexedBy (x : UInt8) : Cpu := ⟨0, x, 0, false, false, false, false, false, [], fun _ => 0⟩

theorem fetching_reaches (hls : ls.place 1 = 17) (size : Int) (v : UInt8) :
    CodeSetting.Reaches ⟨fetchingSymbols size, ⟨⟨[("one", 0), ("many", 1), ("main", 2)]⟩, ⟨[("main", ⟨[]⟩)]⟩⟩, some "main"⟩ ls 1
      v.toNat (17 + v.toNat) (273 + v.toNat) := by
  refine ⟨.indexed (.location "many") (.constant ⟨.byte, 0⟩) .x, .location "one", .location "many", .x, ⟨.byte, 0⟩, _,
    indexedBy v, v, (.absoluteX (.offset 1 0), .absoluteX (.offset 1 256)), _, rfl, .inl ⟨rfl, rfl⟩, rfl, rfl, ?_, ?_, ?_⟩
  · simp
  · simp [Operand.reach?, Target.place, Target.id, Target.distance, hls, indexedBy]
  · simp [Operand.reach?, Target.place, Target.id, Target.distance, hls, indexedBy]

theorem fetching_word_cells :
    ∃ L low high low' high', fetching.layOut (fetchingSymbols 256) none (Format.raw.opened 0) = .ok L
      ∧ CodeSetting.Reaches ⟨fetchingSymbols 256, L.labels, some "main"⟩ L.emitter.labels 1 0 low high
      ∧ CodeSetting.Reaches ⟨fetchingSymbols 256, L.labels, some "main"⟩ L.emitter.labels 1 255 low' high'
      ∧ low ≠ low' ∧ low ≠ high' ∧ high ≠ low' ∧ high ≠ high' := by
  refine ⟨_, 17, 273, 272, 528, rfl, fetching_reaches rfl 256 0, fetching_reaches rfl 256 255, ?_⟩
  obtain ⟨length, -, -, -, -, -, hfull⟩ :=
    @Program.word_cells (fetchingSymbols 256) fetching none (Format.raw.opened 0) _ _ _
      ⟨⟨0, "many", none, none⟩, .table .word 256, 1⟩ .word 256 (some "main") (some "main") 0 255 17 273 272 528 rfl rfl
      (mem_cons_of_mem _ mem_cons_self) rfl (by decide) (fetching_reaches rfl 256 0) (fetching_reaches rfl 256 255)
      (by decide) (by decide) (by decide)
  exact (hfull rfl rfl).2

/-- The table of eight words is sixteen bytes long, and the upper byte of its first element lies behind it. -/
theorem fetching_beyond_table :
    (fetching.analyse (fetchingSymbols 8)).2.isOk = true
      ∧ ∃ L, fetching.layOut (fetchingSymbols 8) none (Format.raw.opened 0) = .ok L
        ∧ L.emitter.labels.entry 1 = ⟨"many", some 17, some 16⟩
        ∧ CodeSetting.Reaches ⟨fetchingSymbols 8, L.labels, some "main"⟩ L.emitter.labels 1 0 17 273 ∧ ¬ 273 < 17 + 16 :=
  ⟨rfl, _, rfl, rfl, fetching_reaches rfl 8 0, by decide⟩

end CheckedAsm
