import CheckedAsm.Proofs.Analysis.Walk
import CheckedAsm.Proofs.Values.Path
/-! # Values and single operations

An operation that was accepted changes what the context knows about values exactly as its effect says: a
location holds a value afterwards if it did before or is set, and is not spoiled; and the operation touches
what it sets and what it spoils. What it uses holds a value beforehand, except where it stores a location
into itself: there the location has been given a value before it is looked at. -/

namespace CheckedAsm

open List

variable {s : Setting} {cx cx' cx1 : Context} {d r : Ref} {rs sets : List Ref} {range : Range} {t : Ty} {env : Pointees} {op : Op}

namespace Context

variable {q : Ref} {spoils : List Ref}

/-- How a context comes about from another by setting some locations and spoiling some. -/
structure Effect (sets spoils : List Ref) (cx cx' : Context) : Prop where
  meaningful : ∀ r, cx'.isMeaningful r = true ↔ (cx.isMeaningful r = true ∨ r ∈ sets) ∧ r ∉ spoils
  touched : ∀ r, r ∈ cx'.touched ↔ r ∈ cx.touched ∨ r ∈ sets ∨ r ∈ spoils
  assoc : cx'.assoc = cx.assoc
  gotos : cx'.gotos = cx.gotos

theorem Effect.refl (cx : Context) : Effect [] [] cx cx := ⟨by simp, by simp, rfl, rfl⟩

theorem getAssoc_congr (h : cx'.assoc = cx.assoc) : cx'.getAssoc = cx.getAssoc := by
  funext p
  rw [getAssoc, getAssoc, h]

theorem assoc_touchAll : (cx.touchAll rs).assoc = cx.assoc := foldl_keeps touch assoc fun _ _ => rfl

theorem gotos_touchAll : (cx.touchAll rs).gotos = cx.gotos := foldl_keeps touch gotos fun _ _ => rfl

theorem isMeaningful_of_write (h : cx.write s rs = .ok cx') :
    cx'.isMeaningful r = true ↔ cx.isMeaningful r = true ∨ r ∈ rs := by
  obtain ⟨-, -, -, -, hsome, hranges⟩ := write_ok h
  simp only [isMeaningful_eq]
  rcases hranges r with heq | ⟨hr, hnone, -⟩
  · rw [heq]
    refine ⟨.inl, ?_⟩
    rintro (h | h)
    · exact h
    · exact heq ▸ hsome r h
  · simp [hr, hsome r hr]

theorem effect_write (h : cx.write s rs = .ok cx') : Effect rs [] cx cx' := by
  have hvalues := fun r => isMeaningful_of_write (r := r) h
  have htouched := (write_ok h).2.1
  rw [write, bind_eq_ok] at h
  obtain ⟨⟨⟩, -, h⟩ := h
  obtain ⟨same, -⟩ := makeAllMeaningful_ok h
  exact ⟨fun r => by simp [hvalues], fun r => by simp [htouched], same.assoc.trans assoc_touchAll,
    same.gotos.trans gotos_touchAll⟩

theorem isMeaningful_putRange : (cx.putRange q range).isMeaningful r = true ↔ cx.isMeaningful r = true ∨ r = q := by
  by_cases hq : q = r <;> simp [isMeaningful_eq, hq, eq_comm (a := r)]

theorem isMeaningful_spoil :
    (cx.spoil q).isMeaningful r = true ↔ cx.isMeaningful r = true ∧ r ≠ q := by
  by_cases hq : q = r <;> simp [isMeaningful_eq, hq, eq_comm (a := r)]

theorem isMeaningful_forget :
    (cx.forget q).isMeaningful r = true ↔ cx.isMeaningful r = true ∧ r ≠ q := by
  by_cases hq : q = r <;> simp [isMeaningful_eq, hq, eq_comm (a := r)]

/-- The range of a location that is set makes no difference. -/
theorem Effect.putRange (h : Effect sets [] cx cx') (hd : d ∈ sets) : Effect sets [] cx (cx'.putRange d range) := by
  refine ⟨fun r => ?_, h.touched, h.assoc, h.gotos⟩
  rw [isMeaningful_putRange, h.meaningful]
  constructor
  · rintro (h | rfl)
    · exact h
    · exact ⟨.inr hd, by simp⟩
  · exact .inl

theorem Effect.of_putRange (h : Effect sets [] (cx.putRange d range) cx') (hd : d ∈ sets) : Effect sets [] cx cx' := by
  refine ⟨fun r => ?_, h.touched, h.assoc, h.gotos⟩
  rw [h.meaningful, isMeaningful_putRange]
  constructor
  · rintro ⟨(h | rfl) | h, hn⟩
    · exact ⟨.inl h, hn⟩
    · exact ⟨.inr hd, hn⟩
    · exact ⟨.inr h, hn⟩
  · rintro ⟨h | h, hn⟩
    · exact ⟨.inl (.inl h), hn⟩
    · exact ⟨.inr h, hn⟩

/-- What is spoiled first and set afterwards is set. -/
theorem Effect.of_spoil (h : Effect sets [] (cx.spoil q) cx') :
    Effect sets (if q ∈ sets then [] else [q]) cx cx' := by
  refine ⟨fun r => ?_, fun r => ?_, h.assoc, h.gotos⟩
  · rw [h.meaningful, isMeaningful_spoil]
    by_cases hq : q ∈ sets
    · have hne : r ∉ sets → r ≠ q := fun hr heq => hr (heq ▸ hq)
      by_cases hr : r ∈ sets <;> simp [hq, hr, hne]
    · have hne : r ∈ sets → r ≠ q := fun hr heq => hq (heq ▸ hr)
      by_cases hr : r ∈ sets <;> simp [hq, hr, hne]
  · rw [h.touched, mem_touched_spoil]
    by_cases hq : q ∈ sets
    · have hmem : r = q → r ∈ sets := fun heq => heq ▸ hq
      by_cases hr : r ∈ sets
      · simp [hr]
      · have hne : r ≠ q := fun heq => hr (hmem heq)
        simp [hq, hr, hne]
    · by_cases hr : r = q <;> simp [hq, hr]

/-- Setting some locations before anything else. -/
theorem Effect.after_sets {first : List Ref} (h : Effect first [] cx cx1) (h' : Effect sets spoils cx1 cx') :
    Effect (first ++ sets) spoils cx cx' := by
  refine ⟨fun r => ?_, fun r => ?_, h'.assoc.trans h.assoc, h'.gotos.trans h.gotos⟩
  · rw [h'.meaningful, h.meaningful]
    simp [or_assoc]
  · rw [h'.touched, h.touched]
    simp [or_assoc]

/-- Spoiling some locations after everything else. -/
theorem Effect.then_spoils {last : List Ref} (h : Effect sets spoils cx cx1) (h' : Effect [] last cx1 cx') :
    Effect sets (spoils ++ last) cx cx' := by
  refine ⟨fun r => ?_, fun r => ?_, h'.assoc.trans h.assoc, h'.gotos.trans h.gotos⟩
  · rw [h'.meaningful, h.meaningful]
    simp [and_assoc]
  · rw [h'.touched, h.touched]
    simp [or_assoc]

theorem Effect.congr {sets' : List Ref} (h : Effect sets spoils cx cx') (hsame : ∀ r, r ∈ sets ↔ r ∈ sets') :
    Effect sets' spoils cx cx' :=
  ⟨fun r => by rw [h.meaningful, hsame], fun r => by rw [h.touched, hsame], h.assoc, h.gotos⟩

/-! ### Checks -/

theorem requireRange_ok {rule : Rule} {note : Option String} (h : cx.requireRange s rule note r = .ok ()) :
    cx.isMeaningful r = true := by
  unfold requireRange at h
  split at h
  · assumption
  · cases h

/-- The locations named in an operand have values where the operand is required to have one. -/
theorem isMeaningful_of_assert {rule : Rule} {note : Option String} :
    ∀ {r : Ref}, cx.assertMeaningfulAs s rule note r = .ok () →
      ∀ q ∈ r.leaves, s.isStorage q = true → cx.isMeaningful q = true
  | .constant c, _ => by simp [Ref.leaves]
  | .location n, h => by
    simp only [Ref.leaves, mem_singleton, forall_eq]
    intro hstorage
    simp only [assertMeaningfulAs] at h
    split at h
    · exact requireRange_ok h
    · next hlocal =>
      simp only [Setting.isStorage, hlocal, Bool.false_or] at hstorage
      split at h
      · cases h
      · next hconstant => simp [hconstant] at hstorage
      · exact requireRange_ok h
  | .pending n site, h => by
    simp only [Ref.leaves, mem_singleton, forall_eq]
    intro _
    simp only [assertMeaningfulAs] at h
    split at h
    · exact requireRange_ok h
    · cases h
  | .indexed base offset index, h => by
    simp only [assertMeaningfulAs, bind_eq_ok] at h
    obtain ⟨⟨⟩, hbase, hindex⟩ := h
    intro q hq
    simp only [Ref.leaves, mem_append] at hq
    rcases hq with hq | hq
    · exact isMeaningful_of_assert hbase q hq
    · exact isMeaningful_of_assert hindex q hq
  | .indirect base, h => by cases h

/-- A typed operand that is storage has a value where it is required to have one. -/
theorem isMeaningful_of_typed (hty : s.typeOf r = .ok t) (h : cx.assertMeaningful s r = .ok ())
    (hr : s.isStorage r = true) : cx.isMeaningful r = true := by
  refine isMeaningful_of_assert h r ?_ hr
  cases r with
  | constant => cases hr
  | location => simp [Ref.leaves]
  | _ => cases hty

theorem assertAllMeaningful_ok (h : cx.assertAllMeaningful s rs = .ok ()) :
    ∀ r ∈ rs, cx.assertMeaningful s r = .ok () := forM_eq_ok.1 h

end Context

namespace Focus

open Context

variable {f : Focus} {src base offset index : Ref}

/-! ### Effects -/

theorem widens_effect (h : f.Widens cx (d :: rs) d cx') : Effect (d :: rs) [] cx cx' := by
  obtain ⟨cx1, range, hw, -, rfl⟩ := h
  exact (effect_write hw).putRange (by simp)

theorem writeTarget_effect (h : f.writeTarget cx base = .ok cx') :
    Effect ((Ref.indirect base).struck cx.getAssoc) [] cx cx' := by
  obtain ⟨table, hassoc, hw⟩ := writeTarget_ok h
  simp only [Ref.struck, hassoc, Option.toList_some]
  exact effect_write hw

theorem struck_of_typed (h : s.typeOf d = .ok t) : d.struck env = [d] := by
  cases d with
  | indexed | indirect => cases h
  | _ => rfl

/-- The accumulator is spoiled by a sum, unless the source is a cell or the result goes there. -/
theorem sum_effect (hs : SumOperands f cx cx1 d src) (hsum : f.Widens cx1 [d, .z, .n, .c, .v] d cx') :
    Effect [d, .z, .n, .c, .v] (if src.cell?.isSome || d = .a then [] else [.a]) cx cx' := by
  have heffect := widens_effect hsum
  have hspoiled : cx1 = cx.spoil .a → ∀ t, f.setting.typeOf src = .ok t →
      Effect [d, .z, .n, .c, .v] (if src.cell?.isSome || d = .a then [] else [.a]) cx cx' := by
    rintro rfl t hty
    have hcell : src.cell? = none := by
      cases src with
      | indexed => cases hty
      | _ => rfl
    have h := heffect.of_spoil
    by_cases hd : d = .a
    · simpa [hd] using h
    · have hnot : Ref.a ∉ [d, .z, .n, .c, .v] := by
        simp only [mem_cons, not_mem_nil, or_false, not_or]
        exact ⟨Ne.symm hd, by decide, by decide, by decide, by decide⟩
      rw [if_neg hnot] at h
      simpa [hd, hcell] using h
  rcases hs with ⟨b, o, i, rfl, -, rfl⟩ | ⟨hty, -, ⟨rfl, rfl⟩ | ⟨-, rfl⟩⟩ | ⟨hty, -, rfl⟩
  · exact heffect
  · simpa using heffect
  · exact hspoiled rfl _ hty
  · exact hspoiled rfl _ hty

/-- A cell of a table is written and then the flags, or a byte together with them. -/
theorem cell_effect {flags : List Ref} (htab : f.writeTable cx base offset index = .ok cx1)
    (hw : cx1.write f.setting (base :: flags) = .ok cx') : Effect (base :: flags) [] cx cx' :=
  ((effect_write (writeTable_ok htab).2.2.2).after_sets (effect_write hw)).congr (by simp)

theorem copies_effect (h : Copies f cx cx1 src d) : Effect (d.struck cx.getAssoc) [] cx cx1 := by
  cases h with
  | fromIndirect _ _ hw | fromCell _ _ _ _ hw | toCell _ _ _ _ hw | toLocation _ _ _ hw =>
    exact effect_write hw
  | betweenIndirect _ hw | toIndirect _ _ hw => exact writeTarget_effect hw

theorem copied_effect (h : Effect sets [] cx cx1) : Effect sets [.a, .z, .n] cx (copied cx1) := by
  have hforget : ∀ (rs : List Ref) (cx : Context), (cx.forgetAll rs).touched = cx.touched
      ∧ (cx.forgetAll rs).assoc = cx.assoc ∧ (cx.forgetAll rs).gotos = cx.gotos := by
    intro rs
    induction rs with
    | nil => exact fun _ => ⟨rfl, rfl, rfl⟩
    | cons r rs ih => exact fun cx => ih _
  refine ⟨fun r => ?_, fun r => ?_, ?_, ?_⟩
  · have hm := h.meaningful r
    simp only [isMeaningful_eq] at hm ⊢
    rw [copied, range?_forgetAll, range?_touchAll]
    by_cases hr : r ∈ [Ref.a, .z, .n]
    · simp [hr]
    · rw [if_neg hr, hm]
      simp [hr]
  · rw [copied, (hforget _ _).1, mem_touched_touchAll, h.touched]
    simp [or_assoc]
  · rw [copied, (hforget _ _).2.1, assoc_touchAll, h.assoc]
  · rw [copied, (hforget _ _).2.2, gotos_touchAll, h.gotos]

/-- An accepted operation has the effect that its kind and its operands say. -/
theorem Accepts.effect (h : Accepts f cx op cx') : Effect (op.sets cx.getAssoc) (op.spoils f.setting) cx cx' := by
  cases h with
  | loadCell hw | loadBehind hw | compareCell hw | andCell hw => exact effect_write hw
  | load hc hw =>
    obtain ⟨range, -, rfl⟩ := copyRange_ok hc
    exact (effect_write hw).of_putRange (by simp)
  | storeCell hw => exact effect_write (writeTable_ok hw).2.2.2
  | storeBehind hw => exact writeTarget_effect hw
  | store hw hty =>
    rw [Op.sets, struck_of_typed hty]
    exact effect_write hw
  | add hs hw | sub hs hw => exact sum_effect hs hw
  | compareBytes hw hty => simpa [Op.sets, Op.spoils, Setting.isWord, hty] using effect_write hw
  | compareWords hw hty =>
    have heffect := (effect_write hw).of_spoil
    rw [if_neg (by decide)] at heffect
    simpa [Op.sets, Op.spoils, Setting.isWord, hty] using heffect
  | and hw => exact (effect_write hw).putRange (by simp)
  | or hw | xor hw => exact widens_effect hw
  | incCell htab hw | decCell htab hw | shlCell htab hw | shrCell htab hw => exact cell_effect htab hw
  | inc hw hty | dec hw hty =>
    rw [Op.sets, struck_of_typed hty]
    exact (effect_write hw).putRange (by simp)
  | shl hw hty | shr hw hty =>
    rw [Op.sets, struck_of_typed hty]
    exact widens_effect hw
  | copy hcopies => exact copied_effect (copies_effect hcopies)
  | trash => exact (Effect.refl (cx.spoil _)).of_spoil
  | nop => exact .refl cx

theorem single_effect (h : f.single cx op = .ok cx') : Effect (op.sets cx.getAssoc) (op.spoils f.setting) cx cx' :=
  (single_accepts h).effect

/-! ### Uses -/

/-- The locations of the list that are storage have values. -/
def Known (f : Focus) (cx : Context) (rs : List Ref) : Prop :=
  ∀ r ∈ rs, f.setting.isStorage r = true → cx.isMeaningful r = true

theorem known_append {rs' : List Ref} : f.Known cx (rs ++ rs') ↔ f.Known cx rs ∧ f.Known cx rs' :=
  forall_mem_append

/-- A reference that is required to have a value is not read through a pointer. -/
theorem known_read (h : cx.assertMeaningful f.setting r = .ok ()) : f.Known cx (r.read env) := by
  cases r with
  | indirect => cases h
  | _ => exact isMeaningful_of_assert h

theorem known_reach_indexed (h : cx.assertMeaningful f.setting index = .ok ())
    (hrange : cx.assertInRange f.setting index base offset = .ok ()) :
    f.Known cx (Ref.indexed base offset index).reach := by
  obtain ⟨i, tb, c, lo, hi, least, greatest, rfl, -⟩ := assertInRange_ok hrange
  exact isMeaningful_of_assert h

/-- What is needed to go through a pointer. -/
theorem known_reach_indirect (hty : f.setting.typeOf base = .ok .pointer)
    (hbase : cx.assertMeaningful f.setting base = .ok ()) (hy : cx.assertMeaningful f.setting .y = .ok ()) :
    f.Known cx (Ref.indirect base).reach := by
  change f.Known cx ([base] ++ [.y])
  refine known_append.2 ⟨?_, isMeaningful_of_assert hy⟩
  simp only [Known, mem_singleton, forall_eq]
  exact isMeaningful_of_typed hty hbase

/-- What is needed to read through a pointer. -/
theorem known_read_indirect (hty : f.setting.typeOf base = .ok .pointer)
    (hbase : cx.assertMeaningful f.setting base = .ok ()) (hy : cx.assertMeaningful f.setting .y = .ok ())
    (horigin : f.readOrigin cx base = .ok ()) : f.Known cx ((Ref.indirect base).read cx.getAssoc) := by
  change f.Known cx ((Ref.indirect base).reach ++ _)
  refine known_append.2 ⟨known_reach_indirect hty hbase hy, ?_⟩
  unfold readOrigin at horigin
  cases hassoc : cx.getAssoc base with
  | none => simp [hassoc] at horigin
  | some table =>
    simp only [hassoc] at horigin
    simpa [Known] using isMeaningful_of_assert horigin

theorem load_reads (h : Accepts f cx (.ld d src) cx') : f.Known cx (src.read cx.getAssoc) := by
  cases h with
  | loadCell _ hr => exact known_read (assertAllMeaningful_ok (readTable_ok hr).2.2.1 _ (by simp))
  | loadBehind _ _ hb hall horigin =>
    have hall := assertAllMeaningful_ok hall
    exact known_read_indirect hb (hall _ (by simp)) (hall _ (by simp)) horigin
  | load _ _ _ _ hm => exact known_read hm

/-- What a store needs: its source has a value once the store is made, so it had one before unless it is
what the store gives a value. -/
theorem store_reads (h : Accepts f cx (.st src d) cx') (hself : (Op.st src d).storesItself cx.getAssoc = false) :
    f.Known cx (src.read cx.getAssoc ++ d.reach) := by
  have heffect : Effect (d.struck cx.getAssoc) [] cx cx' := h.effect
  have hsource : ∀ t, f.setting.typeOf src = .ok t → cx'.assertMeaningful f.setting src = .ok () →
      f.Known cx (src.read cx.getAssoc) := by
    intro t hty hm r hr hstorage
    obtain rfl : r = src := by
      cases src with
      | location => simpa [Ref.read, Ref.leaves] using hr
      | constant => simp [Ref.read, Ref.leaves] at hr
      | _ => cases hty
    have hafter := (heffect.meaningful r).1 (isMeaningful_of_typed hty hm hstorage)
    refine hafter.1.resolve_right fun hset => ?_
    simp [Op.storesItself, hset] at hself
  cases h with
  | storeCell hw hs hm =>
    obtain ⟨-, hindex, hrange, -⟩ := writeTable_ok hw
    exact known_append.2 ⟨hsource _ hs hm, known_reach_indexed hindex hrange⟩
  | storeBehind _ hs hb hall hm =>
    have hall := assertAllMeaningful_ok hall
    exact known_append.2 ⟨hsource _ hs hm, known_reach_indirect hb (hall _ (by simp)) (hall _ (by simp))⟩
  | store _ hd hs hm =>
    have hreach : d.reach = [] := by
      cases d with
      | indexed | indirect => cases hd
      | _ => rfl
    rw [hreach, append_nil]
    exact hsource _ hs hm

theorem copies_reads (h : Copies f cx cx1 src d) : f.Known cx (src.read cx.getAssoc ++ d.reach) := by
  cases h with
  | fromIndirect hb _ _ hall horigin =>
    have hall := assertAllMeaningful_ok hall
    exact known_append.2 ⟨known_read_indirect hb (hall _ (by simp)) (hall _ (by simp)) horigin, by simp [Known, Ref.reach]⟩
  | betweenIndirect hto _ hfrom hall horigin =>
    have hall := assertAllMeaningful_ok hall
    have hy := hall .y (by simp)
    exact known_append.2 ⟨known_read_indirect hfrom (hall _ (by simp)) hy horigin, known_reach_indirect hto (hall _ (by simp)) hy⟩
  | toIndirect _ hb _ hall =>
    have hall := assertAllMeaningful_ok hall
    exact known_append.2 ⟨known_read (hall _ (by simp)), known_reach_indirect hb (hall _ (by simp)) (hall _ (by simp))⟩
  | fromCell _ _ _ _ _ hall =>
    have hall := assertAllMeaningful_ok hall
    simp only [Ref.reach, append_nil]
    exact known_append.2 ⟨isMeaningful_of_assert (hall _ (by simp)), isMeaningful_of_assert (hall _ (by simp))⟩
  | toCell _ _ _ hrange _ hall =>
    have hall := assertAllMeaningful_ok hall
    exact known_append.2 ⟨known_read (hall _ (by simp)), known_reach_indexed (hall _ (by simp)) hrange⟩
  | toLocation _ _ _ _ hm => exact known_append.2 ⟨known_read hm, by simp [Known, Ref.reach]⟩

/-- The first thing that sums, comparisons and shifts do is to look at their operands. -/
theorem known_reads (env : Pointees) (h : cx.assertAllMeaningful f.setting rs = .ok ()) :
    f.Known cx (rs.flatMap (Ref.read env)) := by
  intro q hq
  obtain ⟨r, hr, hq⟩ := mem_flatMap.1 hq
  exact known_read (assertAllMeaningful_ok h r hr) q hq

/-- What an accepted operation uses has a value beforehand, unless it stores a location into itself. -/
theorem single_reads (h : f.single cx op = .ok cx') (hself : op.storesItself cx.getAssoc = false) :
    f.Known cx (op.reads cx.getAssoc) := by
  have hgo := single_ok_terminated h
  unfold single at h
  rw [if_neg (by simp [hgo])] at h
  cases op with
  | ld d src => exact load_reads (load_accepts h)
  | st src d => exact store_reads (store_accepts h) hself
  | add d src =>
    simp only [add, bind_eq_ok] at h
    obtain ⟨⟨⟩, hall, -⟩ := h
    simpa [Op.reads, Ref.read, Ref.c, Ref.leaves] using known_reads cx.getAssoc hall
  | sub d src =>
    simp only [sub, bind_eq_ok] at h
    obtain ⟨⟨⟩, hall, -⟩ := h
    simpa [Op.reads, Ref.read, Ref.c, Ref.leaves] using known_reads cx.getAssoc hall
  | cmp d src =>
    simp only [compare, bind_eq_ok] at h
    obtain ⟨⟨⟩, hall, -⟩ := h
    simpa [Op.reads] using known_reads cx.getAssoc hall
  | and d src =>
    simp only [conjoin, bitwise, bind_eq_ok] at h
    obtain ⟨cx1, ⟨⟨⟩, -, ⟨⟩, hall, -⟩, -⟩ := h
    simpa [Op.reads] using known_reads cx.getAssoc hall
  | or d src | xor d src =>
    simp only [disjoin, bitwise, bind_eq_ok] at h
    obtain ⟨cx1, ⟨⟨⟩, -, ⟨⟩, hall, -⟩, -⟩ := h
    simpa [Op.reads] using known_reads cx.getAssoc hall
  | inc d | dec d =>
    simp only [count, bind_eq_ok] at h
    obtain ⟨⟨⟩, hm, -⟩ := h
    exact known_read hm
  | shl d | shr d =>
    simp only [shift, bind_eq_ok] at h
    obtain ⟨⟨⟩, hall, -⟩ := h
    simpa [Op.reads, Ref.read, Ref.c, Ref.leaves] using known_reads cx.getAssoc hall
  | copy src d =>
    obtain ⟨-, cx1, hcopies, -⟩ := copy_ok h
    exact copies_reads hcopies
  | trash d | nop => simp [Known, Op.reads]

end Focus

end CheckedAsm
