import CheckedAsm.Proofs.Analysis.Effects
import Mathlib.Logic.Basic
/-! # What an accepted operation has done

Each analysis of a single operation, read backwards: from its being accepted follow the types of the
operands, the checks that were made, and how the context came about. -/

namespace CheckedAsm

namespace Focus

/-! ### How operations are accepted -/

/-- How an addition or a subtraction gets at its operands: from a cell of a table, or from a constant or
location, and then the accumulator is spoiled unless it is the destination. -/
def SumOperands (f : Focus) (cx cx1 : Context) (d src : Ref) : Prop :=
  (∃ b o i, src = .indexed b o i ∧ f.readTable cx b o i d = .ok () ∧ cx1 = cx)
    ∨ (f.setting.typeOf src = .ok .byte ∧ f.setting.typeOf d = .ok .byte
      ∧ ((d = .a ∧ cx1 = cx) ∨ (d ≠ .a ∧ cx1 = cx.spoil .a)))
    ∨ (f.setting.typeOf src = .ok .word
      ∧ (f.setting.typeOf d = .ok .word ∨ f.setting.typeOf d = .ok .pointer) ∧ cx1 = cx.spoil .a)

/-- The ways in which a copy is accepted: the checks it passes and the context in which the copy has
written, before the accumulator and the flags are spoiled. -/
inductive Copies (f : Focus) (cx cx1 : Context) : Ref → Ref → Prop
  | fromIndirect {base : Ref} {name : String} : f.setting.typeOf base = .ok .pointer →
      f.setting.typeOf (.location name) = .ok .byte → cx.write f.setting [.location name] = .ok cx1 →
      cx.assertAllMeaningful f.setting [base, .y] = .ok () → f.readOrigin cx base = .ok () →
      Copies f cx cx1 (.indirect base) (.location name)
  | betweenIndirect {from_ to_ : Ref} : f.setting.typeOf to_ = .ok .pointer → f.writeTarget cx to_ = .ok cx1 →
      f.setting.typeOf from_ = .ok .pointer → cx.assertAllMeaningful f.setting [from_, to_, .y] = .ok () →
      f.readOrigin cx from_ = .ok () → Copies f cx cx1 (.indirect from_) (.indirect to_)
  | toIndirect {src base : Ref} : f.setting.typeOf src = .ok .byte →
      f.setting.typeOf base = .ok .pointer → f.writeTarget cx base = .ok cx1 →
      cx.assertAllMeaningful f.setting [src, base, .y] = .ok () → Copies f cx cx1 src (.indirect base)
  | fromCell {base offset index : Ref} {name : String} {t u : Ty} : f.setting.typeOf base = .ok t →
      f.setting.typeOf (.location name) = .ok u → fitsLocation t u = true →
      cx.assertInRange f.setting index base offset = .ok () →
      cx.write f.setting [.location name] = .ok cx1 → cx.assertAllMeaningful f.setting [base, index] = .ok () →
      Copies f cx cx1 (.indexed base offset index) (.location name)
  | toCell {src base offset index : Ref} {t u : Ty} : f.setting.typeOf src = .ok t →
      f.setting.typeOf base = .ok u → fitsCell t u = true →
      cx.assertInRange f.setting index base offset = .ok () → cx.write f.setting [base] = .ok cx1 →
      cx.assertAllMeaningful f.setting [src, base, index] = .ok () → Copies f cx cx1 src (.indexed base offset index)
  | toLocation {src : Ref} {name : String} {t u : Ty} : f.setting.typeOf src = .ok t →
      f.setting.typeOf (.location name) = .ok u →
      (t = u ∨ ∃ sig limit, t = .routine sig ∧ u = .vector (.routine limit)) →
      cx.write f.setting [.location name] = .ok cx1 → cx.assertMeaningful f.setting src = .ok () →
      Copies f cx cx1 src (.location name)

/-- Locations are written, and then one of them may have any value of its type. -/
def Widens (f : Focus) (cx : Context) (rs : List Ref) (d : Ref) (cx' : Context) : Prop :=
  ∃ cx1 range, cx.write f.setting rs = .ok cx1 ∧ f.setting.maxRange d = .ok range ∧ cx' = cx1.putRange d range

/-- One step from a value that is known exactly leads to another one, unless it wraps around. Else any value is possible. -/
def Steps (f : Focus) (cx : Context) (dir : Direction) (d : Ref) (range : Range) : Prop :=
  f.setting.maxRange d = .ok range ∨ ∃ n, cx.getRange f.setting d = .ok (.ofInts (n, n))
    ∧ range = .ofInts (n + dir.step, n + dir.step) ∧ (dir = .up → n < 255) ∧ (dir = .down → 0 < n)

/-- The ways in which an operation is accepted: what it writes, and the checks it passes. -/
inductive Accepts (f : Focus) (cx : Context) : Op → Context → Prop
  | loadCell : cx.write f.setting [d, .z, .n] = .ok cx' → f.readTable cx b o i d = .ok () →
      Accepts f cx (.ld d (.indexed b o i)) cx'
  | loadBehind : cx.write f.setting [d, .z, .n] = .ok cx' → f.setting.typeOf d = .ok .byte →
      f.setting.typeOf b = .ok .pointer → cx.assertAllMeaningful f.setting [b, .y] = .ok () → f.readOrigin cx b = .ok () →
      Accepts f cx (.ld d (.indirect b)) cx'
  | load : cx.copyRange f.setting src d = .ok cx1 → cx1.write f.setting [d, .z, .n] = .ok cx' →
      f.setting.typeOf d = .ok t → f.setting.typeOf src = .ok t → cx.assertMeaningful f.setting src = .ok () →
      Accepts f cx (.ld d src) cx'
  | storeCell : f.writeTable cx b o i = .ok cx' → f.setting.typeOf src = .ok .byte →
      cx'.assertMeaningful f.setting src = .ok () → Accepts f cx (.st src (.indexed b o i)) cx'
  | storeBehind : f.writeTarget cx b = .ok cx' → f.setting.typeOf src = .ok .byte →
      f.setting.typeOf b = .ok .pointer → cx.assertAllMeaningful f.setting [b, .y] = .ok () →
      cx'.assertMeaningful f.setting src = .ok () → Accepts f cx (.st src (.indirect b)) cx'
  | store : cx.write f.setting [d] = .ok cx' → f.setting.typeOf d = .ok t → f.setting.typeOf src = .ok t →
      cx'.assertMeaningful f.setting src = .ok () → Accepts f cx (.st src d) cx'
  | add : SumOperands f cx cx1 d src → f.Widens cx1 [d, .z, .n, .c, .v] d cx' → Accepts f cx (.add d src) cx'
  | sub : SumOperands f cx cx1 d src → f.Widens cx1 [d, .z, .n, .c, .v] d cx' → Accepts f cx (.sub d src) cx'
  | compareCell : cx.write f.setting [.z, .n, .c] = .ok cx' → f.readTable cx b o i d = .ok () →
      Accepts f cx (.cmp d (.indexed b o i)) cx'
  | compareBytes : cx.write f.setting [.z, .n, .c] = .ok cx' → f.setting.typeOf src = .ok .byte →
      f.setting.typeOf d = .ok .byte → Accepts f cx (.cmp d src) cx'
  | compareWords : (cx.spoil .a).write f.setting [.z, .n, .c] = .ok cx' → f.setting.typeOf src = .ok .word →
      f.setting.typeOf d = .ok .word → Accepts f cx (.cmp d src) cx'
  | andCell : cx.write f.setting [d, .z, .n] = .ok cx' → f.readByte cx d (.indexed b o i) = .ok () →
      Accepts f cx (.and d (.indexed b o i)) cx'
  | and : cx.write f.setting [d, .z, .n] = .ok cx' → f.readByte cx d src = .ok () →
      f.setting.typeOf src = .ok .byte → cx'.getRange f.setting src = .ok range → cx'.range? d = some own →
      Accepts f cx (.and d src) (cx'.putRange d ⟨own.bottom, range.top⟩)
  | or : f.Widens cx [d, .z, .n] d cx' → f.readByte cx d src = .ok () → Accepts f cx (.or d src) cx'
  | xor : f.Widens cx [d, .z, .n] d cx' → f.readByte cx d src = .ok () → Accepts f cx (.xor d src) cx'
  | incCell : f.writeTable cx b o i = .ok cx1 → cx1.write f.setting [b, .z, .n] = .ok cx' →
      Accepts f cx (.inc (.indexed b o i)) cx'
  | decCell : f.writeTable cx b o i = .ok cx1 → cx1.write f.setting [b, .z, .n] = .ok cx' →
      Accepts f cx (.dec (.indexed b o i)) cx'
  | inc : cx.write f.setting [d, .z, .n] = .ok cx' → f.setting.typeOf d = .ok .byte → f.Steps cx' .up d range →
      Accepts f cx (.inc d) (cx'.putRange d range)
  | dec : cx.write f.setting [d, .z, .n] = .ok cx' → f.setting.typeOf d = .ok .byte → f.Steps cx' .down d range →
      Accepts f cx (.dec d) (cx'.putRange d range)
  | shlCell : f.writeTable cx b o i = .ok cx1 → cx1.write f.setting [b, .z, .n, .c] = .ok cx' →
      Accepts f cx (.shl (.indexed b o i)) cx'
  | shrCell : f.writeTable cx b o i = .ok cx1 → cx1.write f.setting [b, .z, .n, .c] = .ok cx' →
      Accepts f cx (.shr (.indexed b o i)) cx'
  | shl : f.Widens cx [d, .z, .n, .c] d cx' → f.setting.typeOf d = .ok .byte → Accepts f cx (.shl d) cx'
  | shr : f.Widens cx [d, .z, .n, .c] d cx' → f.setting.typeOf d = .ok .byte → Accepts f cx (.shr d) cx'
  | copy : Copies f cx cx' src d → d ≠ .a → Accepts f cx (.copy src d) (copied cx')
  | trash : Accepts f cx (.trash d) (cx.spoil d)
  | nop : Accepts f cx .nop cx

end Focus

variable {b : Bound} {n : Int} {above below : Bool} {cx : Context} {index offset : Ref} {t : Ty} {name : String} {op : Op}

namespace Bound

theorem plus_ok {m : Int} (h : b.plus n = .ok m) : ∃ k, b = .int k ∧ m = k + n := by
  cases b with
  | int k => cases h; exact ⟨k, rfl, rfl⟩
  | _ => cases h

theorem above_ok (h : b.above n = .ok above) : ∃ k, b = .int k ∧ above = decide (n < k) := by
  cases b with
  | int k => cases h; exact ⟨k, rfl, rfl⟩
  | _ => cases h

theorem below_ok (h : b.below n = .ok below) : ∃ k, b = .int k ∧ below = decide (k < n) := by
  cases b with
  | int k => cases h; exact ⟨k, rfl, rfl⟩
  | _ => cases h

end Bound

/-- A range moved by a number that was found to lie between bounds: all four are numbers. -/
theorem Range.between_of_checks {has allowed : Range} {low high : Int}
    (hlow : has.bottom.plus n = .ok low) (habove : allowed.bottom.above low = .ok above)
    (hhigh : has.top.plus n = .ok high) (hbelow : allowed.top.below high = .ok below)
    (hna : ¬ above = true) (hnb : ¬ below = true) :
    ∃ lo hi least greatest : Int, has = .ofInts (lo, hi) ∧ allowed = .ofInts (least, greatest)
      ∧ least ≤ lo + n ∧ hi + n ≤ greatest := by
  obtain ⟨bottom, top⟩ := has
  obtain ⟨bottom', top'⟩ := allowed
  obtain ⟨lo, rfl, rfl⟩ := Bound.plus_ok hlow
  obtain ⟨hi, rfl, rfl⟩ := Bound.plus_ok hhigh
  obtain ⟨least, rfl, rfl⟩ := Bound.above_ok habove
  obtain ⟨greatest, rfl, rfl⟩ := Bound.below_ok hbelow
  simp only [decide_eq_true_eq] at hna hnb
  exact ⟨lo, hi, least, greatest, rfl, rfl, by omega, by omega⟩

/-- An access that was accepted: the range of the index, moved by the offset, lies in the range of the
table, or in that of its type where none is recorded. -/
theorem Context.assertInRange_ok {s : Setting} {table : Ref} (h : cx.assertInRange s index table offset = .ok ()) :
    ∃ (i tb : String) (c : Const) (lo hi least greatest : Int), index = .location i
      ∧ table = .location tb ∧ offset = .constant c ∧ cx.range? index = some (.ofInts (lo, hi))
      ∧ (cx.range? table = some (.ofInts (least, greatest))
        ∨ s.maxRange table = .ok (.ofInts (least, greatest)))
      ∧ least ≤ lo + c.value ∧ hi + c.value ≤ greatest := by
  unfold assertInRange at h
  split at h
  · next i tb =>
    simp only [bind_eq_ok] at h
    obtain ⟨has, hhas, h⟩ := h
    cases hr : cx.ranges.get? (.location tb) with
    | some allowed =>
      cases offset <;> simp only [hr, bind_eq_ok, pure_eq_ok, guard_eq_ok] at h
      case constant c =>
        obtain ⟨_, rfl, low, hlow, above, habove, hna, high, hhigh, below, hbelow, h⟩ := h
        obtain ⟨lo, hi, least, greatest, rfl, rfl, hl, hg⟩ :=
          Range.between_of_checks hlow habove hhigh hbelow hna (by rintro rfl; cases h)
        exact ⟨i, tb, c, lo, hi, least, greatest, rfl, rfl, rfl, rangeOf_ok hhas, .inl hr, hl, hg⟩
      all_goals simp at h
    | none =>
      cases offset <;> simp only [hr, bind_eq_ok, guard_eq_ok] at h
      case constant c =>
        obtain ⟨_, hmax, low, hlow, above, habove, hna, high, hhigh, below, hbelow, h⟩ := h
        obtain ⟨lo, hi, least, greatest, rfl, rfl, hl, hg⟩ :=
          Range.between_of_checks hlow habove hhigh hbelow hna (by rintro rfl; cases h)
        exact ⟨i, tb, c, lo, hi, least, greatest, rfl, rfl, rfl, rangeOf_ok hhas, .inr hmax, hl, hg⟩
      all_goals simp at h
  · cases h

/-- The operation that counts one step. -/
def Focus.stepOp (d : Ref) : Direction → Op
  | .up => .inc d
  | .down => .dec d

namespace Focus

open Context

variable {f : Focus} {cx' : Context} {d src base : Ref} {rs : List Ref}

/-! ### Operands -/

theorem assertType_ok {ty : Ty} {r : Ref} (h : f.assertType ty r = .ok ()) :
    f.setting.typeOf r = .ok ty := by
  simp only [assertType, bind_eq_ok] at h
  obtain ⟨t, ht, h⟩ := h
  by_cases hty : t = ty
  · rw [ht, hty]
  · simp [hty] at h

theorem isTableOf_eq {of : Ty} (h : t.isTableOf of = true) : ∃ size, t = .table of size := by
  cases t with
  | table cell size => exact ⟨size, by simpa [Ty.isTableOf] using h⟩
  | _ => cases h

theorem readTable_ok (h : f.readTable cx base offset index d = .ok ()) :
    (∃ size, f.setting.typeOf base = .ok (.table .byte size)) ∧ f.setting.typeOf d = .ok .byte
      ∧ cx.assertAllMeaningful f.setting [.indexed base offset index, index] = .ok ()
      ∧ cx.assertInRange f.setting index base offset = .ok () := by
  simp only [readTable, bind_eq_ok] at h
  obtain ⟨t, ht, h⟩ := h
  by_cases hb : t.isTableOf .byte
  · obtain ⟨size, rfl⟩ := isTableOf_eq hb
    simp only [hb, ↓reduceIte, bind_eq_ok, pure_eq_ok, guard_eq_ok] at h
    obtain ⟨u, hu, _, rfl, hbyte, ⟨⟩, hm, hr⟩ := h
    have hbyte : u = .byte := by simpa using hbyte
    exact ⟨⟨size, ht⟩, hu.trans (by rw [hbyte]), hm, hr⟩
  · simp [hb, bind_eq_ok] at h

theorem writeTable_ok (h : f.writeTable cx base offset index = .ok cx') :
    (∃ size, f.setting.typeOf base = .ok (.table .byte size))
      ∧ cx.assertMeaningful f.setting index = .ok ()
      ∧ cx.assertInRange f.setting index base offset = .ok ()
      ∧ cx.write f.setting [base] = .ok cx' := by
  simp only [writeTable, bind_eq_ok, guard_eq_ok] at h
  obtain ⟨t, ht, hb, ⟨⟩, hm, ⟨⟩, hr, hw⟩ := h
  obtain ⟨size, rfl⟩ : ∃ size, t = .table .byte size := isTableOf_eq (by simpa using hb)
  exact ⟨⟨size, ht⟩, hm, hr, hw⟩

theorem pointerAndByte_ok {other : Ref} (h : f.pointerAndByte base other = .ok true) :
    f.setting.typeOf base = .ok .pointer ∧ f.setting.typeOf other = .ok .byte := by
  simp only [pointerAndByte, bind_eq_ok] at h
  obtain ⟨t, ht, h⟩ := h
  cases t with
  | pointer =>
    simp only [Ty.isPointer, ↓reduceIte, bind_eq_ok, pure_eq_ok] at h
    obtain ⟨u, hu, hb⟩ := h
    exact ⟨ht, hu.trans (by rw [of_decide_eq_true hb])⟩
  | _ => simp [Ty.isPointer, pure_eq_ok] at h

theorem writeTarget_ok (h : f.writeTarget cx base = .ok cx') :
    ∃ table, cx.getAssoc base = some table ∧ cx.write f.setting [table] = .ok cx' := by
  unfold writeTarget at h
  cases hb : cx.getAssoc base with
  | none => rw [hb] at h; cases h
  | some table => rw [hb] at h; exact ⟨table, rfl, h⟩

/-- The second operand of a bitwise operation is a byte, or a cell of a table of bytes. -/
theorem readByte_ok (h : f.readByte cx d src = .ok ()) :
    f.setting.typeOf d = .ok .byte
      ∧ ((∃ b o i, src = .indexed b o i ∧ f.readTable cx b o i d = .ok ())
        ∨ f.setting.typeOf src = .ok .byte) := by
  cases src with
  | indexed b o i => exact ⟨(readTable_ok h).2.1, .inl ⟨b, o, i, rfl, h⟩⟩
  | _ =>
    simp only [readByte, bind_eq_ok] at h
    obtain ⟨⟨⟩, hs, hd⟩ := h
    exact ⟨assertType_ok hd, .inr (assertType_ok hs)⟩

/-! ### Operations -/

theorem load_accepts (h : f.load cx d src = .ok cx') : Accepts f cx (.ld d src) cx' := by
  cases src with
  | indexed b o i =>
    simp only [load, bind_eq_ok, pure_eq_ok] at h
    obtain ⟨⟨⟩, hr, _, rfl, hw⟩ := h
    exact .loadCell hw hr
  | indirect b =>
    simp only [load, bind_eq_ok, pure_eq_ok, guard_eq_ok] at h
    obtain ⟨ok, hp, hok, ⟨⟩, horigin, ⟨⟩, hall, _, rfl, hw⟩ := h
    obtain rfl : ok = true := by simpa using hok
    obtain ⟨hb, hd⟩ := pointerAndByte_ok hp
    exact .loadBehind hw hd hb hall horigin
  | _ =>
    simp only [load, bind_eq_ok, guard_eq_ok, ne_eq, not_not] at h
    obtain ⟨t, ht, u, hu, rfl, ⟨⟩, hm, cx1, hc, hw⟩ := h
    exact .load hc hw hu ht hm

theorem store_accepts (h : f.store cx src d = .ok cx') : Accepts f cx (.st src d) cx' := by
  cases d with
  | indexed b o i =>
    simp only [store, bind_eq_ok, pure_eq_ok, guard_eq_ok, ne_eq, not_not] at h
    obtain ⟨t, ht, rfl, _, hw, ⟨⟩, hm, rfl⟩ := h
    exact .storeCell hw ht hm
  | indirect b =>
    simp only [store, bind_eq_ok, pure_eq_ok, guard_eq_ok] at h
    obtain ⟨ok, hp, hok, ⟨⟩, hall, _, hw, ⟨⟩, hm, rfl⟩ := h
    obtain rfl : ok = true := by simpa using hok
    obtain ⟨hb, hs⟩ := pointerAndByte_ok hp
    exact .storeBehind hw hs hb hall hm
  | _ =>
    simp only [store, bind_eq_ok, pure_eq_ok, guard_eq_ok, ne_eq, not_not] at h
    obtain ⟨t, ht, u, hu, rfl, _, hw, ⟨⟩, hm, rfl⟩ := h
    exact .store hw hu ht hm

theorem widens_of_widen {cx1 : Context} (hw : cx.write f.setting rs = .ok cx1) (h : cx1.widen f.setting d = .ok cx') :
    f.Widens cx rs d cx' := by
  obtain ⟨range, hmax, rfl⟩ := widen_ok h
  exact ⟨cx1, range, hw, hmax, rfl⟩

theorem writeSum_ok (h : f.writeSum cx d = .ok cx') : f.Widens cx [d, .z, .n, .c, .v] d cx' := by
  simp only [writeSum, bind_eq_ok] at h
  obtain ⟨cx1, hw, h⟩ := h
  exact widens_of_widen hw h

theorem byteSum_ok (h : f.byteSum cx d src = .ok cx') : SumOperands f cx cx' d src := by
  simp only [byteSum, bind_eq_ok, pure_eq_ok] at h
  obtain ⟨⟨⟩, hs, ⟨⟩, hd, rfl⟩ := h
  refine .inr (.inl ⟨assertType_ok hs, assertType_ok hd, ?_⟩)
  by_cases hda : d = .a
  · exact .inl ⟨hda, by simp [hda]⟩
  · exact .inr ⟨hda, by simp [hda]⟩

theorem add_accepts (h : f.add cx d src = .ok cx') : Accepts f cx (.add d src) cx' := by
  cases src with
  | indexed b o i =>
    simp only [add, bind_eq_ok, pure_eq_ok] at h
    obtain ⟨⟨⟩, -, ⟨⟩, hr, _, rfl, hw⟩ := h
    exact .add (.inl ⟨b, o, i, rfl, hr, rfl⟩) (writeSum_ok hw)
  | _ =>
    simp only [add, bind_eq_ok] at h
    obtain ⟨⟨⟩, -, t, ht, h⟩ := h
    by_cases hb : t = .byte
    · simp only [hb, ↓reduceIte, bind_eq_ok] at h
      obtain ⟨cx1, hs, hw⟩ := h
      exact .add (byteSum_ok hs) (writeSum_ok hw)
    · simp only [hb, ↓reduceIte, bind_eq_ok] at h
      obtain ⟨⟨⟩, hword, u, hu, h⟩ := h
      by_cases hwide : u = .word ∨ u = .pointer
      · simp only [hwide, ↓reduceIte, bind_eq_ok, pure_eq_ok] at h
        obtain ⟨_, rfl, hw⟩ := h
        refine .add (.inr (.inr ⟨assertType_ok hword, ?_, rfl⟩)) (writeSum_ok hw)
        rcases hwide with rfl | rfl
        · exact .inl hu
        · exact .inr hu
      · simp only [hwide, ↓reduceIte, bind_eq_ok] at h
        obtain ⟨⟨⟩, hty, -⟩ := h
        rw [assertType_ok hty] at hu
        cases hu
        exact absurd (.inl rfl) hwide

theorem sub_accepts (h : f.sub cx d src = .ok cx') : Accepts f cx (.sub d src) cx' := by
  cases src with
  | indexed b o i =>
    simp only [sub, bind_eq_ok, pure_eq_ok] at h
    obtain ⟨⟨⟩, -, ⟨⟩, hr, _, rfl, hw⟩ := h
    exact .sub (.inl ⟨b, o, i, rfl, hr, rfl⟩) (writeSum_ok hw)
  | _ =>
    simp only [sub, bind_eq_ok] at h
    obtain ⟨⟨⟩, -, t, ht, h⟩ := h
    by_cases hb : t = .byte
    · simp only [hb, ↓reduceIte, bind_eq_ok] at h
      obtain ⟨cx1, hs, hw⟩ := h
      exact .sub (byteSum_ok hs) (writeSum_ok hw)
    · simp only [hb, ↓reduceIte, bind_eq_ok, pure_eq_ok] at h
      obtain ⟨⟨⟩, hword, ⟨⟩, hwide, _, rfl, hw⟩ := h
      exact .sub (.inr (.inr ⟨assertType_ok hword, .inl (assertType_ok hwide), rfl⟩)) (writeSum_ok hw)

theorem compare_accepts (h : f.compare cx d src = .ok cx') : Accepts f cx (.cmp d src) cx' := by
  cases src with
  | indexed b o i =>
    simp only [compare, bind_eq_ok, pure_eq_ok] at h
    obtain ⟨⟨⟩, -, ⟨⟩, hr, _, rfl, hw⟩ := h
    exact .compareCell hw hr
  | _ =>
    simp only [compare, bind_eq_ok] at h
    obtain ⟨⟨⟩, -, t, ht, h⟩ := h
    by_cases hb : t = .byte
    · simp only [hb, ↓reduceIte, bind_eq_ok, pure_eq_ok] at h
      obtain ⟨⟨⟩, hs, ⟨⟩, hd, _, rfl, hw⟩ := h
      exact .compareBytes hw (assertType_ok hs) (assertType_ok hd)
    · simp only [hb, ↓reduceIte, bind_eq_ok, pure_eq_ok] at h
      obtain ⟨⟨⟩, hs, ⟨⟩, hd, _, rfl, hw⟩ := h
      exact .compareWords hw (assertType_ok hs) (assertType_ok hd)

theorem bitwise_ok (h : f.bitwise cx d src = .ok cx') :
    f.readByte cx d src = .ok () ∧ cx.write f.setting [d, .z, .n] = .ok cx' := by
  simp only [bitwise, bind_eq_ok] at h
  obtain ⟨⟨⟩, hr, ⟨⟩, -, hw⟩ := h
  exact ⟨hr, hw⟩

theorem conjoin_accepts (h : f.conjoin cx d src = .ok cx') : Accepts f cx (.and d src) cx' := by
  simp only [conjoin, bind_eq_ok] at h
  obtain ⟨cx1, hb, h⟩ := h
  obtain ⟨hr, hw⟩ := bitwise_ok hb
  cases src with
  | indexed b o i => exact pure_eq_ok.1 h ▸ .andCell hw hr
  | _ =>
    simp only [bind_eq_ok] at h
    obtain ⟨range, hg, ht⟩ := h
    obtain ⟨own, ho, rfl⟩ := setTop_ok ht
    rcases (readByte_ok hr).2 with ⟨b, o, i, hcell, -⟩ | hty
    · cases hcell
    · exact .and hw hr hty hg ho

theorem disjoin_ok (h : f.disjoin cx d src = .ok cx') : f.Widens cx [d, .z, .n] d cx' ∧ f.readByte cx d src = .ok () := by
  simp only [disjoin, bind_eq_ok] at h
  obtain ⟨cx1, hb, h⟩ := h
  obtain ⟨hr, hw⟩ := bitwise_ok hb
  exact ⟨widens_of_widen hw h, hr⟩

theorem shift_accepts (h : f.shift cx d = .ok cx') : Accepts f cx (.shl d) cx' ∧ Accepts f cx (.shr d) cx' := by
  cases d with
  | indexed b o i =>
    simp only [shift, bind_eq_ok] at h
    obtain ⟨⟨⟩, -, cx1, hw, hw'⟩ := h
    exact ⟨.shlCell hw hw', .shrCell hw hw'⟩
  | _ =>
    simp only [shift, bind_eq_ok] at h
    obtain ⟨⟨⟩, -, ⟨⟩, hty, cx1, hw, h⟩ := h
    have hwidens := widens_of_widen hw h
    exact ⟨.shl hwidens (assertType_ok hty), .shr hwidens (assertType_ok hty)⟩

theorem count_accepts {dir : Direction} (h : f.count cx dir d = .ok cx') : Accepts f cx (stepOp d dir) cx' := by
  cases d with
  | indexed b o i =>
    simp only [count, bind_eq_ok] at h
    obtain ⟨⟨⟩, -, cx1, hw, hw'⟩ := h
    cases dir with
    | up => exact .incCell hw hw'
    | down => exact .decCell hw hw'
  | _ =>
    simp only [count, bind_eq_ok] at h
    obtain ⟨⟨⟩, -, ⟨⟩, hty, cx1, hw, own, hown, h⟩ := h
    obtain ⟨range, hsteps, rfl⟩ : ∃ range, f.Steps cx1 dir _ range ∧ cx' = cx1.putRange _ range := by
      by_cases heq : own.bottom = own.top
      · rw [if_pos heq] at h
        obtain ⟨bottom, top⟩ := own
        cases heq
        cases bottom with
        | int n =>
          cases dir <;> dsimp only at h <;> split at h
          case up.isTrue hn | down.isTrue hn =>
            exact ⟨_, .inr ⟨n, hown, rfl, by simpa using hn⟩, setRange_ok h⟩
          all_goals
            obtain ⟨range, hmax, rfl⟩ := widen_ok h
            exact ⟨range, .inl hmax, rfl⟩
        | _ => cases h
      · rw [if_neg heq] at h
        obtain ⟨range, hmax, rfl⟩ := widen_ok h
        exact ⟨range, .inl hmax, rfl⟩
    cases dir with
    | up => exact .inc hw (assertType_ok hty) hsteps
    | down => exact .dec hw (assertType_ok hty) hsteps

theorem copyFromIndirect_ok (h : f.copyFromIndirect cx base (.location name) = .ok cx') :
    Copies f cx cx' (.indirect base) (.location name) := by
  simp only [copyFromIndirect, bind_eq_ok, guard_eq_ok] at h
  obtain ⟨ok, hp, hok, ⟨⟩, hall, ⟨⟩, horigin, hw⟩ := h
  obtain rfl : ok = true := by simpa using hok
  obtain ⟨hb, hd⟩ := pointerAndByte_ok hp
  exact .fromIndirect hb hd hw hall horigin

theorem isPointer_eq (h : t.isPointer = true) : t = .pointer := by
  cases t with
  | pointer => rfl
  | _ => cases h

theorem copyBetweenIndirect_ok {to_ : Ref} (h : f.copyBetweenIndirect cx base to_ = .ok cx') :
    Copies f cx cx' (.indirect base) (.indirect to_) := by
  simp only [copyBetweenIndirect, bind_eq_ok] at h
  obtain ⟨t, ht, h⟩ := h
  cases hp : t.isPointer with
  | true =>
    simp only [hp, ↓reduceIte, bind_eq_ok, pure_eq_ok, guard_eq_ok] at h
    obtain ⟨u, hu, ok, rfl, hok, ⟨⟩, hall, ⟨⟩, horigin, hw⟩ := h
    obtain rfl := isPointer_eq hp
    obtain rfl := isPointer_eq (t := u) (by simpa using hok)
    exact .betweenIndirect hu hw ht hall horigin
  | false => simp [hp, bind_eq_ok] at h

theorem copyToIndirect_ok (h : f.copyToIndirect cx src base = .ok cx') :
    Copies f cx cx' src (.indirect base) := by
  simp only [copyToIndirect, bind_eq_ok] at h
  obtain ⟨t, ht, h⟩ := h
  by_cases hb : t = .byte
  · simp only [hb, ↓reduceIte, bind_eq_ok, pure_eq_ok, guard_eq_ok] at h
    obtain ⟨u, hu, ok, rfl, hok, ⟨⟩, hall, hw⟩ := h
    obtain rfl := isPointer_eq (t := u) (by simpa using hok)
    exact .toIndirect (ht.trans (by rw [hb])) hu hw hall
  · simp [hb, bind_eq_ok] at h

theorem copyFromCell_ok (h : f.copyFromCell cx base offset index (.location name) = .ok cx') :
    Copies f cx cx' (.indexed base offset index) (.location name) := by
  simp only [copyFromCell, bind_eq_ok, guard_eq_ok] at h
  obtain ⟨t, ht, u, hu, hfit, ⟨⟩, hr, ⟨⟩, hall, hw⟩ := h
  exact .fromCell ht hu (by simpa using hfit) hr hw hall

theorem copyToCell_ok (h : f.copyToCell cx src base offset index = .ok cx') :
    Copies f cx cx' src (.indexed base offset index) := by
  simp only [copyToCell, bind_eq_ok, guard_eq_ok] at h
  obtain ⟨t, ht, u, hu, hfit, ⟨⟩, hr, ⟨⟩, hall, hw⟩ := h
  exact .toCell ht hu (by simpa using hfit) hr hw hall

theorem copyToLocation_ok (h : f.copyToLocation cx src (.location name) = .ok cx') : Copies f cx cx' src (.location name) := by
  simp only [copyToLocation, bind_eq_ok] at h
  obtain ⟨t, ht, u, hu, h⟩ := h
  by_cases htu : t = u
  · simp only [htu, ne_eq, not_true_eq_false, ↓reduceIte, bind_eq_ok] at h
    obtain ⟨⟨⟩, hm, hw⟩ := h
    exact .toLocation ht hu (.inl htu) hw hm
  · rw [if_pos htu] at h
    -- Of two different types only a routine and a vector to routines go together.
    split at h
    · next sig limit =>
      simp only [bind_eq_ok] at h
      obtain ⟨⟨⟩, -, ⟨⟩, -, ⟨⟩, -, ⟨⟩, hm, hw⟩ := h
      exact .toLocation ht hu (.inr ⟨sig, limit, rfl, rfl⟩) hw hm
    · simp [bind_eq_ok] at h
    · simp [bind_eq_ok] at h

theorem copy_ok (h : f.copy cx src d = .ok cx') :
    d ≠ .a ∧ ∃ cx1, Copies f cx cx1 src d ∧ cx' = copied cx1 := by
  simp only [copy, guard_eq_ok] at h
  refine ⟨h.1, ?_⟩
  replace h := h.2
  cases d with
  | location name =>
    cases src <;> simp only [bind_eq_ok, pure_eq_ok, ↓reduceIte, Bool.false_eq_true] at h
    case pending => simp at h
    all_goals obtain ⟨cx1, h, rfl⟩ := h
    case indirect => exact ⟨cx1, copyFromIndirect_ok h, rfl⟩
    case indexed => exact ⟨cx1, copyFromCell_ok h, rfl⟩
    all_goals exact ⟨cx1, copyToLocation_ok h, rfl⟩
  | indirect base =>
    cases src <;> simp only [bind_eq_ok, pure_eq_ok, ↓reduceIte, Bool.false_eq_true] at h
    case indexed | pending => simp at h
    all_goals obtain ⟨cx1, h, rfl⟩ := h
    case indirect => exact ⟨cx1, copyBetweenIndirect_ok h, rfl⟩
    all_goals exact ⟨cx1, copyToIndirect_ok h, rfl⟩
  | indexed base offset index =>
    cases src <;> simp only [bind_eq_ok, pure_eq_ok, ↓reduceIte, Bool.false_eq_true] at h
    case indirect | indexed | pending => simp at h
    all_goals
      obtain ⟨cx1, h, rfl⟩ := h
      exact ⟨cx1, copyToCell_ok h, rfl⟩
  | constant c => cases src <;> simp only [error_bind_ne_ok] at h
  | pending name site => cases src <;> simp only [error_bind_ne_ok] at h

theorem single_ok_terminated (h : f.single cx op = .ok cx') : cx.terminated = false := by
  unfold single at h
  split at h
  · cases h
  · next ht => simpa using ht

theorem single_accepts (h : f.single cx op = .ok cx') : Accepts f cx op cx' := by
  simp only [single, single_ok_terminated h, Bool.false_eq_true, ↓reduceIte] at h
  cases op with
  | ld => exact load_accepts h
  | st => exact store_accepts h
  | add => exact add_accepts h
  | sub => exact sub_accepts h
  | cmp => exact compare_accepts h
  | and => exact conjoin_accepts h
  | or => exact .or (disjoin_ok h).1 (disjoin_ok h).2
  | xor => exact .xor (disjoin_ok h).1 (disjoin_ok h).2
  | inc | dec => exact count_accepts h
  | shl => exact (shift_accepts h).1
  | shr => exact (shift_accepts h).2
  | copy src d =>
    obtain ⟨hd, cx1, hcopies, rfl⟩ := copy_ok h
    exact .copy hcopies hd
  | trash =>
    cases h
    exact .trash
  | nop =>
    cases h
    exact .nop

theorem reworks_sum {cx1 : Context} (h : SumOperands f cx cx1 d src) : Reworks cx cx1 := by
  rcases h with ⟨-, -, -, -, -, rfl⟩ | ⟨-, -, ⟨-, rfl⟩ | ⟨-, rfl⟩⟩ | ⟨-, -, rfl⟩
  · exact .refl
  · exact .refl
  · exact (Reworks.refl.touch _).ranges _
  · exact (Reworks.refl.touch _).ranges _

theorem reworks_widens (h : f.Widens cx rs d cx') : Reworks cx cx' := by
  obtain ⟨cx1, range, hw, -, rfl⟩ := h
  exact (reworks_write hw).ranges _

theorem reworks_target (h : f.writeTarget cx base = .ok cx') : Reworks cx cx' := by
  obtain ⟨table, -, hw⟩ := writeTarget_ok h
  exact reworks_write hw

theorem reworks_copies {cx1 : Context} (h : Copies f cx cx1 src d) : Reworks cx cx1 := by
  cases h with
  | fromIndirect _ _ hw | fromCell _ _ _ _ hw | toCell _ _ _ _ hw | toLocation _ _ _ hw =>
    exact reworks_write hw
  | betweenIndirect _ hw | toIndirect _ _ hw => exact reworks_target hw

/-- A single operation touches locations and changes ranges, and does nothing else. -/
theorem reworks_single (h : f.single cx op = .ok cx') : Reworks cx cx' := by
  cases single_accepts h with
  | loadCell hw | loadBehind hw | store hw | compareCell hw | compareBytes hw | andCell hw => exact reworks_write hw
  | load hc hw =>
    obtain ⟨range, -, rfl⟩ := copyRange_ok hc
    exact (Reworks.refl.ranges _).trans (reworks_write hw)
  | storeCell hw => exact reworks_write (writeTable_ok hw).2.2.2
  | storeBehind hw => exact reworks_target hw
  | add hs hw | sub hs hw => exact (reworks_sum hs).trans (reworks_widens hw)
  | compareWords hw => exact ((Reworks.refl.touch _).ranges _).trans (reworks_write hw)
  | and hw | inc hw | dec hw => exact (reworks_write hw).ranges _
  | or hw | xor hw | shl hw | shr hw => exact reworks_widens hw
  | incCell htab hw | decCell htab hw | shlCell htab hw | shrCell htab hw =>
    exact (reworks_write (writeTable_ok htab).2.2.2).trans (reworks_write hw)
  | copy hcopies => exact ((reworks_copies hcopies).touchAll _).forgetAll _
  | trash => exact (Reworks.refl.touch _).ranges _
  | nop => exact .refl

theorem terminated_single (h : f.single cx op = .ok cx') : cx'.terminated = false :=
  (congrArg Prod.snd (reworks_single h).rights).trans (single_ok_terminated h)

end Focus

end CheckedAsm
