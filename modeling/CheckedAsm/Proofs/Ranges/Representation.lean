import Mathlib
import CheckedAsm.Proofs.Analysis.Nested
import CheckedAsm.Proofs.Grammar.Declarations
import CheckedAsm.Proofs.Ranges.Bounds
/-! # What ranges are made of

A range has two ends that stand for numbers of the location's type, the lower one first. This holds in every context that the
analysis of a routine comes by, up to four things that it does not look at: a static location may start with something that is
no number of its type, a word may be written that no word can hold, a loop may count beyond the type of its variable, and a
conjunction takes over the greatest value of its second operand although the least value of the first one may be above it. An
end is a number, or else the constant that ended a loop. -/

namespace CheckedAsm

open Context Focus List

variable {s : Setting} {limits : Set Const} {ordered : Prop} {cx' cx1 : Context} {rs : List Ref} {f : Focus} {op : Op} {i : Instr}
  {symbols : Symbols} {p : Program}

/-! ### Where a walk comes by -/

/-- While the instruction is walked through from the first trail, a walk through the block begins with the second one. -/
inductive Instr.Begins (s : Setting) : Instr → Trail → Block → Trail → Prop
  | ifThen {line src inverted yes t} :
      Begins s (.ifThen line src inverted yes) t yes (t.withContext t.cx.branch)
  | ifElse {line src inverted yes no t} :
      Begins s (.ifElse line src inverted yes no) t yes (t.withContext t.cx.branch)
  | otherwise {line src inverted yes no t t1} :
      yes.walk s (t.withContext t.cx.branch) = .ok t1 →
      Begins s (.ifElse line src inverted yes no) t no (t1.withContext t.cx.branch)
  | loop {line src inverted body t} :
      Begins s (.loop line src inverted body) t body t
  | again {line src inverted body t t1} :
      body.walk s t = .ok t1 → Begins s (.loop line src inverted body) t body t1
  | count {line dest dir final body t cx} :
      Focus.enterCount ⟨s, .count line dest dir final body⟩ t.cx dest dir final = .ok cx →
      Begins s (.count line dest dir final body) t body (t.withContext cx)
  | countAgain {line dest dir final body t t1 cx} :
      Focus.enterCount ⟨s, .count line dest dir final body⟩ t.cx dest dir final = .ok cx →
      body.walk s (t.withContext cx) = .ok t1 → Begins s (.count line dest dir final body) t body t1
  | interruptsOff {line body t} : Begins s (.interruptsOff line body) t body t
  | save {line locations body t batons cx} :
      Focus.setAside ⟨s, .save line locations body⟩ locations t.cx = .ok (batons, cx) →
      Begins s (.save line locations body) t body (t.withContext cx)
  | pointInto {line pointer table body t cx} :
      Focus.enterPoint ⟨s, .pointInto line pointer table body⟩ t.cx pointer table = .ok cx →
      Begins s (.pointInto line pointer table body) t body (t.withContext cx)

/-- A walk through the first block from the first trail comes to the second block with the second trail, whether or not it ever
comes to its end. Since what is left of a block is a block, these are the places before and after every instruction and the
ends of all blocks. -/
inductive Block.Reaches (s : Setting) : Block → Trail → Block → Trail → Prop
  | here {b t} : Reaches s b t b t
  | past {head tail b t t1 t'} : head.walk s t = .ok t1 → tail.Reaches s t1 b t' →
      Reaches s (.cons head tail) t b t'
  | inside {head tail b b1 t t1 t'} : head.Begins s t b1 t1 → b1.Reaches s t1 b t' →
      Reaches s (.cons head tail) t b t'

/-! ### Ranges -/

/-- The type of a reference as far as its range is concerned. -/
def Setting.typeFor (s : Setting) : Ref → Except Fault Ty
  | .constant c => .ok c.ty
  | r => s.typeOfName r.name

/-- The number that a bound stands for. -/
def Bound.value? : Bound → Option Int
  | .int n => some n
  | .const c => some c.value
  | _ => none

/-- The bound stands for a number of the type. A constant is one of the given ones. -/
structure Bound.Proper (limits : Set Const) (t : Ty) (b : Bound) : Prop where
  value : ∃ n, b.value? = some n ∧ t.Fits n
  limit : ∀ c, b = .const c → c ∈ limits

/-- The lower end comes first. -/
def Range.Ordered (range : Range) : Prop :=
  ∀ lo hi, range.bottom.value? = some lo → range.top.value? = some hi → lo ≤ hi

/-- Both ends stand for numbers of the type, and the lower one comes first where this is asked for. -/
structure Range.Proper (limits : Set Const) (ordered : Prop) (t : Ty) (range : Range) : Prop where
  bottom : range.bottom.Proper limits t
  top : range.top.Proper limits t
  ordered : ordered → range.Ordered

/-- A constant is a number of its type. -/
def Ref.Fitting (r : Ref) : Prop := ∀ c, r = .constant c → c.ty.Fits c.value

/-- All recorded ranges are proper. -/
def Context.Proper (s : Setting) (limits : Set Const) (ordered : Prop) (cx : Context) : Prop :=
  ∀ r range, cx.range? r = some range → r.Fitting → ∃ t, s.typeFor r = .ok t ∧ range.Proper limits ordered t

/-- All recorded ranges are proper, here and at the exits passed so far. -/
structure Trail.Proper (s : Setting) (limits : Set Const) (ordered : Prop) (t : Trail) : Prop where
  cx : t.cx.Proper s limits ordered
  exits : ∀ cx ∈ t.exits, cx.Proper s limits ordered

/-- Every type that a name has has a number. -/
def Setting.Inhabits (s : Setting) : Prop := ∀ name t, s.typeOfName name = .ok t → t.maxRange.1 ≤ t.maxRange.2

/-- A constant that is loaded is a number of its type, and a loop does not count beyond the type of its variable. -/
def Instr.InType (s : Setting) : Instr → Prop
  | .op _ (.ld _ (.constant c)) => c.ty.Fits c.value
  | .count _ dest .up final _ => ∀ t, s.typeFor dest = .ok t → final.value ≤ t.maxRange.2
  | .count _ dest .down final _ => ∀ t, s.typeFor dest = .ok t → t.maxRange.1 ≤ final.value
  | _ => True

/-- The range of a reference once it is written to. -/
def Context.rangeOnce (s : Setting) (cx : Context) (r : Ref) : Except Fault Range :=
  match cx.range? r with
  | some range => .ok range
  | none => s.maxRange r

/-- The second operand may be as great as the least value of the first one. -/
def Context.Orders (s : Setting) (cx : Context) (dest src : Ref) : Prop :=
  ∀ own lo hi, cx.rangeOnce s dest = .ok own → own.bottom.value? = some lo →
    ((∃ c, src = .constant c ∧ c.value = hi) ∨ ∃ range, cx.rangeOnce s src = .ok range ∧ range.top.value? = some hi) → lo ≤ hi

/-- The second operand of a conjunction may be as great as the least value of the first one. -/
def Instr.Orders (s : Setting) (cx : Context) : Instr → Prop
  | .op _ (.and dest src) => cx.Orders s dest.settled src.settled
  | _ => True

/-- The instruction leaves proper ranges as they are. -/
structure Instr.Keeps (s : Setting) (limits : Set Const) (ordered : Prop) (cx : Context) (i : Instr) : Prop where
  spelled : i.Spelled
  inType : i.InType s
  orders : ordered → i.Orders s cx
  limit : ∀ line dest dir final body, i = .count line dest dir final body → final ∈ limits

section

variable {cx cx2 : Context} {r d src : Ref} {range : Range} {t : Ty}

theorem Bound.proper_int {n : Int} (h : t.Fits n) : (Bound.int n).Proper limits t := ⟨⟨n, rfl, h⟩, fun _ hc => by cases hc⟩

theorem Range.proper_ofInts {lo hi : Int} (hlo : t.Fits lo) (hhi : t.Fits hi) (hle : lo ≤ hi) :
    (Range.ofInts (lo, hi)).Proper limits ordered t := by
  refine ⟨Bound.proper_int hlo, Bound.proper_int hhi, fun _ a b ha hb => ?_⟩
  cases ha
  cases hb
  exact hle

/-- The widest range is proper. -/
theorem Range.proper_maxRange (ht : t.maxRange.1 ≤ t.maxRange.2) : (Range.ofInts t.maxRange).Proper limits ordered t :=
  proper_ofInts ⟨le_rfl, ht⟩ ⟨ht, le_rfl⟩ ht

theorem Setting.typeFor_of_typeOf (h : s.typeOf r = .ok t) : s.typeFor r = .ok t := by
  cases r with
  | constant | location => exact h
  | _ => cases h

theorem Setting.maxRange_proper (hs : s.Inhabits) (h : s.maxRange r = .ok range) (hr : r.Fitting) :
    ∃ t, s.typeFor r = .ok t ∧ range.Proper limits ordered t := by
  cases r with
  | constant c =>
    cases h
    exact ⟨c.ty, rfl, Range.proper_ofInts (hr c rfl) (hr c rfl) (le_rfl)⟩
  | _ =>
    obtain ⟨t, ht, rfl⟩ := map_eq_ok.1 h
    exact ⟨t, ht, Range.proper_maxRange (hs _ t ht)⟩

namespace Context.Proper

section

variable (h : cx.Proper s limits ordered)
include h

/-- Ranges that are forgotten or widened do no harm. -/
theorem kept (hs : s.Inhabits)
    (hkept : ∀ r, cx'.range? r = cx.range? r ∨ cx'.range? r = none ∨ cx'.Widest s r) : cx'.Proper s limits ordered := by
  intro r range hrange hr
  obtain hsame | hnone | ⟨range', hmax, hput⟩ := hkept r
  · exact h r range (hsame ▸ hrange) hr
  · rw [hnone] at hrange
    cases hrange
  · rw [hput] at hrange
    cases hrange
    exact s.maxRange_proper hs hmax hr

theorem same (hsame : ∀ r, cx'.range? r = cx.range? r) : cx'.Proper s limits ordered :=
  fun r range hrange => h r range (hsame r ▸ hrange)

theorem put
    (hrange : r.Fitting → ∃ t, s.typeFor r = .ok t ∧ range.Proper limits ordered t) :
    (cx.putRange r range).Proper s limits ordered := by
  intro q range' hq hfit
  rw [range?_putRange] at hq
  split at hq
  case isTrue heq =>
    cases hq
    subst heq
    exact hrange hfit
  case isFalse => exact h q range' hq hfit

theorem write (hs : s.Inhabits) (hw : cx.write s rs = .ok cx') :
    cx'.Proper s limits ordered := h.kept hs fun r => (range?_write hw r).imp_right .inr

theorem spoil : (cx.spoil r).Proper s limits ordered := by
  intro q range hq
  rw [range?_spoil] at hq
  split at hq
  · cases hq
  · exact h q range hq

theorem forget : (cx.forget r).Proper s limits ordered := h.spoil (r := r)

theorem spoilAll : (rs.foldl Context.spoil cx).Proper s limits ordered := by
  induction rs generalizing cx with
  | nil => exact h
  | cons r rs ih => exact ih h.spoil

theorem widen (hs : s.Inhabits) (hmax : s.maxRange r = .ok range) :
    (cx.putRange r range).Proper s limits ordered := h.put fun hr => s.maxRange_proper hs hmax hr

end

end Context.Proper

/-! ### Single operations -/

namespace Focus

/-- What is known about a byte that is read. -/
theorem getRange_proper (h : cx.Proper s limits ordered) (hg : cx.getRange s r = .ok range) (hr : r.Fitting)
    (ht : s.typeOf r = .ok t) : range.Proper limits ordered t := by
  obtain ⟨c, rfl, rfl⟩ | hrange := getRange_ok hg
  · cases ht
    exact Range.proper_ofInts (hr c rfl) (hr c rfl) (le_rfl)
  · obtain ⟨t', ht', hproper⟩ := h r range hrange hr
    cases (s.typeFor_of_typeOf ht).symm.trans ht'
    exact hproper

section

variable (hcx : cx.Proper f.setting limits ordered) (hs : f.setting.Inhabits)
include hcx hs

theorem load_proper (h : Accepts f cx (.ld d src) cx') (hsrc : src.Fitting) : cx'.Proper f.setting limits ordered := by
  cases h with
  | loadCell hw | loadBehind hw => exact hcx.write hs hw
  | @load _ _ _ _ t hcopy hw hd ht =>
    obtain ⟨range, hrange, rfl⟩ := copyRange_ok hcopy
    refine (hcx.put fun _ => ⟨t, f.setting.typeFor_of_typeOf hd, ?_⟩).write hs hw
    obtain ⟨t', ht', hproper⟩ : ∃ t', f.setting.typeFor src = .ok t' ∧ range.Proper limits ordered t' :=
      hrange.elim (fun hrec => hcx src range hrec hsrc) fun hmax => f.setting.maxRange_proper hs hmax hsrc
    cases (f.setting.typeFor_of_typeOf ht).symm.trans ht'
    exact hproper

theorem widens_proper (h : f.Widens cx rs d cx') : cx'.Proper f.setting limits ordered := by
  obtain ⟨cx1, range, hw, hmax, rfl⟩ := h
  exact (hcx.write hs hw).widen hs hmax

omit hcx hs in
theorem rangeOnce_of_write (hw : cx.write s rs = .ok cx') (hr : cx'.range? r = some range) : cx.rangeOnce s r = .ok range := by
  unfold rangeOnce
  obtain hkept | ⟨-, hnone, range', hmax, hput⟩ := (write_ok hw).2.2.2.2.2 r
  · rw [← hkept, hr]
  · rw [hnone]
    cases hput.symm.trans hr
    exact hmax

theorem conjoin_proper {own : Range} (hw : cx.write f.setting [d, .z, .n] = .ok cx1) (hbyte : f.readByte cx d src = .ok ())
    (hty : f.setting.typeOf src = .ok .byte) (hg : cx1.getRange f.setting src = .ok range) (hown : cx1.range? d = some own)
    (hsrc : ∀ c, src = .constant c → c.ty = .byte → c.ty.Fits c.value) (horders : ordered → cx.Orders f.setting d src) :
    (cx1.putRange d ⟨own.bottom, range.top⟩).Proper f.setting limits ordered := by
  have hcx1 := hcx.write hs hw
  have hfit : src.Fitting := by
    rintro c rfl
    exact hsrc c rfl (Except.ok.inj hty)
  have hrange : range.Proper limits ordered .byte := getRange_proper hcx1 hg hfit hty
  refine hcx1.put fun hd => ?_
  have htd := f.setting.typeFor_of_typeOf (readByte_ok hbyte).1
  obtain ⟨t, ht, hproper⟩ := hcx1 d own hown hd
  cases htd.symm.trans ht
  refine ⟨.byte, htd, hproper.bottom, hrange.top, fun ho lo hi hlo hhi => ?_⟩
  refine horders ho own lo hi (rangeOnce_of_write hw hown) hlo ?_
  obtain ⟨c, rfl, rfl⟩ | hrec := getRange_ok hg
  · exact .inl ⟨c, rfl, Option.some.inj hhi⟩
  · exact .inr ⟨range, rangeOnce_of_write hw hrec, hhi⟩

omit hs in
theorem sum_proper (hsum : SumOperands f cx cx1 d src) : cx1.Proper f.setting limits ordered := by
  obtain ⟨b, o, i, -, -, rfl⟩ | ⟨-, -, ⟨-, rfl⟩ | ⟨-, rfl⟩⟩ | ⟨-, -, rfl⟩ := hsum
  · exact hcx
  · exact hcx
  · exact hcx.spoil
  · exact hcx.spoil

theorem step_proper {dir : Direction} (hw : cx.write f.setting [d, .z, .n] = .ok cx1) (hty : f.setting.typeOf d = .ok .byte)
    (hsteps : f.Steps cx1 dir d range) :
    (cx1.putRange d range).Proper f.setting limits ordered := by
  obtain hmax | ⟨n, hg, rfl, hup, hdown⟩ := hsteps
  · exact (hcx.write hs hw).widen hs hmax
  · refine (hcx.write hs hw).put fun hd => ⟨.byte, f.setting.typeFor_of_typeOf hty, ?_⟩
    obtain ⟨m, hm, hlo, hhi⟩ := (getRange_proper (hcx.write hs hw) hg hd hty).bottom.value
    cases hm
    have hfits : Ty.byte.Fits (n + dir.step) := by
      simp only [Ty.Fits, Ty.maxRange] at hlo hhi ⊢
      cases dir with
      | up => have := hup rfl; simp only [Direction.step]; omega
      | down => have := hdown rfl; simp only [Direction.step]; omega
    exact Range.proper_ofInts hfits hfits (le_rfl)

theorem target_proper (h : f.writeTarget cx base = .ok cx') : cx'.Proper f.setting limits ordered := by
  obtain ⟨table, -, hw⟩ := writeTarget_ok h
  exact hcx.write hs hw

theorem copies_proper (h : Copies f cx cx' src d) : cx'.Proper f.setting limits ordered := by
  cases h with
  | fromIndirect _ _ hw | fromCell _ _ _ _ hw | toCell _ _ _ _ hw | toLocation _ _ _ hw => exact hcx.write hs hw
  | betweenIndirect _ hw | toIndirect _ _ hw => exact target_proper hcx hs hw

theorem single_proper (h : f.single cx op = .ok cx') (hspelled : op.Spelled) (hload : ∀ d src, op = .ld d src → src.Fitting)
    (hand : ∀ d src, op = .and d src → ordered → cx.Orders f.setting d src) : cx'.Proper f.setting limits ordered := by
  have ha := single_accepts h
  cases single_accepts h with
  | loadCell | loadBehind | load => exact load_proper hcx hs ha (hload _ _ rfl)
  | storeCell hw => exact hcx.write hs (writeTable_ok hw).2.2.2
  | storeBehind hw => exact target_proper hcx hs hw
  | store hw | compareCell hw | compareBytes hw | andCell hw => exact hcx.write hs hw
  | add hsum hw | sub hsum hw => exact widens_proper (sum_proper hcx hsum) hs hw
  | compareWords hw => exact hcx.spoil.write hs hw
  | and hw hread hty hg hown =>
    refine conjoin_proper hcx hs hw hread hty hg hown (fun c hc hbyte => ?_) (hand _ _ rfl)
    subst hc
    obtain ⟨hbit, -⟩ | ⟨-, hlo, hhi⟩ | hword := hspelled.1 (.constant c) rfl
    · rw [hbit] at hbyte
      cases hbyte
    · rw [hbyte]
      exact ⟨hlo, hhi⟩
    · rw [hword] at hbyte
      cases hbyte
  | or hw | xor hw | shl hw | shr hw => exact widens_proper hcx hs hw
  | inc hw hty hsteps | dec hw hty hsteps => exact step_proper hcx hs hw hty hsteps
  | incCell htable hw | decCell htable hw | shlCell htable hw | shrCell htable hw =>
    exact (hcx.write hs (writeTable_ok htable).2.2.2).write hs hw
  | copy hcopies =>
    refine (copies_proper hcx hs hcopies).kept hs fun r => ?_
    rw [range?_copied]
    split
    · exact .inr (.inl rfl)
    · exact .inl rfl
  | trash => exact hcx.spoil
  | nop => exact hcx

/-! ### Constructs -/

omit hcx hs in
theorem perform_proper {sig : Signature} (h : perform s cx sig = .ok cx') (hcx : cx.Proper s limits ordered) (hs : s.Inhabits) :
    cx'.Proper s limits ordered := by
  rw [perform, bind_eq_ok] at h
  obtain ⟨cx1, hwrites, hspoils⟩ := h
  obtain ⟨-, -, -, -, hranges1⟩ := writeEach_ok hwrites
  obtain ⟨-, -, -, -, hranges⟩ := spoilEach_ok hspoils
  refine (hcx.kept hs fun r => (hranges1 r).imp_right .inr : cx1.Proper s limits ordered).kept hs fun r => ?_
  rw [hranges r]
  split
  · exact .inr (.inl rfl)
  · exact .inl rfl

omit hcx hs in
theorem merge_proper (h : merge s cx cx1 cx2 = .ok cx') (hcx : cx.Proper s limits ordered) (h1 : cx1.Proper s limits ordered)
    (h2 : cx2.Proper s limits ordered) (hs : s.Inhabits) : cx'.Proper s limits ordered := by
  obtain ⟨both, rfl, -, hjoins⟩ := merge_ok h
  refine Context.Proper.spoilAll ?_
  cases hjoins with
  | second => exact h2.same fun _ => rfl
  | first => exact h1.same fun _ => rfl
  | neither _ _ _ _ _ _ hranges => exact hcx.kept hs fun r => (hranges r).imp_right fun h => .inr h.2

omit hs

/-- Inside a loop the variable is between where it was and the end, which is a number of its type. -/
theorem enterCount_proper {dir : Direction} {final : Const} (h : f.enterCount cx d dir final = .ok cx')
    (hup : dir = .up → ∀ t, f.setting.typeFor d = .ok t → final.value ≤ t.maxRange.2)
    (hdown : dir = .down → ∀ t, f.setting.typeFor d = .ok t → t.maxRange.1 ≤ final.value) :
    cx'.Proper f.setting limits ordered ∧ (d.Fitting → ∃ t, f.setting.typeFor d = .ok t ∧ t.Fits final.value) := by
  obtain ⟨range, inside, -, hg, hloop, rfl⟩ := enterCount_ok h
  have hinside : d.Fitting → ∃ t, f.setting.typeFor d = .ok t ∧ inside.Proper limits ordered t ∧ t.Fits final.value := by
    intro hd
    obtain ⟨t, ht, hrange⟩ : ∃ t, f.setting.typeFor d = .ok t ∧ range.Proper limits ordered t := by
      obtain ⟨c, rfl, rfl⟩ | hrec := getRange_ok hg
      · exact ⟨c.ty, rfl, Range.proper_ofInts (hd c rfl) (hd c rfl) (le_rfl)⟩
      · exact hcx d range hrec hd
    refine ⟨t, ht, ?_⟩
    obtain ⟨rfl, n, htop, hlt, rfl⟩ | ⟨rfl, n, hbottom, hlt, rfl⟩ := loopRange_ok hloop
    · obtain ⟨m, hm, hlo, hhi⟩ := hrange.top.value
      rw [htop] at hm
      cases hm
      have hfits : t.Fits final.value := ⟨by omega, hup rfl t ht⟩
      refine ⟨⟨hrange.bottom, Bound.proper_int hfits, fun ho lo hi hlo' hhi' => ?_⟩, hfits⟩
      have hle := hrange.ordered ho lo n hlo' (by rw [htop]; rfl)
      cases hhi'
      omega
    · obtain ⟨m, hm, hlo, hhi⟩ := hrange.bottom.value
      rw [hbottom] at hm
      cases hm
      have hfits : t.Fits final.value := ⟨hdown rfl t ht, by omega⟩
      refine ⟨⟨Bound.proper_int hfits, hrange.top, fun ho lo hi hlo' hhi' => ?_⟩, hfits⟩
      have hle := hrange.ordered ho n hi (by rw [hbottom]; rfl) hhi'
      cases hlo'
      omega
  refine ⟨(hcx.put fun hd => ?_ : (cx.putRange d inside).Proper _ _ _).same fun _ => rfl, fun hd => ?_⟩
  · obtain ⟨t, ht, hproper, -⟩ := hinside hd
    exact ⟨t, ht, hproper⟩
  · obtain ⟨t, ht, -, hfits⟩ := hinside hd
    exact ⟨t, ht, hfits⟩

theorem leaveCount_proper {final : Const} (h : f.leaveCount cx d final = .ok cx') (hfinal : final ∈ limits)
    (hfits : d.Fitting → ∃ t, f.setting.typeFor d = .ok t ∧ t.Fits final.value) :
    cx'.Proper f.setting limits ordered := by
  rw [leaveCount_ok h]
  refine (hcx.put fun hd => ?_ : (cx.putRange d _).Proper _ _ _).same fun _ => rfl
  obtain ⟨t, ht, hfit⟩ := hfits hd
  have hend : (Bound.const final).Proper limits t := ⟨⟨_, rfl, hfit⟩, fun c hc => by cases hc; exact hfinal⟩
  refine ⟨t, ht, hend, hend, fun _ lo hi hlo hhi => ?_⟩
  cases hlo
  cases hhi
  exact le_rfl

theorem restore_proper {batons : List Baton} {first : Option Ref} (h : f.setAside rs cx = .ok (batons, cx1))
    (h2 : cx2.Proper f.setting limits ordered) :
    (restore cx2 batons first).Proper f.setting limits ordered := by
  obtain ⟨-, -, -, -, hbatons, -⟩ := setAside_ok h
  have hall : (batons.foldl reintroduce cx2).Proper f.setting limits ordered := by
    intro r range hr
    rw [range?_reintroduceAll fun b hb => (hbatons b hb).2.1] at hr
    split at hr
    · exact hcx r range hr
    · exact h2 r range hr
  unfold restore
  split
  · exact hall
  · exact hall.spoil

theorem enterPoint_proper {pointer table : Ref} (h : f.enterPoint cx pointer table = .ok cx') :
    cx'.Proper f.setting limits ordered := by
  obtain ⟨-, -, -, rfl⟩ := enterPoint_ok h
  exact Context.Proper.forget (hcx.same fun _ => range?_setAssoc)

end

end Focus

/-! ### Walks -/

namespace Trail.Proper

variable {t t' : Trail} {target : String}

theorem withContext (h : t.Proper s limits ordered) (hcx : cx.Proper s limits ordered) :
    (t.withContext cx).Proper s limits ordered := ⟨hcx, h.exits⟩

theorem branch (h : t.Proper s limits ordered) : t.cx.branch.Proper s limits ordered := h.cx

theorem call (h : t.Proper f.setting limits ordered) (hs : f.setting.Inhabits) (hcall : f.call t target = .ok t') :
    t'.Proper f.setting limits ordered := by
  obtain ⟨ty, sig, cx, -, -, -, hperform, rfl⟩ := call_ok hcall
  refine ⟨perform_proper hperform h.cx hs, ?_⟩
  unfold Trail.meet
  split <;> exact h.exits

theorem jump (h : t.Proper f.setting limits ordered) (hs : f.setting.Inhabits) (hjump : f.jump t target = .ok t') :
    t'.Proper f.setting limits ordered := by
  obtain ⟨ty, sig, left, -, -, -, hleft, rfl⟩ := jump_ok hjump
  refine ⟨h.cx, fun cx hcx => ?_⟩
  obtain hcx | hcx := mem_append.1 hcx
  · exact h.exits cx hcx
  · cases mem_singleton.1 hcx
    exact perform_proper hleft h.cx hs

end Trail.Proper

/-- Wherever a walk comes by, the instructions leave proper ranges as they are. -/
def Block.Keeps (s : Setting) (limits : Set Const) (ordered : Prop) (b : Block) (t : Trail) : Prop :=
  ∀ i tail t', b.Reaches s t (.cons i tail) t' → i.Keeps s limits ordered t'.cx

theorem Instr.Keeps.count {line : Nat} {dest : Ref} {dir : Direction} {final : Const} {body : Block}
    (h : (Instr.count line dest dir final body).Keeps s limits ordered cx) :
    (dir = .up → ∀ t, s.typeFor dest = .ok t → final.value ≤ t.maxRange.2)
      ∧ (dir = .down → ∀ t, s.typeFor dest = .ok t → t.maxRange.1 ≤ final.value) := by
  have hb := h.inType
  cases dir with
  | up => exact ⟨fun _ => hb, nofun⟩
  | down => exact ⟨nofun, fun _ => hb⟩

theorem Instr.Keeps.load {line : Nat} (h : (Instr.op line op).Keeps s limits ordered cx) :
    ∀ d src, op.settled = .ld d src → src.Fitting := by
  rintro d src hop c rfl
  have hb := h.inType
  cases op with
  | ld d' src' =>
    cases src' with
    | constant c' =>
      cases hop
      exact hb
    | _ => cases hop
  | _ => cases hop

theorem Instr.Keeps.conjoin {line : Nat} (h : (Instr.op line op).Keeps s limits ordered cx) :
    ∀ d src, op.settled = .and d src → ordered → cx.Orders s d src := by
  intro d src hop
  cases op with
  | and d' src' =>
    cases hop
    exact h.orders
  | _ => cases hop

mutual

theorem Instr.walk_proper (hs : s.Inhabits) (i : Instr) {t t' : Trail} (hw : i.walk s t = .ok t') (ht : t.Proper s limits ordered)
    (hi : i.Keeps s limits ordered t.cx) (hin : ∀ b t1, i.Begins s t b t1 → b.Keeps s limits ordered t1) :
    t'.Proper s limits ordered := by
  cases Instr.walked hw with
  | op hsingle =>
    have hcx := single_proper (f := ⟨s, _⟩) ht.cx hs hsingle hi.spelled.settled hi.load hi.conjoin
    exact ht.withContext hcx
  | call h => exact Trail.Proper.call (f := ⟨s, .call _ _⟩) ht hs h
  | goto h => exact Trail.Proper.jump (f := ⟨s, .goto _ _⟩) ht hs h
  | reset hreset =>
    obtain ⟨-, cx1, hmade, rfl⟩ := reset_ok hreset
    refine ht.withContext (ht.cx.kept hs fun r => ?_)
    exact ((makeMeaningful_ok hmade).2.2 r).imp_right fun hw => .inr hw.2.2
  | ifThen yes hyes hmerge =>
    have h1 := yes.walk_proper hs hyes (ht.withContext ht.branch) (hin _ _ .ifThen)
    exact h1.withContext (merge_proper hmerge ht.cx h1.cx ht.branch hs)
  | ifElse yes no hyes hno hmerge =>
    have h1 := yes.walk_proper hs hyes (ht.withContext ht.branch) (hin _ _ .ifElse)
    have h2 := no.walk_proper hs hno (h1.withContext ht.branch) (hin _ _ (.otherwise hyes))
    exact h2.withContext (merge_proper hmerge ht.cx h1.cx h2.cx hs)
  | loop body hfirst _ _ hsecond =>
    have h1 := body.walk_proper hs hfirst ht (hin _ _ .loop)
    exact body.walk_proper hs hsecond h1 (hin _ _ (.again hfirst))
  | count body henter hfirst hsecond hleave =>
    obtain ⟨hcx, hfits⟩ := enterCount_proper (f := ⟨s, _⟩) ht.cx henter hi.count.1 hi.count.2
    have h1 := body.walk_proper hs hfirst (ht.withContext hcx) (hin _ _ (.count henter))
    have h2 := body.walk_proper hs hsecond h1 (hin _ _ (.countAgain henter hfirst))
    have hend := leaveCount_proper (f := ⟨s, _⟩) h2.cx hleave (hi.limit _ _ _ _ _ rfl) hfits
    exact h2.withContext hend
  | interruptsOff body h => exact body.walk_proper hs h ht (hin _ _ .interruptsOff)
  | @save _ _ _ cx _ body haside hbody _ =>
    have hcx : cx.Proper s limits ordered := ht.cx.same (setAside_ok haside).1
    have h1 := body.walk_proper hs hbody (ht.withContext hcx) (hin _ _ (.save haside))
    exact h1.withContext (restore_proper (f := ⟨s, _⟩) ht.cx haside h1.cx)
  | @pointInto _ pointer _ cx t1 body henter hbody _ =>
    have hcx : cx.Proper s limits ordered := enterPoint_proper (f := ⟨s, _⟩) ht.cx henter
    have h1 := body.walk_proper hs hbody (ht.withContext hcx) (hin _ _ (.pointInto henter))
    exact h1.withContext ((h1.cx.same fun _ => range?_setAssoc : (t1.cx.setAssoc pointer none).Proper _ _ _).forget)

theorem Block.walk_proper (hs : s.Inhabits) : ∀ (b : Block) {t t' : Trail}, b.walk s t = .ok t' → t.Proper s limits ordered →
    b.Keeps s limits ordered t → t'.Proper s limits ordered
  | .nil _, t, t', h, ht, _ => by
    cases h
    exact ht
  | .cons head tail, t, t', h, ht, hb => by
    obtain ⟨t1, hhead, htail⟩ := bind_eq_ok.1 h
    have h1 := head.walk_proper hs hhead ht (hb head tail t .here) fun b t2 henter i rest t3 hr => hb i rest t3 (.inside henter hr)
    exact tail.walk_proper hs htail h1 fun i rest t3 hr => hb i rest t3 (.past hhead hr)

end

/-- Where a walk begins inside an instruction, the ranges are as proper as before the instruction. -/
theorem Instr.Begins.proper (hs : s.Inhabits) {b : Block} {t t' : Trail} (h : i.Begins s t b t')
    (ht : t.Proper s limits ordered) (hi : i.Keeps s limits ordered t.cx)
    (hin : ∀ b t1, i.Begins s t b t1 → b.Keeps s limits ordered t1) : t'.Proper s limits ordered := by
  cases h with
  | ifThen | ifElse => exact ht.withContext ht.branch
  | otherwise hyes =>
    exact (Block.walk_proper hs _ hyes (ht.withContext ht.branch) (hin _ _ .ifElse)).withContext ht.branch
  | loop | interruptsOff => exact ht
  | again hfirst => exact Block.walk_proper hs _ hfirst ht (hin _ _ .loop)
  | count henter => exact ht.withContext (enterCount_proper (f := ⟨s, _⟩) ht.cx henter hi.count.1 hi.count.2).1
  | countAgain henter hfirst =>
    refine Block.walk_proper hs _ hfirst (ht.withContext ?_) (hin _ _ (.count henter))
    exact (enterCount_proper (f := ⟨s, _⟩) ht.cx henter hi.count.1 hi.count.2).1
  | save haside => exact ht.withContext (ht.cx.same (setAside_ok haside).1)
  | pointInto henter =>
    have hcx := enterPoint_proper (f := ⟨s, _⟩) ht.cx henter
    exact ht.withContext hcx

/-- Wherever a walk comes by, the ranges are as proper as at its beginning. -/
theorem Block.Reaches.proper (hs : s.Inhabits) {b b' : Block} {t t' : Trail} (h : b.Reaches s t b' t')
    (ht : t.Proper s limits ordered) (hb : b.Keeps s limits ordered t) : t'.Proper s limits ordered := by
  induction h with
  | here => exact ht
  | @past head tail b t t1 t' hwalk _ ih =>
    refine ih (head.walk_proper hs hwalk ht (hb _ _ _ .here) fun b t2 he i rest t3 hr => hb i rest t3 (.inside he hr)) ?_
    exact fun i rest t3 hr => hb i rest t3 (.past hwalk hr)
  | inside henter _ ih =>
    refine ih (henter.proper hs ht (hb _ _ _ .here) fun b t2 he i rest t3 hr => hb i rest t3 (.inside he hr)) ?_
    exact fun i rest t3 hr => hb i rest t3 (.inside henter hr)

/-! ### Instructions that are come to -/

theorem Instr.Begins.mem_blocks {b : Block} {t t' : Trail} (h : i.Begins s t b t') : b ∈ i.blocks := by
  cases h <;> simp [Instr.blocks]

theorem Block.Reaches.contains {b b' : Block} {tail : Block} {t t' : Trail} (h : b.Reaches s t b' t')
    (hb : b' = .cons i tail) : b.Contains i := by
  induction h with
  | here =>
    subst hb
    exact .head
  | past _ _ ih => exact .tail (ih hb)
  | inside henter _ ih => exact .inside henter.mem_blocks (ih hb)

end

/-! ### Routines -/

theorem Ty.Spelled.inhabited {t : Ty} (h : t.Spelled) : t.maxRange.1 ≤ t.maxRange.2 := by
  cases t with
  | table of size =>
    have := h.2.1
    simp only [Ty.maxRange]
    omega
  | _ => simp [Ty.maxRange]

/-- Every type that was read has a number. -/
theorem Symbols.Declares.inhabits (h : symbols.Declares p) (hs : s.symbols = symbols) : s.Inhabits := by
  intro name t ht
  unfold Setting.typeOfName at ht
  rw [hs] at ht
  cases hlocal : symbols.localType? s.routine name with
  | some t' =>
    rw [hlocal] at ht
    cases ht
    obtain ⟨-, -, -, -, -, -, hspelled, -⟩ := h.localType?_defined hlocal
    exact hspelled.inhabited
  | none =>
    simp only [hlocal, Setting.globalType, hs, Symbols.globalType?] at ht
    cases he : symbols.globals.get? name with
    | none => simp [he] at ht
    | some e =>
      simp only [he, Option.map_some, Except.ok.injEq] at ht
      subst ht
      obtain hb | ⟨-, -, -, -, hspelled, -⟩ | ⟨-, -, -, -, hroutine, -⟩ := h.globals name e he
      · simp only [Symbols.builtins, map_cons, map_nil, cons_append, nil_append, mem_cons,
          not_mem_nil, or_false] at hb
        rcases hb with hb | hb | hb | hb | hb | hb | hb <;> cases hb <;> decide
      · exact hspelled.inhabited
      · cases hty : e.ty with
        | routine sig => simp [Ty.maxRange]
        | _ => rw [hty] at hroutine; cases hroutine

namespace Routine

/-- The analysis of the routine has come to the context while static locations were given their initial values. -/
def Starts (symbols : Symbols) (r : Routine) (cx : Context) : Prop :=
  ∃ sig cx0 statics, symbols.globalType? r.name = some (.routine sig)
    ∧ Context.ofSignature (r.setting symbols) sig = .ok cx0 ∧ statics <+: (symbols.localsOf r.name).entries
    ∧ statics.foldlM (startStatic (r.setting symbols)) cx0 = .ok cx

/-- The analysis of the routine has come to the block, which is left of the body or of a block in it, with the trail. -/
def Comes (symbols : Symbols) (r : Routine) (b : Block) (t : Trail) : Prop :=
  ∃ sig body cx0 cx, symbols.globalType? r.name = some (.routine sig) ∧ r.body = some body
    ∧ Context.ofSignature (r.setting symbols) sig = .ok cx0 ∧ startStatics (r.setting symbols) cx0 = .ok cx
    ∧ body.Reaches (r.setting symbols) { cx } b t

/-- The context arises while the routine is analysed, whether or not it is accepted. -/
def Arises (symbols : Symbols) (r : Routine) (cx : Context) : Prop :=
  r.Starts symbols cx ∨ ∃ b t, r.Comes symbols b t ∧ (cx = t.cx ∨ cx ∈ t.exits)

/-- A static location starts with a number of its type. -/
def StaticsFit (symbols : Symbols) (r : Routine) : Prop :=
  ∀ d ∈ r.locals, ∀ initial, d.initial = some initial →
    ∃ n, initial = .value n ∧ ∀ t, symbols.localType? r.name d.name = some t → t.Fits n

section

variable {r : Routine} {cx : Context}

theorem startStatic_proper {e : String × Entry} (h : startStatic (r.setting symbols) cx e = .ok cx')
    (hcx : cx.Proper (r.setting symbols) limits ordered) (hs : (r.setting symbols).Inhabits)
    (he : e ∈ (symbols.localsOf r.name).entries) {d : Defn} (hd : d ∈ r.locals) (hlocal : d.Local e)
    (hstatics : r.StaticsFit symbols) : cx'.Proper (r.setting symbols) limits ordered := by
  cases hinit : d.initial with
  | none =>
    simp only [startStatic, hlocal.decl, hinit, pure_eq_ok] at h
    exact h ▸ hcx
  | some initial =>
    simp only [startStatic, hlocal.decl, hinit, bind_eq_ok] at h
    obtain ⟨cx1, hmade, hset⟩ := h
    obtain ⟨n, rfl, hfits⟩ := hstatics d hd initial hinit
    rw [setRange_ok hset]
    have hcx1 := hcx.kept hs fun q => ((makeMeaningful_ok hmade).2.2 q).imp_right fun hw => .inr hw.2.2
    refine hcx1.put fun _ => ?_
    obtain ⟨ty, hty⟩ : ∃ ty, symbols.localType? r.name e.1 = some ty := by
      have hkey : e.1 ∈ (symbols.localsOf r.name).keys := mem_map_of_mem he
      obtain ⟨entry, hentry⟩ := Option.isSome_iff_exists.1 (Assoc.mem_keys_iff.1 hkey)
      exact ⟨entry.ty, by rw [Symbols.localType?, hentry]; rfl⟩
    have hfit := hfits ty (hlocal.name ▸ hty)
    refine ⟨ty, ?_, Range.proper_ofInts hfit hfit (le_rfl)⟩
    simp only [Setting.typeFor, Ref.name, Setting.typeOfName, Routine.setting, hty]

theorem Starts.proper (h : r.Starts symbols cx) (hdeclares : symbols.Declares p) (hr : r ∈ p.routines)
    (hstatics : r.StaticsFit symbols) : cx.Proper (r.setting symbols) limits ordered := by
  obtain ⟨sig, cx0, statics, -, hstart, ⟨rest, hrest⟩, hfold⟩ := h
  have hs : (r.setting symbols).Inhabits := hdeclares.inhabits rfl
  have hempty : ({} : Context).Proper (r.setting symbols) limits ordered := fun q range hq => by cases hq
  have hcx0 : cx0.Proper (r.setting symbols) limits ordered := hempty.kept hs fun q => .inr ((start_ok hstart).2 q)
  have hmem : ∀ e ∈ statics, e ∈ (symbols.localsOf r.name).entries := fun e he => hrest ▸ mem_append_left _ he
  clear hrest hstart
  induction statics generalizing cx0 with
  | nil =>
    cases hfold
    exact hcx0
  | cons e statics ih =>
    obtain ⟨he, hmem⟩ := forall_mem_cons.1 hmem
    rw [foldlM_cons, bind_eq_ok] at hfold
    obtain ⟨cx1, hstep, hfold⟩ := hfold
    obtain ⟨d, hd, hlocal⟩ := exists_mem_of_forall₂ (hdeclares.locals r hr) he
    exact ih cx1 hfold (startStatic_proper hstep hcx0 hs he hd hlocal hstatics) hmem

end

/-- In every context that arises while a routine is analysed that was read from files, each range that is recorded for a
location has two ends that stand for numbers of its type, which for a table are its indices, and the lower one comes first. An
end is a number, or the constant that ends one of the routine's loops. Static locations have to start with numbers of their
types, constants that are loaded have to be numbers of theirs, and loops may not count beyond the type of the variable; and
for the order of the ends, the second operand of a conjunction has to reach the least value of the first one. -/
theorem ranges_represented {fs : Files} {path mains : List String} {symbols : Symbols} {parsed : List Program}
    (hread : fs.loadAll path .initial mains = .ok (symbols, parsed)) {r : Routine} (hr : r ∈ (Program.merge parsed).routines)
    (hstatics : r.StaticsFit symbols)
    (hintype : ∀ i tail t, r.Comes symbols (.cons i tail) t → i.InType (r.setting symbols)) {cx : Context}
    (hcx : r.Arises symbols cx) {q : Ref} (hq : ∀ c, q ≠ .constant c) {range : Range} (hrange : cx.range? q = some range) :
    ∃ ty lo hi, (r.setting symbols).typeOfName q.name = .ok ty ∧ range.bottom.value? = some lo ∧ range.top.value? = some hi
      ∧ ty.Fits lo ∧ ty.Fits hi
      ∧ ((∀ i tail t, r.Comes symbols (.cons i tail) t → i.Orders (r.setting symbols) t.cx) → lo ≤ hi)
      ∧ ∀ c, range.bottom = .const c ∨ range.top = .const c →
        ∃ body line dest dir inner, r.body = some body ∧ body.Contains (.count line dest dir c inner) := by
  obtain ⟨hdeclares, -⟩ := fs.read_agree hread
  have hs : (r.setting symbols).Inhabits := hdeclares.inhabits rfl
  -- the order of the ends is proved together with the rest, where it is asked for
  let ordered := ∀ i tail t, r.Comes symbols (.cons i tail) t → i.Orders (r.setting symbols) t.cx
  let limits : Set Const :=
    {c | ∃ body line dest dir inner, r.body = some body ∧ body.Contains (.count line dest dir c inner)}
  have hproper : cx.Proper (r.setting symbols) limits ordered := by
    obtain hstarts | ⟨b, t, ⟨sig, body, cx₀, cx₁, hsig, hbody, hstart, hset, hreach⟩, hcx⟩ := hcx
    · exact hstarts.proper hdeclares hr hstatics
    have hcx₁ : cx₁.Proper (r.setting symbols) limits ordered :=
      Starts.proper ⟨sig, cx₀, _, hsig, hstart, prefix_rfl, hset⟩ hdeclares hr hstatics
    have hspelled := hdeclares.bodies r hr _ (fun _ _ => trivial) body hbody
    have ht : t.Proper (r.setting symbols) limits ordered := hreach.proper hs ⟨hcx₁, by simp⟩ fun i tail t' hto => by
      have hcomes : r.Comes symbols (.cons i tail) t' := ⟨sig, body, cx₀, cx₁, hsig, hbody, hstart, hset, hto⟩
      have hin := hto.contains rfl
      refine ⟨hspelled.contains hin, hintype i tail t' hcomes, fun ho => ho i tail t' hcomes, ?_⟩
      rintro line dest dir final inner rfl
      exact ⟨body, line, dest, dir, inner, hbody, hin⟩
    obtain rfl | hexit := hcx
    · exact ht.cx
    · exact ht.exits cx hexit
  obtain ⟨ty, hty, ⟨⟨lo, hlo, hfitlo⟩, hlimlo⟩, ⟨⟨hi, hhi, hfithi⟩, hlimhi⟩, hle⟩ :=
    hproper q range hrange fun c hc => absurd hc (hq c)
  refine ⟨ty, lo, hi, ?_, hlo, hhi, hfitlo, hfithi, fun ho => hle ho lo hi hlo hhi, fun c hc => hc.elim (hlimlo c) (hlimhi c)⟩
  cases q with
  | constant c => exact absurd rfl (hq c)
  | _ => exact hty

end Routine

/-- A routine that fills a table from a static location. -/
def seeding : Files := { entries := [⟨["m"], "byte table[16] tab
define main routine outputs tab, x trashes a, z, n static byte seed : 7 \x7b
  ld x, 0
  for x up to 15 \x7b ld a, seed st a, tab + x \x7d
\x7d
"⟩] }

def seedingStep : Block :=
  .cons (.op 4 (.ld .a (.location "seed"))) (.cons (.op 4 (.st .a (.indexed (.location "tab") (.constant ⟨.byte, 0⟩) .x))) (.nil 5))

def seeder : Routine where
  line := 6
  name := "main"
  addr := none
  locals := [⟨2, "seed", none, some (.value 7)⟩]
  body := some (.cons (.op 4 (.ld .x (.constant ⟨.byte, 0⟩))) (.cons (.count 5 .x .up ⟨.byte, 15⟩ seedingStep) (.nil 6)))
  preserved := false

def seedingSymbols : Symbols where
  globals := ⟨Symbols.builtins ++ [("tab", ⟨.defn ⟨2, "tab", none, none⟩, .table .byte 16⟩),
    ("main", ⟨.routine seeder, .routine ⟨[], .ofNames ["tab", "x"], .ofNames ["a", "z", "n"]⟩⟩)]⟩
  locals := ⟨[("main", ⟨[("seed", ⟨.defn ⟨2, "seed", none, some (.value 7)⟩, .byte⟩)]⟩)]⟩
  typedefs := ⟨[]⟩
  consts := ⟨[]⟩

theorem seeding_read : seeding.loadAll [] .initial ["m"] = .ok (seedingSymbols, [⟨[⟨2, "tab", none, none⟩], [seeder]⟩]) := by
  cbv

theorem seeding_come {tail : Block} {t : Trail} (h : seeder.Comes seedingSymbols (.cons i tail) t) :
    i.InType (seeder.setting seedingSymbols) ∧ i.Orders (seeder.setting seedingSymbols) t.cx := by
  obtain ⟨sig, body, cx0, cx, -, hbody, -, -, hreach⟩ := h
  cases hbody
  have hin := hreach.contains rfl
  cases hin with
  | head => exact ⟨(by decide : Ty.byte.Fits 0), trivial⟩
  | inside hb => cases hb
  | tail hin =>
    cases hin with
    | head =>
      refine ⟨fun t ht => ?_, trivial⟩
      cases ht
      decide
    | tail hin => cases hin
    | inside hb hin =>
      obtain rfl := mem_singleton.1 hb
      cases hin with
      | head => exact ⟨trivial, trivial⟩
      | inside hb => cases hb
      | tail hin =>
        cases hin with
        | head => exact ⟨trivial, trivial⟩
        | inside hb => cases hb
        | tail hin => cases hin

theorem seeding_represented : ∃ cx range ty lo hi, seeder.Arises seedingSymbols cx ∧ cx.range? .x = some range
    ∧ range = .ofInts (0, 15) ∧ (seeder.setting seedingSymbols).typeOfName "x" = .ok ty
    ∧ range.bottom.value? = some lo ∧ range.top.value? = some hi ∧ ty.Fits lo ∧ ty.Fits hi ∧ lo ≤ hi := by
  have hstatics : seeder.StaticsFit seedingSymbols := by
    intro d hd initial hinitial
    obtain rfl := mem_singleton.1 hd
    cases hinitial
    refine ⟨7, rfl, fun t ht => ?_⟩
    cases ht
    decide
  have harises : ∃ cx, seeder.Arises seedingSymbols cx ∧ cx.range? .x = some (.ofInts (0, 15)) := by
    have hsteps : ∃ sig cx₀ cx₁ t cx₂, seedingSymbols.globalType? "main" = some (.routine sig)
        ∧ Context.ofSignature (seeder.setting seedingSymbols) sig = .ok cx₀
        ∧ Routine.startStatics (seeder.setting seedingSymbols) cx₀ = .ok cx₁
        ∧ Instr.walk (seeder.setting seedingSymbols) { cx := cx₁ } (.op 4 (.ld .x (.constant ⟨.byte, 0⟩))) = .ok t
        ∧ Focus.enterCount ⟨seeder.setting seedingSymbols, .count 5 .x .up ⟨.byte, 15⟩ seedingStep⟩ t.cx .x .up ⟨.byte, 15⟩ = .ok cx₂
        ∧ cx₂.range? .x = some (.ofInts (0, 15)) := ⟨_, _, _, _, _, rfl, rfl, rfl, rfl, rfl, rfl⟩
    obtain ⟨sig, cx₀, cx₁, t, cx₂, hsig, hstart, hset, hload, henter, hrange⟩ := hsteps
    exact ⟨cx₂, .inr ⟨seedingStep, t.withContext cx₂, ⟨sig, _, cx₀, cx₁, hsig, rfl, hstart, hset,
      .past hload (.inside (.count henter) .here)⟩, .inl rfl⟩, hrange⟩
  obtain ⟨cx, hcx, hrange⟩ := harises
  obtain ⟨ty, lo, hi, hty, hlo, hhi, hfitlo, hfithi, hle, -⟩ := Routine.ranges_represented seeding_read (mem_singleton.2 rfl)
    hstatics (fun i tail t h => (seeding_come h).1) hcx (fun c hc => by cases hc) hrange
  exact ⟨cx, _, ty, lo, hi, hcx, hrange, rfl, hty, hlo, hhi, hfitlo, hfithi, hle fun i tail t h => (seeding_come h).2⟩

/-- A routine with a static table, a loop, and a conjunction with a constant that is too small. -/
def misrecorded : Files := { entries := [⟨["m"], "define main routine trashes a, x, c, z, n static byte table[2] tab : 1, 2 \x7b
  ld x, 0 for x up to 15 \x7b \x7d ld a, 200 and a, 15 \x7d"⟩] }

theorem misrecorded_accepted : ∃ symbols parsed r exits facts, misrecorded.loadAll [] .initial ["m"] = .ok (symbols, parsed)
    ∧ (Program.merge parsed).routines = [r] ∧ r.analyse symbols = (some exits, .ok facts)
    ∧ exits.last.range? .a = some (.ofInts (200, 15))
    ∧ exits.last.range? .x = some ⟨.const ⟨.byte, 15⟩, .const ⟨.byte, 15⟩⟩
    ∧ exits.last.range? (.location "tab") = some ⟨.values [1, 2], .values [1, 2]⟩ := by
  refine ⟨?_, ?_, ?_, ?_, ?_, ?read, ?routine, ?analysed, ?conjoined, ?counted, ?static⟩
  case read => cbv; rfl
  case routine => rfl
  case analysed => cbv; rfl
  case conjoined => rfl
  case counted => rfl
  case static => rfl

end CheckedAsm
