import CheckedAsm.Proofs.Analysis.Inversion
import CheckedAsm.Proofs.Ranges.Stale
/-! # Single operations and ranges

A recorded range is right for a store when it admits the value of its location and, for a table, says no
more than the bounds of the type. Here it is shown, operation by operation, that the ranges that are not
stale stay right, and that an accepted operation that does not rely on a stale range reaches its cells
inside their tables. -/

namespace CheckedAsm

open List

variable {t u : Ty} {n : Int} {dir : Direction} {op : Op} {b i o : Ref}

/-! ### Ranges that are right -/

/-- What is recorded about the location is right for the store. -/
def Context.Right (s : Setting) (cx : Context) (σ : Store) (r : Ref) : Prop :=
  cx.Admits r (σ r) ∧ cx.Within s r

/-- All ranges but the stale ones are right for the store. -/
def Context.Holds (s : Setting) (cx : Context) (stale : Set Ref) (σ : Store) : Prop :=
  ∀ r, r.IsPlace → r ∉ stale → cx.Right s σ r

/-- The range of a reference was kept, or the widest one was recorded. -/
def Context.Kept (s : Setting) (cx cx' : Context) (r : Ref) : Prop :=
  cx'.range? r = cx.range? r ∨ cx'.Widest s r

variable {s : Setting} {cx cx' cx1 cx2 : Context} {σ σ' : Store} {stale after : Set Ref} {r d src : Ref}
  {range : Range}

theorem Setting.maxRange_place (hr : r.IsPlace) :
    s.maxRange r = (s.typeOfName r.name).map fun t => .ofInts t.maxRange := by
  cases r with
  | location _ | pending _ _ => rfl
  | _ => exact hr.elim

theorem Setting.typeOf_place (hr : r.IsPlace) (h : s.typeOf r = .ok t) : s.typeOfName r.name = .ok t := by
  cases r with
  | location _ => exact h
  | pending _ _ => cases h
  | _ => exact hr.elim

theorem Range.admits_ofInts {lo hi : Int} : (Range.ofInts (lo, hi)).Admits n ↔ lo ≤ n ∧ n ≤ hi := by
  simp [Range.Admits, Range.ofInts, Bound.int?]

/-- The widest range admits what a location may hold. -/
theorem Store.Typed.admits_maxRange (hσ : σ.Typed s) (hr : r.IsPlace)
    (h : s.maxRange r = .ok range) : range.Admits (σ r) := by
  rw [s.maxRange_place hr, map_eq_ok] at h
  obtain ⟨t, ht, rfl⟩ := h
  exact Range.admits_ofInts.2 (hσ r t ht)

theorem Store.reads_place (hr : r.IsPlace) : σ.Reads r (σ r) := by
  cases r with
  | location _ | pending _ _ => rfl
  | _ => exact hr.elim

theorem Ty.wrap_fits_byte (n : Int) : Ty.byte.Fits (Ty.byte.wrap n) := by
  simp only [Ty.Fits, Ty.wrap, Ty.maxRange]
  omega

theorem Store.Reads.fits_byte (h : σ.Reads src n) (hσ : σ.Typed s) (hty : s.typeOf src = .ok .byte) : Ty.byte.Fits n := by
  cases src with
  | constant c =>
    cases h
    obtain ⟨ty, value⟩ := c
    cases hty
    exact Ty.wrap_fits_byte value
  | location name =>
    cases h
    exact hσ _ _ hty
  | _ => cases hty

namespace Context

/-- The widest range of a table says no more than the bounds of its type. -/
theorem within_of_maxRange (hr : r.IsPlace) (h : s.maxRange r = .ok range)
    (hcx : cx.range? r = some range) : cx.Within s r := by
  intro cell size hty range' hrange'
  rw [s.maxRange_place hr, hty] at h
  cases h
  rw [hcx] at hrange'
  cases hrange'
  simp [Range.ofInts, Bound.int?, Ty.maxRange]

/-- A location that is no table has nothing to keep within. -/
theorem within_of_byte (h : s.typeOfName r.name = .ok .byte) : cx.Within s r := by
  intro cell size hty
  rw [h] at hty
  cases hty

theorem right_of_widest (hσ : σ.Typed s) (hr : r.IsPlace) (h : cx.Widest s r) : cx.Right s σ r := by
  obtain ⟨range, hmax, hcx⟩ := h
  refine ⟨fun range' hrange' => ?_, within_of_maxRange hr hmax hcx⟩
  rw [hcx] at hrange'
  cases hrange'
  exact hσ.admits_maxRange hr hmax

theorem right_putRange_maxRange (hσ : σ.Typed s) (hr : r.IsPlace) (h : s.maxRange r = .ok range) :
    (cx.putRange r range).Right s σ r :=
  right_of_widest hσ hr ⟨range, h, by simp⟩

theorem right_of_none (h : cx.range? r = none) : cx.Right s σ r := by
  refine ⟨fun range hrange => ?_, fun cell size hty range hrange => ?_⟩ <;>
    rw [h] at hrange <;> cases hrange

theorem right_of_takes {values : Int → Prop} (h : cx.Takes s r values) (hr : values (σ r)) :
    cx.Right s σ r := ⟨h.1 _ hr, h.2⟩

theorem Right.congr (h : cx.Right s σ r) (hcx : cx'.range? r = cx.range? r) (hσ : σ' r = σ r) :
    cx'.Right s σ' r := by
  refine ⟨fun range hrange => ?_, fun cell size hty range hrange => ?_⟩
  · rw [hσ]
    exact h.1 range (hcx ▸ hrange)
  · exact h.2 cell size hty range (hcx ▸ hrange)

/-! ### Ranges that are kept -/

theorem Kept.refl : Kept s cx cx r := .inl rfl

theorem Kept.trans (h : Kept s cx cx1 r) (h' : Kept s cx1 cx2 r) : Kept s cx cx2 r := by
  rcases h' with h' | h'
  · rcases h with h | ⟨range, hmax, hrange⟩
    · exact .inl (h'.trans h)
    · exact .inr ⟨range, hmax, h'.trans hrange⟩
  · exact .inr h'

theorem Kept.write {rs : List Ref} (h : cx.write s rs = .ok cx') : Kept s cx cx' r := range?_write h r

theorem Kept.spoil (h : d ≠ r) : Kept s cx (cx.spoil d) r := .inl (by simp [h])

theorem Kept.putRange (h : d ≠ r) : Kept s cx (cx.putRange d range) r := .inl (by simp [h])

theorem Kept.right (h : Kept s cx cx' r) (hσ' : σ'.Typed s) (hr : r.IsPlace) (heq : σ' r = σ r)
    (hright : cx.Right s σ r) : cx'.Right s σ' r := by
  rcases h with h | h
  · exact hright.congr h heq
  · exact right_of_widest hσ' hr h

/-! ### Assembling the effects of an operation -/

section

variable (h : cx.Holds s stale σ)
include h

/-- If every changed location is right where it should be, and the other ones are kept, then all ranges
that are not stale afterwards are right. -/
theorem Holds.staleAfter {changes : List (Ref × Prop)} (hσ' : σ'.Typed s)
    (hchanged : ∀ r right, (r, right) ∈ changes → r.IsPlace → right → cx'.Right s σ' r)
    (hkept : ∀ r, r ∉ changes.map Prod.fst → Kept s cx cx' r ∧ σ' r = σ r)
    (hafter : staleAfter changes stale ⊆ after) : cx'.Holds s after σ' := by
  intro r hr hnot
  by_cases hmem : r ∈ changes.map Prod.fst
  · obtain ⟨⟨r, right⟩, hentry, rfl⟩ := mem_map.1 hmem
    refine hchanged r right hentry hr ?_
    by_contra hwrong
    exact hnot (hafter (.inl ⟨right, hentry, hwrong⟩))
  · obtain ⟨hkept, heq⟩ := hkept r hmem
    refine hkept.right hσ' hr heq (h r hr fun hstale => ?_)
    exact hnot (hafter (.inr ⟨hstale, hmem⟩))

/-- The same, told by what becomes of each location: targets, with what makes their ranges right,
locations that lose their ranges, and flags that may come out either way. -/
theorem Holds.effect (targets : List (Ref × Prop))
    (spoiled flags : List Ref) (hch : σ.Changes s σ' (targets.map Prod.fst ++ (spoiled ++ flags)))
    (htargets : ∀ r right, (r, right) ∈ targets → right → cx'.Right s σ' r)
    (hspoiled : ∀ r ∈ spoiled, cx'.range? r = none)
    (hkept : ∀ r, r ∉ targets.map Prod.fst → r ∉ spoiled → Kept s cx cx' r)
    (hafter : CheckedAsm.staleAfter
      (targets ++ (spoiled.map (·, True) ++ flags.map (Op.anyIn s cx'))) stale ⊆ after) :
    cx'.Holds s after σ' := by
  refine h.staleAfter hch.2 ?_ ?_ hafter
  · intro r right hmem _ hright
    simp only [mem_append, mem_map] at hmem
    rcases hmem with hmem | ⟨q, hq, hqr⟩ | ⟨q, -, hqr⟩
    · exact htargets r right hmem hright
    · cases hqr
      exact right_of_none (hspoiled r hq)
    · cases hqr
      exact right_of_takes hright fun t ht => hch.2 r t ht
  · intro r hr
    have hr' : r ∉ targets.map Prod.fst ++ (spoiled ++ flags) := by
      simpa [Op.anyIn, Function.comp_def] using hr
    refine ⟨hkept r (fun hmem => ?_) (fun hmem => ?_), hch.1 r hr'⟩ <;> simp_all

/-- An operation that changes one location and flags. -/
theorem Holds.target {flags : List Ref} {right : Prop}
    (hch : σ.Changes s σ' (d :: flags)) (hright : right → cx'.Right s σ' d)
    (hkept : ∀ r, d ≠ r → Kept s cx cx' r)
    (hafter : CheckedAsm.staleAfter ((d, right) :: flags.map (Op.anyIn s cx')) stale ⊆ after) :
    cx'.Holds s after σ' := by
  refine h.effect [(d, right)] [] flags hch ?_ (by simp) (fun r hr _ => hkept r ?_) hafter
  · intro r right' hmem
    cases mem_singleton.1 hmem
    exact hright
  · rintro rfl
    simp at hr

/-- An operation after which any value of the destination's type is recorded as possible. -/
theorem Holds.widened {flags : List Ref} (hmax : s.maxRange d = .ok range)
    (hd : d.IsPlace) (hch : σ.Changes s σ' (d :: flags)) (hkept : ∀ r, d ≠ r → Kept s cx cx1 r)
    (hafter : CheckedAsm.staleAfter ((d, True) :: flags.map (Op.anyIn s (cx1.putRange d range))) stale
      ⊆ after) : (cx1.putRange d range).Holds s after σ' :=
  h.target hch (fun _ => right_putRange_maxRange hch.2 hd hmax)
    (fun r hr => .trans (hkept r hr) (.putRange hr)) hafter

/-- An operation that changes flags, and does no more than record widest ranges. -/
theorem Holds.flags {flags : List Ref} (hch : σ.Changes s σ' flags)
    (hkept : ∀ r, Kept s cx cx' r)
    (hafter : CheckedAsm.staleAfter (flags.map (Op.anyIn s cx')) stale ⊆ after) :
    cx'.Holds s after σ' :=
  h.effect [] [] flags hch (by simp) (by simp) (fun r _ _ => hkept r) hafter

/-- An operation that changes nothing, and does no more than record widest ranges. -/
theorem Holds.of_kept (hσ : σ.Typed s) (hkept : ∀ r, Kept s cx cx' r)
    (hafter : CheckedAsm.staleAfter [] stale ⊆ after) : cx'.Holds s after σ :=
  h.effect [] [] [] ⟨fun _ _ => rfl, hσ⟩ (by simp) (by simp) (fun r _ _ => hkept r) hafter

/-- What an operand is read as is among what it may be. -/
theorem Holds.mayBe (hσ : σ.Typed s) (hread : σ.Reads src n) : cx.MayBe s stale src n := by
  cases src with
  | location name =>
    cases hread
    exact ⟨fun t ht => hσ _ t ht, fun hr => (h (.location name) trivial hr).1⟩
  | pending name site =>
    cases hread
    exact ⟨fun t ht => hσ _ t ht, fun hr => (h (.pending name site) trivial hr).1⟩
  | _ => exact hread

end

end Context

/-! ### The operations -/

namespace Focus

open Context

variable {f : Focus}

/-- A load from a location takes over its range. -/
theorem right_of_copyRange (hd : d.IsPlace) (hsrc : src.IsPlace)
    (htd : f.setting.typeOf d = .ok t) (hts : f.setting.typeOf src = .ok t) (hc : cx.copyRange f.setting src d = .ok cx1)
    (hw : cx1.write f.setting [d, .z, .n] = .ok cx') (hσ : σ.Typed f.setting)
    (hright : cx.Right f.setting σ src) (heq : σ' d = σ src) : cx'.Right f.setting σ' d := by
  obtain ⟨range, hrange, rfl⟩ := copyRange_ok hc
  have hd' : cx'.range? d = some range := by
    rcases (write_ok hw).2.2.2.2.2 d with h | ⟨-, h, -⟩
    · simpa using h
    · simp at h
  -- The two locations have one type, so what is right for the one is right for the other.
  have hsame : f.setting.typeOfName d.name = f.setting.typeOfName src.name := by
    rw [Setting.typeOf_place hd htd, Setting.typeOf_place hsrc hts]
  have hmoved : (cx.putRange src range).Right f.setting σ src := by
    rcases hrange with hrange | hrange
    · exact hright.congr (by simp [hrange]) rfl
    · exact right_putRange_maxRange hσ hsrc hrange
  refine ⟨fun range' h => ?_, fun cell size hty range' h => ?_⟩
  · rw [heq]
    exact hmoved.1 range' (by simpa [hd'] using h)
  · exact hmoved.2 cell size (hsame ▸ hty) range' (by simpa [hd'] using h)

section

variable (hcx : cx.Holds f.setting stale σ) (hσ : σ.Typed f.setting)
include hcx hσ

theorem load_holds (h : Accepts f cx (.ld d src) cx') (hact : (Op.ld d src).Acts f.setting σ σ')
    (hafter : staleAfter ((Op.ld d src).changes f.setting cx cx' stale) stale ⊆ after) :
    cx'.Holds f.setting after σ' := by
  obtain ⟨hd, hch, hread⟩ := hact
  have hany : cx'.Takes f.setting d (f.setting.Fits d) → cx'.Right f.setting σ' d :=
    fun h => right_of_takes h fun t ht => hch.2 d t ht
  cases h with
  | loadCell hw | loadBehind hw => exact hcx.target hch hany (fun r _ => .write hw) hafter
  | load hc hw htd hts =>
    have hkept : ∀ r, d ≠ r → Kept f.setting cx cx' r := by
      intro r hr
      obtain ⟨range, -, rfl⟩ := copyRange_ok hc
      exact .trans (.putRange hr) (.write hw)
    cases src with
    | constant c => exact hcx.target hch (fun h => right_of_takes h hread) hkept hafter
    | location name =>
      refine hcx.target hch ?_ hkept hafter
      rintro (hright | hright)
      · have hplace : (Ref.location name).IsPlace := trivial
        exact right_of_copyRange hd hplace htd hts hc hw hσ (hcx _ hplace hright) hread
      · exact hany hright
    | _ => cases hts

theorem store_holds (h : Accepts f cx (.st src d) cx') (hact : (Op.st src d).Acts f.setting σ σ')
    (hafter : staleAfter ((Op.st src d).changes f.setting cx cx' stale) stale ⊆ after) :
    cx'.Holds f.setting after σ' := by
  cases h with
  | storeCell hw =>
    cases hact
    exact hcx.of_kept hσ (fun r => .write (writeTable_ok hw).2.2.2) hafter
  | storeBehind hw =>
    obtain ⟨table, -, hw⟩ := writeTarget_ok hw
    cases hact
    exact hcx.of_kept hσ (fun r => .write hw) hafter
  | store hw htd =>
    cases d with
    | location name =>
      obtain ⟨-, hch, hread⟩ := hact
      refine hcx.target hch ?_ (fun r _ => .write hw) hafter
      exact fun hright => right_of_takes hright ⟨fun t ht => hch.2 _ t ht, hcx.mayBe hσ hread⟩
    | constant c => exact hact.1.elim
    | _ => cases htd

omit hσ in
/-- Additions and subtractions record any value of the type. Where the second operand is no cell of a
table, the accumulator has lost its range, unless it is the destination. -/
theorem sum_holds (hs : SumOperands f cx cx1 d src) (hsum : f.Widens cx1 [d, .z, .n, .c, .v] d cx')
    (hd : d.IsPlace)
    (hch : σ.Changes f.setting σ' (d :: ((if d = .a then [] else [Ref.a]) ++ [.z, .n, .c, .v])))
    (hafter : staleAfter ((Op.add d src).changes f.setting cx cx' stale) stale ⊆ after) :
    cx'.Holds f.setting after σ' := by
  obtain ⟨cx2, range, hw, hmax, rfl⟩ := hsum
  simp only [Op.changes] at hafter
  by_cases hda : d = .a
  · -- The accumulator is the destination, so its having been spoiled does not matter.
    rw [if_pos hda] at hafter hch
    refine hcx.widened hmax hd hch (fun r hr => .trans ?_ (.write hw)) hafter
    rcases hs with ⟨-, -, -, -, -, rfl⟩ | ⟨-, -, ⟨-, rfl⟩ | ⟨-, rfl⟩⟩ | ⟨-, -, rfl⟩
    · exact .refl
    · exact .refl
    · exact .spoil (hda ▸ hr)
    · exact .spoil (hda ▸ hr)
  · rw [if_neg hda] at hafter hch
    have hplain : (∃ t, f.setting.typeOf src = .ok t) → cx1 = cx.spoil .a →
        (cx2.putRange d range).Holds f.setting after σ' := by
      rintro ⟨t, hts⟩ rfl
      refine hcx.effect [(d, True)] [.a] [.z, .n, .c, .v] hch ?_ ?_ ?_ ?_
      · intro r right hmem _
        cases mem_singleton.1 hmem
        exact right_putRange_maxRange hch.2 hd hmax
      · intro r hr
        cases mem_singleton.1 hr
        rw [range?_putRange, if_neg hda, range?_write_of_not_mem hw]
        · simp
        · simpa [Ref.a, Ref.z, Ref.n, Ref.c, Ref.v, eq_comm] using hda
      · intro r hr hra
        refine .trans (.trans (.spoil ?_) (.write hw)) (.putRange ?_)
        · simpa [eq_comm] using hra
        · simpa [eq_comm] using hr
      · cases src with
        | location | constant => exact hafter
        | _ => cases hts
    rcases hs with ⟨b, o, i, rfl, -, rfl⟩ | ⟨hts, -, ⟨hda', -⟩ | ⟨-, hspoil⟩⟩ | ⟨hts, -, hspoil⟩
    · exact hcx.widened hmax hd hch (fun r _ => .write hw) hafter
    · exact absurd hda' hda
    · exact hplain ⟨_, hts⟩ hspoil
    · exact hplain ⟨_, hts⟩ hspoil

omit hσ in
theorem compare_holds (h : Accepts f cx (.cmp d src) cx') (hact : (Op.cmp d src).Acts f.setting σ σ')
    (hafter : staleAfter ((Op.cmp d src).changes f.setting cx cx' stale) stale ⊆ after) :
    cx'.Holds f.setting after σ' := by
  simp only [Op.Acts, Op.changes] at hact hafter
  cases h with
  | compareCell hw => exact hcx.flags hact (fun r => .write hw) hafter
  | compareBytes hw hts =>
    have hword : f.setting.isWord src = false := by simp [Setting.isWord, hts]
    rw [hword] at hact hafter
    exact hcx.flags hact (fun r => .write hw) hafter
  | compareWords hw hts =>
    have hword : f.setting.isWord src = true := by simp [Setting.isWord, hts]
    rw [hword] at hact hafter
    refine hcx.effect [] [.a] [.z, .n, .c] hact (by simp) ?_ ?_ hafter
    · intro r hr
      cases mem_singleton.1 hr
      rw [range?_write_of_not_mem hw (by decide)]
      simp
    · intro r _ hr
      refine .trans (.spoil ?_) (.write hw)
      simpa [eq_comm] using hr

/-! ### Bits and counting -/

/-- A second operand that is no cell of a table is at most the greatest value of its range. -/
theorem le_top_of_getRange {t : Int} {own : Range} (hg : cx1.getRange f.setting src = .ok own)
    (hkept : Kept f.setting cx cx1 src) (hty : f.setting.typeOf src = .ok .byte)
    (hread : σ.Reads src n) (hupper : Op.UpperHolds stale d src) (ht : own.top.int? = some t) : n ≤ t := by
  cases src with
  | constant c =>
    cases hread
    cases hg
    cases ht
    exact hupper
  | location name =>
    cases hread
    have hplace : (Ref.location name).IsPlace := trivial
    rcases getRange_ok hg with ⟨c, hc, -⟩ | hown
    · cases hc
    · exact ((hkept.right hσ hplace rfl (hcx _ hplace hupper)).1 own hown).2 t ht
  | _ => cases hty

omit hcx hσ in
theorem conjunction_le {m t : Int} (hm : 0 ≤ m) (hn : 0 ≤ n) (h : m ≤ t ∨ n ≤ t) : ((m.toNat &&& n.toNat : Nat) : Int) ≤ t := by
  have hleft : m.toNat &&& n.toNat ≤ m.toNat := Nat.and_le_left
  have hright : m.toNat &&& n.toNat ≤ n.toNat := Nat.and_le_right
  omega

theorem conjoin_holds (h : Accepts f cx (.and d src) cx') (hact : (Op.and d src).Acts f.setting σ σ')
    (hafter : staleAfter ((Op.and d src).changes f.setting cx cx' stale) stale ⊆ after) :
    cx'.Holds f.setting after σ' := by
  obtain ⟨hd, hch, n, hread, hval⟩ := hact
  have hbyte : f.readByte cx d src = .ok () := by
    cases h with
    | andCell _ hr | and _ hr => exact hr
  have htd := Setting.typeOf_place hd (readByte_ok hbyte).1
  refine hcx.target hch ?_ (fun r hr => ?_) hafter
  · rintro (⟨hlower, hupper⟩ | htakes)
    · refine ⟨fun range' hrange' => ⟨fun b hb => ?_, fun t ht => ?_⟩, within_of_byte htd⟩
      · rw [hval]
        exact hlower _ _ (hcx.mayBe hσ (Store.reads_place hd)) (hcx.mayBe hσ hread) range' b hrange' hb
      · rw [hval]
        have hm : 0 ≤ σ d := (hσ d _ htd).1
        cases h with
        | andCell hw =>
          have hright := (Kept.write hw).right hσ hd rfl (hcx d hd hupper)
          exact conjunction_le hm hread.1 (.inl ((hright.1 range' hrange').2 t ht))
        | and hw _ hty hg =>
          have hn : 0 ≤ n := (Store.Reads.fits_byte hread hσ hty).1
          obtain rfl : range' = _ := by simpa using hrange'.symm
          exact conjunction_le hm hn (.inr (le_top_of_getRange hcx hσ hg (.write hw) hty hread hupper ht))
    · exact right_of_takes htakes fun t ht => hch.2 d t ht
  · cases h with
    | andCell hw => exact .write hw
    | and hw => exact .trans (.write hw) (.putRange hr)

omit hσ in
theorem widens_holds {flags : List Ref} (h : f.Widens cx (d :: flags) d cx') (hd : d.IsPlace)
    (hch : σ.Changes f.setting σ' (d :: flags))
    (hafter : staleAfter ((d, True) :: flags.map (Op.anyIn f.setting cx')) stale ⊆ after) : cx'.Holds f.setting after σ' := by
  obtain ⟨cx1, range, hw, hmax, rfl⟩ := h
  exact hcx.widened hmax hd hch (fun r _ => .write hw) hafter

omit hcx in
/-- A byte that is known exactly is known exactly after one step, if it does not wrap around. -/
theorem right_of_step (hty : f.setting.typeOfName d.name = .ok .byte) (hright : cx1.Right f.setting σ d)
    (hown : cx1.range? d = some (.ofInts (n, n))) (hup : dir = .up → n < 255)
    (hdown : dir = .down → 0 < n) (hval : σ' d = f.setting.wrap d (σ d + dir.step)) :
    (cx1.putRange d (.ofInts (n + dir.step, n + dir.step))).Right f.setting σ' d := by
  have hn : σ d = n := by
    have := Range.admits_ofInts.1 (hright.1 _ hown)
    omega
  obtain ⟨hlow, hhigh⟩ : 0 ≤ σ d ∧ σ d ≤ 255 := hσ d _ hty
  have hstep : σ' d = n + dir.step := by
    simp only [hval, Setting.wrap, hty, Ty.wrap, Ty.maxRange, hn]
    cases dir with
    | up =>
      have := hup rfl
      simp only [Direction.step]
      omega
    | down =>
      have := hdown rfl
      simp only [Direction.step]
      omega
  refine ⟨fun range hrange => ?_, within_of_byte hty⟩
  obtain rfl : range = .ofInts (n + dir.step, n + dir.step) := by simpa using hrange.symm
  rw [hstep]
  exact Range.admits_ofInts.2 ⟨le_refl _, le_refl _⟩

theorem step_holds (hw : cx.write f.setting [d, .z, .n] = .ok cx1) (hty : f.setting.typeOf d = .ok .byte)
    (hsteps : f.Steps cx1 dir d range) (hd : d.IsPlace) (hch : σ.Changes f.setting σ' [d, .z, .n])
    (hval : σ' d = f.setting.wrap d (σ d + dir.step))
    (hafter : staleAfter ((d, d ∉ stale ∨ (cx1.putRange d range).Takes f.setting d (f.setting.Fits d))
      :: [Ref.z, Ref.n].map (Op.anyIn f.setting (cx1.putRange d range))) stale ⊆ after) :
    (cx1.putRange d range).Holds f.setting after σ' := by
  refine hcx.target hch ?_ (fun r hr => .trans (.write hw) (.putRange hr)) hafter
  rintro (hfresh | htakes)
  · rcases hsteps with hmax | ⟨n, hown, rfl, hup, hdown⟩
    · exact right_putRange_maxRange hch.2 hd hmax
    · have hright := (Kept.write hw).right hσ hd rfl (hcx d hd hfresh)
      rcases getRange_ok hown with ⟨c, rfl, -⟩ | hown
      · exact hd.elim
      · exact right_of_step hσ (Setting.typeOf_place hd hty) hright hown hup hdown hval
  · exact right_of_takes htakes fun t ht => hch.2 d t ht

/-! ### Copying -/

omit hcx hσ in
theorem range?_copied : (copied cx).range? r = if r ∈ [Ref.a, .z, .n] then none else cx.range? r := by
  rw [copied, range?_forgetAll, range?_touchAll]

omit hσ in
/-- After a copy the accumulator and the flags have no range. -/
theorem copied_holds (targets : List (Ref × Prop)) {places : List Ref}
    (hw : cx.write f.setting places = .ok cx1)
    (hch : σ.Changes f.setting σ' (targets.map Prod.fst ++ [.a, .z, .n]))
    (htargets : ∀ r right, (r, right) ∈ targets → right → (copied cx1).Right f.setting σ' r)
    (hafter : staleAfter (targets ++ [(.a, True), (.z, True), (.n, True)]) stale ⊆ after) :
    (copied cx1).Holds f.setting after σ' := by
  refine hcx.effect targets [.a, .z, .n] [] (by simpa using hch) htargets ?_ ?_ (by simpa using hafter)
  · intro r hr
    rw [range?_copied, if_pos hr]
  · intro r _ hr
    refine .trans (.write hw) (.inl ?_)
    rw [range?_copied, if_neg hr]

theorem copy_holds (h : Copies f cx cx1 src d) (hact : (Op.copy src d).Acts f.setting σ σ')
    (hafter : staleAfter ((Op.copy src d).changes f.setting cx (copied cx1) stale) stale ⊆ after) :
    (copied cx1).Holds f.setting after σ' := by
  have hplain : ∀ name, d = .location name → cx.write f.setting [d] = .ok cx1 →
      (copied cx1).Holds f.setting after σ' := by
    rintro name rfl hw
    obtain ⟨-, hch, hread⟩ := hact
    refine copied_holds hcx [(.location name, _)] hw hch ?_ hafter
    intro r right hmem hright
    cases mem_singleton.1 hmem
    exact right_of_takes hright ⟨fun t ht => hch.2 _ t ht, fun heq => hcx.mayBe hσ (hread heq)⟩
  cases h with
  | fromIndirect _ _ hw | fromCell _ _ _ _ hw | toLocation _ _ _ hw => exact hplain _ rfl hw
  | betweenIndirect _ hw | toIndirect _ _ hw =>
    obtain ⟨table, -, hw⟩ := writeTarget_ok hw
    exact copied_holds hcx [] hw hact (by simp) hafter
  | toCell _ _ _ _ hw => exact copied_holds hcx [] hw hact (by simp) hafter

/-! ### All operations -/

/-- The ranges that are not stale stay right in a single operation. -/
theorem single_holds (h : f.single cx op = .ok cx') (hact : op.Acts f.setting σ σ')
    (hafter : staleAfter (op.changes f.setting cx cx' stale) stale ⊆ after) : cx'.Holds f.setting after σ' := by
  have ha := single_accepts h
  cases single_accepts h with
  | loadCell | loadBehind | load => exact load_holds hcx hσ ha hact hafter
  | storeCell | storeBehind | store => exact store_holds hcx hσ ha hact hafter
  | compareCell | compareBytes | compareWords => exact compare_holds hcx ha hact hafter
  | andCell | and => exact conjoin_holds hcx hσ ha hact hafter
  | add hs hw | sub hs hw => exact sum_holds hcx hs hw hact.1 hact.2.1 hafter
  | or hw | xor hw => exact widens_holds hcx hw hact.1 hact.2.1 hafter
  | incCell htab hw | decCell htab hw | shlCell htab hw | shrCell htab hw =>
    exact hcx.flags hact (fun r => .trans (.write (writeTable_ok htab).2.2.2) (.write hw)) hafter
  | @inc d _ _ hw hty hsteps | @dec d _ _ hw hty hsteps =>
    cases d with
    | location => exact step_holds hcx hσ hw hty hsteps hact.1 hact.2.1 hact.2.2 hafter
    | constant => exact hact.1.elim
    | _ => cases hty
  | @shl d _ hw hty | @shr d _ hw hty =>
    cases d with
    | location => exact widens_holds hcx hw hact.1 hact.2.1 hafter
    | constant => exact hact.1.elim
    | _ => cases hty
  | copy hcopies => exact copy_holds hcx hσ hcopies hact hafter
  | @trash d =>
    cases hact
    refine hcx.effect [] [d] [] ⟨fun _ _ => rfl, hσ⟩ (by simp) (by simp) ?_ hafter
    intro r _ hr
    exact .spoil (by simpa [eq_comm] using hr)
  | nop =>
    cases hact
    exact hcx.of_kept hσ (fun r => .refl) hafter

end

/-! ### Accesses -/

/-- An accepted access that does not rely on a stale range lies inside its table. -/
theorem inBounds_of_check {index table offset : Ref} {of : Ty} {size : Int}
    (h : cx.assertInRange s index table offset = .ok ()) (hty : s.typeOf table = .ok (.table of size))
    (hcx : cx.Holds s stale σ) (hσ : σ.Typed s) (hbacks : cx.Backs s stale (table, offset, index)) :
    Access.InBounds s ⟨table, offset, index, σ index⟩ := by
  obtain ⟨i, tb, c, lo, hi, least, greatest, rfl, rfl, rfl, hindex, htable, hlow, hhigh⟩ :=
    assertInRange_ok h
  refine ⟨of, size, c, hty, rfl, ?_⟩
  have hi' : (Ref.location i).IsPlace := trivial
  have htb : (Ref.location tb).IsPlace := trivial
  by_cases hstale : .location tb ∈ stale ∨ .location i ∈ stale
  · exact hbacks hstale of size c _ hty rfl (hcx.mayBe hσ (Store.reads_place hi'))
  · rw [not_or] at hstale
    obtain ⟨hlo, hhi⟩ := Range.admits_ofInts.1 ((hcx _ hi' hstale.2).1 _ hindex)
    -- Whichever range of the table was taken, it is no more than the bounds of its type.
    obtain ⟨hleast, hgreatest⟩ : 0 ≤ least ∧ greatest ≤ size - 1 := by
      have hwithin : ∀ cx : Context, cx.Within s (.location tb) →
          cx.range? (.location tb) = some (.ofInts (least, greatest)) →
          0 ≤ least ∧ greatest ≤ size - 1 := by
        intro cx hw hr
        have := hw of size hty _ hr
        simpa [Range.ofInts, Bound.int?] using this
      rcases htable with htable | htable
      · exact hwithin cx (hcx _ htb hstale.1).2 htable
      · exact hwithin (cx.putRange (.location tb) (.ofInts (least, greatest)))
          (within_of_maxRange htb htable (by simp)) (by simp)
    simp only
    omega

/-- An operand that is a cell of a table has been checked to lie inside it. -/
def CellChecked (f : Focus) (cx : Context) (r : Ref) : Prop :=
  ∀ base offset index, r = .indexed base offset index →
    (∃ of size, f.setting.typeOf base = .ok (.table of size))
      ∧ cx.assertInRange f.setting index base offset = .ok ()

theorem checked_of_typed (h : f.setting.typeOf r = .ok t) : f.CellChecked cx r := by
  rintro b o i rfl
  cases h

theorem checked_indirect : f.CellChecked cx (.indirect r) := nofun

theorem checked_of_readTable (h : f.readTable cx b o i d = .ok ()) : f.CellChecked cx (.indexed b o i) ∧ f.CellChecked cx d := by
  obtain ⟨⟨size, hty⟩, htd, -, hr⟩ := readTable_ok h
  refine ⟨?_, checked_of_typed htd⟩
  rintro _ _ _ ⟨⟩
  exact ⟨⟨_, size, hty⟩, hr⟩

theorem checked_of_writeTable (h : f.writeTable cx b o i = .ok cx') : f.CellChecked cx (.indexed b o i) := by
  obtain ⟨⟨size, hty⟩, -, hr, -⟩ := writeTable_ok h
  rintro _ _ _ ⟨⟩
  exact ⟨⟨_, size, hty⟩, hr⟩

theorem checked_of_readByte (h : f.readByte cx d src = .ok ()) :
    f.CellChecked cx src ∧ f.CellChecked cx d := by
  obtain ⟨htd, ⟨b, o, i, rfl, hr⟩ | hts⟩ := readByte_ok h
  · exact checked_of_readTable hr
  · exact ⟨checked_of_typed hts, checked_of_typed htd⟩

theorem checked_of_sum (hs : SumOperands f cx cx1 d src) :
    f.CellChecked cx src ∧ f.CellChecked cx d := by
  rcases hs with ⟨b, o, i, rfl, hr, -⟩ | ⟨hts, htd, -⟩ | ⟨hts, htd, -⟩
  · exact checked_of_readTable hr
  · exact ⟨checked_of_typed hts, checked_of_typed htd⟩
  · exact ⟨checked_of_typed hts, htd.elim checked_of_typed checked_of_typed⟩

theorem fitsCell_table (h : fitsCell t u = true) : ∃ of size, u = .table of size := by
  cases u with
  | table of size => exact ⟨of, size, rfl⟩
  | _ => cases t <;> simp [fitsCell] at h

theorem fitsLocation_table (h : fitsLocation t u = true) : ∃ of size, t = .table of size := by
  cases t with
  | table of size => exact ⟨of, size, rfl⟩
  | _ => simp [fitsLocation] at h

theorem checked_of_copy (h : Copies f cx cx1 src d) : f.CellChecked cx src ∧ f.CellChecked cx d := by
  cases h with
  | fromIndirect _ htd _ => exact ⟨checked_indirect, checked_of_typed htd⟩
  | betweenIndirect _ _ => exact ⟨checked_indirect, checked_indirect⟩
  | toIndirect hts _ _ => exact ⟨checked_of_typed hts, checked_indirect⟩
  | fromCell htb htd hfit hr _ =>
    obtain ⟨of, size, rfl⟩ := fitsLocation_table hfit
    refine ⟨?_, checked_of_typed htd⟩
    rintro _ _ _ ⟨⟩
    exact ⟨⟨of, size, htb⟩, hr⟩
  | toCell hts htb hfit hr _ =>
    obtain ⟨of, size, rfl⟩ := fitsCell_table hfit
    refine ⟨checked_of_typed hts, ?_⟩
    rintro _ _ _ ⟨⟩
    exact ⟨⟨of, size, htb⟩, hr⟩
  | toLocation hts htd _ _ => exact ⟨checked_of_typed hts, checked_of_typed htd⟩

/-- The operands of an accepted operation have been checked, those apart that it only spoils. -/
theorem single_checked (h : f.single cx op = .ok cx') (hop : ∀ d, op ≠ .trash d) :
    (∀ r, op.src? = some r → f.CellChecked cx r) ∧ ∀ r, op.dest? = some r → f.CellChecked cx r := by
  have both : ∀ {src d : Ref}, f.CellChecked cx src ∧ f.CellChecked cx d →
      (∀ r, some src = some r → f.CellChecked cx r) ∧ ∀ r, some d = some r → f.CellChecked cx r := by
    rintro src d ⟨hs, hd⟩
    exact ⟨fun r hr => by cases hr; exact hs, fun r hr => by cases hr; exact hd⟩
  have only : ∀ {d : Ref}, f.CellChecked cx d →
      (∀ r, none = some r → f.CellChecked cx r) ∧ ∀ r, some d = some r → f.CellChecked cx r := by
    intro d hd
    exact ⟨nofun, fun r hr => by cases hr; exact hd⟩
  cases single_accepts h with
  | loadCell _ hr | compareCell _ hr => exact both (checked_of_readTable hr)
  | loadBehind _ htd => exact both ⟨checked_indirect, checked_of_typed htd⟩
  | load _ _ htd hts | compareBytes _ hts htd | compareWords _ hts htd | store _ htd hts =>
    exact both ⟨checked_of_typed hts, checked_of_typed htd⟩
  | storeCell hw hts => exact both ⟨checked_of_typed hts, checked_of_writeTable hw⟩
  | storeBehind _ hts => exact both ⟨checked_of_typed hts, checked_indirect⟩
  | add hs | sub hs => exact both (checked_of_sum hs)
  | andCell _ hr | and _ hr | or _ hr | xor _ hr => exact both (checked_of_readByte hr)
  | incCell hw | decCell hw | shlCell hw | shrCell hw => exact only (checked_of_writeTable hw)
  | inc _ hty | dec _ hty | shl _ hty | shr _ hty => exact only (checked_of_typed hty)
  | copy hc => exact both (checked_of_copy hc)
  | trash => exact absurd rfl (hop _)
  | nop => exact ⟨nofun, nofun⟩

theorem cell?_eq_some (h : r.cell? = some (b, o, i)) : r = .indexed b o i := by
  cases r with
  | indexed => cases h; rfl
  | _ => cases h

/-- Every access of an accepted operation that does not rely on a stale range lies inside its table. -/
theorem single_inBounds (h : f.single cx op = .ok cx') (hcx : cx.Holds f.setting stale σ)
    (hσ : σ.Typed f.setting) (hbacks : ∀ cell ∈ op.cells, cx.Backs f.setting stale cell) :
    ∀ access ∈ op.accesses σ, access.InBounds f.setting := by
  intro access haccess
  obtain ⟨⟨b, o, i⟩, hcell, rfl⟩ := mem_map.1 haccess
  have hop : ∀ d, op ≠ .trash d := by
    rintro d rfl
    cases hcell
  have hoperand : op.src? = some (.indexed b o i) ∨ op.dest? = some (.indexed b o i) := by
    have hcells : op.cells = (op.src?.toList ++ op.dest?.toList).filterMap Ref.cell? := by
      cases op <;> first | rfl | exact absurd rfl (hop _)
    rw [hcells, mem_filterMap] at hcell
    obtain ⟨r, hr, hrc⟩ := hcell
    obtain rfl := cell?_eq_some hrc
    simpa using hr
  have hchecked : f.CellChecked cx (.indexed b o i) := by
    rcases hoperand with hr | hr
    · exact (single_checked h hop).1 _ hr
    · exact (single_checked h hop).2 _ hr
  obtain ⟨⟨of, size, hty⟩, hr⟩ := hchecked b o i rfl
  exact inBounds_of_check hr hty hcx hσ (hbacks _ hcell)

end Focus

end CheckedAsm
