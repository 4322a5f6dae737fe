import CheckedAsm.Analysis.Report
import CheckedAsm.Proofs.Attempt
/-! # Effects on contexts

What the changes of a context do to the range of each reference, to the touched and the writeable
locations, and to whether control goes on. A write either finds a range and keeps it, or records the
widest one. -/

namespace CheckedAsm

variable {range : Range}

namespace Context

variable {s : Setting} {cx cx' cx1 cx2 : Context} {r q : Ref} {rs : List Ref}

/-- The range recorded for a reference. -/
def range? (cx : Context) (r : Ref) : Option Range := cx.ranges.get? r

/-- The widest range is recorded for the reference. -/
def Widest (s : Setting) (cx : Context) (r : Ref) : Prop :=
  ∃ range, s.maxRange r = .ok range ∧ cx.range? r = some range

theorem isMeaningful_eq : cx.isMeaningful r = (cx.range? r).isSome := rfl

/-! ### Ranges -/

@[simp] theorem range?_touch : (cx.touch q).range? r = cx.range? r := rfl

@[simp] theorem range?_forget : (cx.forget q).range? r = if q = r then none else cx.range? r :=
  Assoc.get?_erase ..

@[simp] theorem range?_spoil : (cx.spoil q).range? r = if q = r then none else cx.range? r :=
  Assoc.get?_erase ..

@[simp] theorem range?_putRange : (cx.putRange q range).range? r = if q = r then some range else cx.range? r :=
  Assoc.get?_set ..

@[simp] theorem range?_unlock : (cx.unlock q).range? r = cx.range? r := rfl

@[simp] theorem range?_meetGotos : (cx.meetGotos rs).range? r = cx.range? r := rfl

@[simp] theorem range?_branch : cx.branch.range? r = cx.range? r := rfl

@[simp] theorem range?_setAssoc {o : Option Ref} : (cx.setAssoc q o).range? r = cx.range? r := by
  cases o <;> rfl

theorem range?_touchAll : (cx.touchAll rs).range? r = cx.range? r :=
  foldl_keeps touch ((fun cx => cx.range? r)) fun _ _ => rfl

theorem range?_forgetAll :
    (cx.forgetAll rs).range? r = if r ∈ rs then none else cx.range? r := by
  induction rs generalizing cx with
  | nil => rfl
  | cons q rs ih =>
    change ((cx.forget q).forgetAll rs).range? r = _
    rw [ih]
    by_cases hr : r ∈ rs
    · simp [hr]
    · by_cases hq : q = r <;> simp [hr, hq, eq_comm (a := r)]

theorem range?_spoilAll :
    (rs.foldl spoil cx).range? r = if r ∈ rs then none else cx.range? r := by
  induction rs generalizing cx with
  | nil => rfl
  | cons q rs ih =>
    rw [List.foldl_cons, ih]
    by_cases hr : r ∈ rs
    · simp [hr]
    · by_cases hq : q = r <;> simp [hr, hq, eq_comm (a := r)]

/-! ### What a context is apart from its ranges -/

/-- Two contexts that differ at most in their ranges. -/
structure SameButRanges (cx cx' : Context) : Prop where
  touched : cx'.touched = cx.touched
  writeable : cx'.writeable = cx.writeable
  terminated : cx'.terminated = cx.terminated
  gotos : cx'.gotos = cx.gotos
  assoc : cx'.assoc = cx.assoc

theorem SameButRanges.refl (cx : Context) : SameButRanges cx cx := ⟨rfl, rfl, rfl, rfl, rfl⟩

theorem SameButRanges.trans (h : SameButRanges cx cx1) (h' : SameButRanges cx1 cx2) :
    SameButRanges cx cx2 :=
  ⟨h'.touched.trans h.touched, h'.writeable.trans h.writeable, h'.terminated.trans h.terminated,
    h'.gotos.trans h.gotos, h'.assoc.trans h.assoc⟩

theorem SameButRanges.putRange (cx : Context) (r : Ref) (range : Range) :
    SameButRanges cx (cx.putRange r range) := ⟨rfl, rfl, rfl, rfl, rfl⟩

theorem mem_touched_touchAll : r ∈ (cx.touchAll rs).touched ↔ r ∈ cx.touched ∨ r ∈ rs := by
  induction rs generalizing cx with
  | nil => simp [touchAll]
  | cons q rs ih =>
    change r ∈ ((cx.touch q).touchAll rs).touched ↔ _
    rw [ih]
    simp only [touch, List.mem_insert_iff, List.mem_cons]
    rw [or_left_comm, or_assoc]

theorem mem_touched_spoil : r ∈ (cx.spoil q).touched ↔ r = q ∨ r ∈ cx.touched := by
  simp [spoil, touch, forget]

@[simp] theorem writeable_spoil : (cx.spoil q).writeable = cx.writeable := rfl

@[simp] theorem terminated_spoil : (cx.spoil q).terminated = cx.terminated := rfl

@[simp] theorem terminated_putRange : (cx.putRange q range).terminated = cx.terminated := rfl

theorem writeable_touchAll : (cx.touchAll rs).writeable = cx.writeable := foldl_keeps touch writeable fun _ _ => rfl

theorem terminated_touchAll : (cx.touchAll rs).terminated = cx.terminated := foldl_keeps touch terminated fun _ _ => rfl

/-- Which locations may be written to, and whether control has ended. -/
def rights (cx : Context) : List Ref × Bool := (cx.writeable, cx.terminated)

/-- One context comes about from another by touching locations and by changing ranges. -/
inductive Reworks (cx : Context) : Context → Prop
  | refl : Reworks cx cx
  | touch {cx' : Context} (r : Ref) : Reworks cx cx' → Reworks cx (cx'.touch r)
  | ranges {cx' : Context} (m : Assoc Ref Range) : Reworks cx cx' → Reworks cx { cx' with ranges := m }

theorem Reworks.rights (h : Reworks cx cx') : cx'.rights = cx.rights := by
  induction h with
  | refl => rfl
  | touch _ _ ih => exact ih
  | ranges _ _ ih => exact ih

theorem Reworks.trans (h : Reworks cx cx1) (h' : Reworks cx1 cx') : Reworks cx cx' := by
  induction h' with
  | refl => exact h
  | touch r _ ih => exact ih.touch r
  | ranges m _ ih => exact ih.ranges m

theorem Reworks.touchAll (h : Reworks cx cx') (rs : List Ref) : Reworks cx (cx'.touchAll rs) := by
  induction rs generalizing cx' with
  | nil => exact h
  | cons r rs ih => exact ih (h.touch r)

theorem Reworks.forgetAll (h : Reworks cx cx') (rs : List Ref) : Reworks cx (cx'.forgetAll rs) := by
  induction rs generalizing cx' with
  | nil => exact h
  | cons r rs ih => exact ih (h.ranges _)

theorem SameButRanges.reworks (h : SameButRanges cx cx') : Reworks cx cx' := by
  obtain ⟨touched, ranges, writeable, terminated, gotos, assoc⟩ := cx'
  obtain ⟨rfl, rfl, rfl, rfl, rfl⟩ := h
  exact .ranges ranges .refl

/-! ### Giving values -/

theorem makeMeaningful_ok (h : cx.makeMeaningful s q = .ok cx') :
    SameButRanges cx cx' ∧ (cx'.range? q).isSome
      ∧ ∀ r, cx'.range? r = cx.range? r ∨ (r = q ∧ cx.range? r = none ∧ cx'.Widest s r) := by
  unfold makeMeaningful at h
  by_cases hq : cx.isMeaningful q
  · rw [if_pos hq] at h
    cases h
    exact ⟨.refl cx, hq, fun r => .inl rfl⟩
  · rw [if_neg hq, map_eq_ok] at h
    obtain ⟨range, hmax, rfl⟩ := h
    refine ⟨.putRange .., by simp, fun r => ?_⟩
    by_cases hr : q = r
    · subst hr
      refine .inr ⟨rfl, ?_, range, hmax, by simp⟩
      simpa [isMeaningful_eq] using hq
    · exact .inl (by simp [hr])

theorem makeAllMeaningful_ok (h : cx.makeAllMeaningful s rs = .ok cx') :
    SameButRanges cx cx' ∧ (∀ r ∈ rs, (cx'.range? r).isSome)
      ∧ ∀ r, cx'.range? r = cx.range? r ∨ (r ∈ rs ∧ cx.range? r = none ∧ cx'.Widest s r) := by
  induction rs generalizing cx with
  | nil =>
    cases h
    exact ⟨.refl _, by simp, fun r => .inl rfl⟩
  | cons q rs ih =>
    rw [makeAllMeaningful, List.foldlM_cons, bind_eq_ok] at h
    obtain ⟨cx1, h1, h2⟩ := h
    obtain ⟨same1, some1, range1⟩ := makeMeaningful_ok h1
    obtain ⟨same2, some2, range2⟩ := ih h2
    refine ⟨same1.trans same2, ?_, fun r => ?_⟩
    · -- A range that is there already stays.
      rw [List.forall_mem_cons]
      refine ⟨?_, some2⟩
      rcases range2 q with h | ⟨-, h, -⟩
      · rw [h]; exact some1
      · rw [h] at some1; cases some1
    · rcases range2 r with h | ⟨hr, h, hw⟩
      · rcases range1 r with h' | ⟨hr, h', hw⟩
        · exact .inl (h.trans h')
        · obtain ⟨range, hmax, hrange⟩ := hw
          exact .inr ⟨by simp [hr], h', range, hmax, h.trans hrange⟩
      · rcases range1 r with h' | ⟨hr', h', hw'⟩
        · exact .inr ⟨by simp [hr], h'.symm.trans h, hw⟩
        · exact .inr ⟨by simp [hr], h', hw⟩

section

variable (h : cx.write s rs = .ok cx')
include h

/-- A write is allowed for all its locations, touches them, and keeps the ranges that are there. -/
theorem write_ok :
    (∀ r ∈ rs, cx.assertWriteable s none r = .ok ())
      ∧ (∀ r, r ∈ cx'.touched ↔ r ∈ cx.touched ∨ r ∈ rs)
      ∧ cx'.writeable = cx.writeable ∧ cx'.terminated = cx.terminated
      ∧ (∀ r ∈ rs, (cx'.range? r).isSome)
      ∧ ∀ r, cx'.range? r = cx.range? r ∨ (r ∈ rs ∧ cx.range? r = none ∧ cx'.Widest s r) := by
  rw [write, bind_eq_ok] at h
  obtain ⟨⟨⟩, hw, h⟩ := h
  obtain ⟨same, hsome, hrange⟩ := makeAllMeaningful_ok h
  refine ⟨forM_eq_ok.1 hw, fun r => ?_, ?_, ?_, hsome, fun r => ?_⟩
  · rw [same.touched, mem_touched_touchAll]
  · rw [same.writeable, writeable_touchAll]
  · rw [same.terminated, terminated_touchAll]
  · have hr := hrange r
    rwa [range?_touchAll] at hr

theorem reworks_write : Reworks cx cx' := by
  rw [write, bind_eq_ok] at h
  obtain ⟨⟨⟩, -, h⟩ := h
  exact (Reworks.refl.touchAll rs).trans (makeAllMeaningful_ok h).1.reworks

/-- A write records no range but the widest one. -/
theorem range?_write (r : Ref) :
    cx'.range? r = cx.range? r ∨ cx'.Widest s r :=
  ((write_ok h).2.2.2.2.2 r).imp id fun h => h.2.2

/-- A write does not concern the ranges of other locations. -/
theorem range?_write_of_not_mem (hr : r ∉ rs) :
    cx'.range? r = cx.range? r := by
  rcases (write_ok h).2.2.2.2.2 r with h | ⟨hr', -⟩
  · exact h
  · exact absurd hr' hr

end

/-! ### Setting ranges -/

theorem rangeOf_ok (h : cx.rangeOf r = .ok range) : cx.range? r = some range := by
  unfold rangeOf at h
  cases hr : cx.ranges.get? r with
  | none => simp [hr] at h
  | some range' =>
    simp only [hr, Except.ok.injEq] at h
    exact hr.trans (congrArg some h)

theorem setRange_ok (h : cx.setRange s r range = .ok cx') : cx' = cx.putRange r range := by
  rw [setRange, bind_eq_ok] at h
  obtain ⟨⟨⟩, -, h⟩ := h
  exact (pure_eq_ok.1 h).symm

theorem setTop_ok {top : Bound} (h : cx.setTop s r top = .ok cx') :
    ∃ range, cx.range? r = some range ∧ cx' = cx.putRange r ⟨range.bottom, top⟩ := by
  simp only [setTop, bind_eq_ok, pure_eq_ok] at h
  obtain ⟨⟨⟩, -, range, hr, rfl⟩ := h
  exact ⟨range, rangeOf_ok hr, rfl⟩

theorem widen_ok (h : cx.widen s r = .ok cx') :
    ∃ range, s.maxRange r = .ok range ∧ cx' = cx.putRange r range := by
  simp only [widen, bind_eq_ok, pure_eq_ok] at h
  obtain ⟨⟨⟩, -, range, hr, rfl⟩ := h
  exact ⟨range, hr, rfl⟩

theorem copyRange_ok {src d : Ref} (h : cx.copyRange s src d = .ok cx') :
    ∃ range, (cx.range? src = some range ∨ s.maxRange src = .ok range) ∧ cx' = cx.putRange d range := by
  rw [copyRange, bind_eq_ok] at h
  obtain ⟨⟨⟩, -, h⟩ := h
  cases hr : cx.ranges.get? src with
  | some range =>
    simp only [hr, bind_eq_ok, pure_eq_ok] at h
    obtain ⟨_, rfl, rfl⟩ := h
    exact ⟨range, .inl hr, rfl⟩
  | none =>
    simp only [hr, bind_eq_ok, pure_eq_ok] at h
    obtain ⟨range, hmax, rfl⟩ := h
    exact ⟨range, .inr hmax, rfl⟩

theorem getRange_ok (h : cx.getRange s r = .ok range) :
    (∃ c, r = .constant c ∧ range = .ofInts (c.value, c.value)) ∨ cx.range? r = some range := by
  cases r with
  | constant c => cases h; exact .inl ⟨c, rfl, rfl⟩
  | _ =>
    simp only [getRange, bind_eq_ok] at h
    obtain ⟨⟨⟩, -, h⟩ := h
    exact .inr (rangeOf_ok h)

end Context

end CheckedAsm
