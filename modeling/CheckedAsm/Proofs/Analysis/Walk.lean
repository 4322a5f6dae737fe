import CheckedAsm.Proofs.Analysis.Inversion
/-! # What a walk has done

The parts of a walk through a block, read backwards: what calls and jumps, the merging of two branches,
and entering and leaving the constructs of the language do to the context. -/

namespace CheckedAsm

open Focus

variable {s : Setting} {sig : Signature} {slots : List Slot} {r : Ref} {body : Block} {symbols : Symbols}

namespace Focus

open Context

variable {f : Focus} {cx cx' cx1 cx2 merged : Context} {d : Ref}

/-! ### Calls and jumps -/

theorem callee_ok {target : String} {ty : Ty} (h : f.callee target = .ok (ty, sig)) :
    f.setting.typeOfName target = .ok ty ∧ (ty = .routine sig ∨ ty = .vector (.routine sig)) := by
  simp only [callee, bind_eq_ok] at h
  obtain ⟨t, ht, h⟩ := h
  split at h
  · cases h; exact ⟨ht, .inl rfl⟩
  · cases h; exact ⟨ht, .inr rfl⟩
  · cases h
  · cases h

theorem writeEach_ok (h : slots.foldlM (fun cx o => cx.write s [.ofSlot o]) cx = .ok cx') :
    (∀ r ∈ slots.map Ref.ofSlot, cx.assertWriteable s none r = .ok ())
      ∧ (∀ r, r ∈ cx'.touched ↔ r ∈ cx.touched ∨ r ∈ slots.map Ref.ofSlot)
      ∧ cx'.writeable = cx.writeable ∧ cx'.terminated = cx.terminated
      ∧ ∀ r, cx'.range? r = cx.range? r ∨ cx'.Widest s r := by
  induction slots generalizing cx with
  | nil =>
    cases h
    simp
  | cons o slots ih =>
    rw [List.foldlM_cons, bind_eq_ok] at h
    obtain ⟨cx1, hw, h⟩ := h
    obtain ⟨allowed, touched, writeable, terminated, -, -⟩ := write_ok hw
    obtain ⟨allowed', touched', writeable', terminated', ranges'⟩ := ih h
    refine ⟨?_, fun r => ?_, writeable'.trans writeable, terminated'.trans terminated, fun r => ?_⟩
    · intro r hr
      rcases List.mem_cons.1 hr with rfl | hr
      · exact allowed _ (by simp)
      · have := allowed' r hr
        rwa [assertWriteable, writeable] at this
    · rw [touched', touched]
      simp [or_assoc]
    · rcases ranges' r with h' | h'
      · rcases range?_write hw r with hr | ⟨range, hmax, hr⟩
        · exact .inl (h'.trans hr)
        · exact .inr ⟨range, hmax, h'.trans hr⟩
      · exact .inr h'

theorem spoilEach_ok
    (h : slots.foldlM (fun cx o => do
      Context.assertWriteable s cx none (.ofSlot o)
      pure (cx.spoil (.ofSlot o))) cx = .ok cx') :
    (∀ r ∈ slots.map Ref.ofSlot, cx.assertWriteable s none r = .ok ())
      ∧ (∀ r, r ∈ cx'.touched ↔ r ∈ cx.touched ∨ r ∈ slots.map Ref.ofSlot)
      ∧ cx'.writeable = cx.writeable ∧ cx'.terminated = cx.terminated
      ∧ ∀ r, cx'.range? r = if r ∈ slots.map Ref.ofSlot then none else cx.range? r := by
  induction slots generalizing cx with
  | nil =>
    cases h
    simp
  | cons o slots ih =>
    simp only [List.foldlM_cons, bind_eq_ok, pure_eq_ok] at h
    obtain ⟨_, ⟨⟨⟩, hw, rfl⟩, h⟩ := h
    obtain ⟨allowed', touched', writeable', terminated', ranges'⟩ := ih h
    refine ⟨?_, fun r => ?_, writeable', terminated', fun r => ?_⟩
    · intro r hr
      rcases List.mem_cons.1 hr with rfl | hr
      · exact hw
      · exact allowed' r hr
    · rw [touched', mem_touched_spoil]
      simp only [List.map_cons, List.mem_cons]
      rw [or_comm (a := r = _), or_assoc]
    · rw [ranges', range?_spoil]
      by_cases hr : r ∈ slots.map Ref.ofSlot
      · simp only [hr, ↓reduceIte, List.map_cons, List.mem_cons, or_true]
      · by_cases hq : Ref.ofSlot o = r <;> simp [hr, hq, eq_comm (a := r)]

/-- What a call does to the context: what the routine sets and spoils may be written to and is touched,
and what it spoils has no range. -/
theorem perform_ok (h : perform s cx sig = .ok cx') :
    (∀ r ∈ (sig.outputs ++ sig.trashes).map Ref.ofSlot, cx.assertWriteable s none r = .ok ())
      ∧ (∀ r, r ∈ cx'.touched ↔ r ∈ cx.touched ∨ r ∈ (sig.outputs ++ sig.trashes).map Ref.ofSlot)
      ∧ cx'.writeable = cx.writeable ∧ cx'.terminated = cx.terminated
      ∧ ∀ r, r ∉ sig.trashes.map Ref.ofSlot → cx'.range? r = cx.range? r ∨ cx'.Widest s r := by
  rw [perform, bind_eq_ok] at h
  obtain ⟨cx1, ho, ht⟩ := h
  obtain ⟨allowed, touched, writeable, terminated, ranges⟩ := writeEach_ok ho
  obtain ⟨allowed', touched', writeable', terminated', ranges'⟩ := spoilEach_ok ht
  refine ⟨?_, fun r => ?_, writeable'.trans writeable, terminated'.trans terminated, fun r hr => ?_⟩
  · intro r hr
    rw [List.map_append, List.mem_append] at hr
    rcases hr with hr | hr
    · exact allowed r hr
    · have := allowed' r hr
      rwa [assertWriteable, writeable] at this
  · rw [touched', touched, List.map_append, List.mem_append, or_assoc]
  · have h' := ranges' r
    rw [if_neg hr] at h'
    rcases ranges r with h | ⟨range, hmax, h⟩
    · exact .inl (h'.trans h)
    · exact .inr ⟨range, hmax, h'.trans h⟩

theorem call_ok {t t' : Trail} {target : String} (h : f.call t target = .ok t') :
    ∃ ty sig cx, f.setting.typeOfName target = .ok ty ∧ (ty = .routine sig ∨ ty = .vector (.routine sig))
      ∧ (sig.inputs.map .ofSlot).forM (t.cx.assertMeaningful f.setting) = .ok () ∧ perform f.setting t.cx sig = .ok cx
      ∧ t' = (t.meet target ty).withContext cx := by
  simp only [call, bind_eq_ok, pure_eq_ok] at h
  obtain ⟨⟨ty, sig⟩, hc, ⟨⟩, hinputs, cx, hp, rfl⟩ := h
  obtain ⟨hty, hsig⟩ := callee_ok hc
  exact ⟨ty, sig, cx, hty, hsig, hinputs, hp, rfl⟩

/-- A routine that is jumped to is performed for the exit context that is left behind. -/
theorem jump_ok {t t' : Trail} {target : String} (h : f.jump t target = .ok t') :
    ∃ ty sig left, f.setting.typeOfName target = .ok ty ∧ (ty = .routine sig ∨ ty = .vector (.routine sig))
      ∧ (sig.inputs.map .ofSlot).forM (t.cx.assertMeaningful f.setting) = .ok ()
      ∧ perform f.setting (t.cx.meetGotos [.location target]).branch sig = .ok left
      ∧ t' = { (t.meet target ty).withContext (t.cx.meetGotos [.location target]).terminate with exits := t.exits ++ [left] } := by
  simp only [jump, bind_eq_ok] at h
  obtain ⟨⟨ty, sig⟩, hc, ⟨⟩, hinputs, own, -, h⟩ := h
  obtain ⟨hty, hsig⟩ := callee_ok hc
  split at h
  · simp only [bind_eq_ok, pure_eq_ok] at h
    obtain ⟨⟨⟩, -, ⟨⟩, -, left, hp, rfl⟩ := h
    exact ⟨ty, sig, left, hty, hsig, hinputs, hp, rfl⟩
  · simp [bind_eq_ok] at h

theorem jump_cx {t t' : Trail} {target : String} (h : f.jump t target = .ok t') :
    t'.cx = (t.cx.meetGotos [.location target]).terminate := by
  obtain ⟨ty, sig, left, -, -, -, -, rfl⟩ := jump_ok h
  rfl

/-! ### Choices -/

/-- The union of two lists, the first one in front. -/
theorem mem_foldl_insert {l acc : List Ref} : r ∈ l.foldl (fun acc r => acc.insert r) acc ↔ r ∈ acc ∨ r ∈ l := by
  induction l generalizing acc with
  | nil => simp
  | cons q l ih =>
    rw [List.foldl_cons, ih, List.mem_insert_iff, List.mem_cons, or_comm (a := r = q), or_assoc]

theorem mem_touched_spoilAll {rs : List Ref} : r ∈ (rs.foldl spoil cx).touched ↔ r ∈ cx.touched ∨ r ∈ rs := by
  induction rs generalizing cx with
  | nil => simp
  | cons q rs ih => rw [List.foldl_cons, ih, mem_touched_spoil, List.mem_cons, or_comm (a := r = q), or_assoc]

theorem terminated_spoilAll {rs : List Ref} :
    (rs.foldl spoil cx).terminated = cx.terminated := foldl_keeps spoil Context.terminated fun _ _ => rfl

/-- How the two branches of a choice are put together, before what lacks a value in one of them is spoiled: one of them is taken if
the other has ended in a jump, and what has a value in both has one if none has. -/
inductive Joins (s : Setting) (cx cx1 cx2 : Context) : Context → Prop
  | second {gotos} (h1 : cx1.terminated = true) : Joins s cx cx1 cx2 { cx2 with gotos }
  | first {gotos} (h1 : cx1.terminated = false) (h2 : cx2.terminated = true) : Joins s cx cx1 cx2 { cx1 with gotos }
  | neither {both} (h1 : cx1.terminated = false) (h2 : cx2.terminated = false) (hgo : both.terminated = cx.terminated)
      (hassoc : both.assoc = cx.assoc) (htouched : both.touched = cx2.touched.foldl (fun acc r => acc.insert r) cx1.touched)
      (hwriteable : both.writeable = cx2.writeable.foldl (fun acc r => acc.insert r) cx1.writeable)
      (hranges : ∀ r, both.range? r = cx.range? r ∨ r ∈ cx1.meaningful.filter cx2.isMeaningful ∧ both.Widest s r) :
      Joins s cx cx1 cx2 both

theorem merge_ok (h : merge s cx cx1 cx2 = .ok merged) :
    ∃ both, merged = (cx.meaningful.filter fun r => !(cx1.meaningful.filter cx2.isMeaningful).contains r).foldl spoil both
      ∧ (∀ r, r ∈ both.gotos ↔ (r ∈ cx.gotos ∨ r ∈ cx1.gotos) ∨ r ∈ cx2.gotos) ∧ Joins s cx cx1 cx2 both := by
  have hgotos (before : Context) (heq : before.gotos = cx.gotos) (r : Ref) :
      r ∈ ((before.meetGotos cx1.gotos).meetGotos cx2.gotos).gotos ↔ (r ∈ cx.gotos ∨ r ∈ cx1.gotos) ∨ r ∈ cx2.gotos := by
    simp only [meetGotos, mem_foldl_insert, heq]
  cases h1 : cx1.terminated with
  | true =>
    simp only [merge, h1, ↓reduceIte, bind_eq_ok, pure_eq_ok] at h
    obtain ⟨_, rfl, rfl⟩ := h
    exact ⟨_, rfl, hgotos _ rfl, .second h1⟩
  | false =>
    cases h2 : cx2.terminated with
    | true =>
      simp only [merge, h1, h2, Bool.false_eq_true, ↓reduceIte, bind_eq_ok, pure_eq_ok] at h
      obtain ⟨_, rfl, rfl⟩ := h
      exact ⟨_, rfl, hgotos _ rfl, .first h1 h2⟩
    | false =>
      simp only [merge, h1, h2, Bool.false_eq_true, ↓reduceIte, bind_eq_ok, pure_eq_ok] at h
      obtain ⟨both, hboth, rfl⟩ := h
      obtain ⟨same, -, ranges⟩ := makeAllMeaningful_ok hboth
      exact ⟨_, rfl, hgotos _ same.gotos, .neither h1 h2 same.terminated same.assoc same.touched same.writeable
        fun r => (ranges r).imp_right fun h => ⟨h.1, h.2.2⟩⟩

/-- A choice ends control where both of its branches do. -/
theorem merge_terminated (h : merge s cx cx1 cx2 = .ok merged) :
    merged.terminated = if cx1.terminated then cx2.terminated
      else if cx2.terminated then false else cx.terminated := by
  obtain ⟨both, rfl, -, hjoins⟩ := merge_ok h
  rw [terminated_spoilAll]
  cases hjoins with
  | second h1 => simp [h1]
  | first h1 h2 => simp [h1, h2]
  | neither h1 h2 hgo => simp [h1, h2, hgo]

/-! ### Counting loops -/

/-- Inside a counting loop the variable has a range up to the last value. -/
theorem loopRange_ok {range inside : Range} {final : Int} {dir : Direction}
    (h : f.loopRange d range final dir = .ok inside) :
    (dir = .up ∧ ∃ t, range.top = .int t ∧ t < final ∧ inside = ⟨range.bottom, .int final⟩)
      ∨ (dir = .down ∧ ∃ b, range.bottom = .int b ∧ final < b ∧ inside = ⟨.int final, range.top⟩) := by
  cases dir with
  | up =>
    simp only [loopRange, bind_eq_ok] at h
    obtain ⟨below, hb, h⟩ := h
    obtain ⟨t, ht, rfl⟩ := Bound.below_ok hb
    by_cases hlt : t < final
    · simp only [hlt, decide_true, ↓reduceIte, pure_eq_ok] at h
      exact .inl ⟨rfl, t, ht, hlt, h.symm⟩
    · simp [hlt] at h
  | down =>
    simp only [loopRange, bind_eq_ok] at h
    obtain ⟨above, ha, h⟩ := h
    obtain ⟨b, hb, rfl⟩ := Bound.above_ok ha
    by_cases hlt : final < b
    · simp only [hlt, decide_true, ↓reduceIte, pure_eq_ok] at h
      exact .inr ⟨rfl, b, hb, hlt, h.symm⟩
    · simp [hlt] at h

theorem enterCount_ok {dir : Direction} {final : Const} (h : f.enterCount cx d dir final = .ok cx') :
    ∃ range inside, cx.assertWriteable f.setting none d = .ok ()
      ∧ cx.getRange f.setting d = .ok range ∧ f.loopRange d range final.value dir = .ok inside
      ∧ cx' = { cx.putRange d inside with writeable := cx.writeable.erase d } := by
  simp only [enterCount, bind_eq_ok] at h
  obtain ⟨⟨⟩, -, ⟨⟩, hw, range, hg, inside, hl, cx1, hs, h⟩ := h
  cases setRange_ok hs
  refine ⟨range, inside, hw, hg, hl, ?_⟩
  unfold lock at h
  split at h
  · exact (Except.ok.inj h).symm
  · cases h

theorem leaveCount_ok {final : Const} (h : f.leaveCount cx d final = .ok cx') :
    cx' = (cx.putRange d ⟨.const final, .const final⟩).unlock d := by
  simp only [leaveCount, bind_eq_ok, pure_eq_ok] at h
  obtain ⟨cx1, hs, rfl⟩ := h
  rw [setRange_ok hs]

/-! ### Setting bytes aside -/

/-- The batons hold what was known, and only the permission to write changes. -/
theorem setAside_ok {rs : List Ref} {batons : List Baton} (h : f.setAside rs cx = .ok (batons, cx')) :
    (∀ r, cx'.range? r = cx.range? r) ∧ cx'.terminated = cx.terminated ∧ cx'.touched = cx.touched
      ∧ (∀ r ∈ rs, f.setting.typeOf r = .ok .byte)
      ∧ (∀ b ∈ batons, b.location ∈ rs ∧ b.range = cx.range? b.location
        ∧ b.touched = cx.touched.contains b.location)
      ∧ ∀ r ∈ rs, ∃ b ∈ batons, b.location = r := by
  induction rs generalizing cx batons with
  | nil =>
    cases h
    simp
  | cons q rs ih =>
    simp only [setAside, bind_eq_ok, pure_eq_ok] at h
    obtain ⟨⟨⟩, hty, ⟨batons1, cx1⟩, h1, h⟩ := h
    cases h
    obtain ⟨ranges, terminated, touched, types, made, all⟩ := ih h1
    refine ⟨ranges, terminated, touched, ?_, ?_, ?_⟩
    · rw [List.forall_mem_cons]
      exact ⟨assertType_ok hty, types⟩
    · intro b hb
      rcases List.mem_append.1 hb with hb | hb
      · obtain ⟨hmem, hrest⟩ := made b hb
        exact ⟨by simp [hmem], hrest⟩
      · cases List.mem_singleton.1 hb
        exact ⟨by simp [extract], rfl, rfl⟩
    · rw [List.forall_mem_cons]
      refine ⟨⟨(cx.extract q).1, List.mem_append_right _ (by simp), rfl⟩, fun r hr => ?_⟩
      obtain ⟨b, hb, hbr⟩ := all r hr
      exact ⟨b, List.mem_append_left _ hb, hbr⟩

theorem range?_reintroduce {b : Baton} : (cx.reintroduce b).range? r = if b.location = r then b.range else cx.range? r := by
  unfold reintroduce range?
  cases hb : b.range with
  | some range => simp
  | none => simp

/-- Bytes that were set aside have their former ranges again, the other locations keep theirs. -/
theorem range?_reintroduceAll {batons : List Baton} (h : ∀ b ∈ batons, b.range = cx.range? b.location) :
    (batons.foldl reintroduce cx1).range? r = if ∃ b ∈ batons, b.location = r then cx.range? r else cx1.range? r := by
  induction batons generalizing cx1 with
  | nil => simp
  | cons b batons ih =>
    rw [List.foldl_cons, ih fun b hb => h b (by simp [hb])]
    by_cases hr : ∃ b ∈ batons, b.location = r
    · rw [if_pos hr, if_pos]
      obtain ⟨b', hb', hbr⟩ := hr
      exact ⟨b', by simp [hb'], hbr⟩
    · rw [if_neg hr, range?_reintroduce]
      by_cases hb : b.location = r
      · rw [if_pos hb, if_pos ⟨b, by simp, hb⟩, h b (by simp), hb]
      · rw [if_neg hb, if_neg]
        rintro ⟨b', hb', hbr⟩
        rcases List.mem_cons.1 hb' with rfl | hb'
        · exact hb hbr
        · exact hr ⟨b', hb', hbr⟩

theorem terminated_restore {batons : List Baton} {first : Option Ref} :
    (restore cx batons first).terminated = cx.terminated := by
  unfold restore
  split
  all_goals exact foldl_keeps reintroduce Context.terminated fun _ _ => rfl

/-! ### Pointers -/

theorem enterPoint_ok {pointer table : Ref} (h : f.enterPoint cx pointer table = .ok cx') :
    f.setting.typeOf pointer = .ok .pointer ∧ (∃ size, f.setting.typeOf table = .ok (.table .byte size))
      ∧ cx.getAssoc pointer = none ∧ cx' = (cx.setAssoc pointer (some table)).forget pointer := by
  simp only [enterPoint, bind_eq_ok, guard_eq_ok, pure_eq_ok] at h
  obtain ⟨t, ht, hp, u, hu, hb, ha, rfl⟩ := h
  obtain rfl := isPointer_eq (t := t) (by simpa using hp)
  obtain ⟨size, rfl⟩ : ∃ size, u = .table .byte size := isTableOf_eq (by simpa using hb)
  exact ⟨ht, ⟨size, hu⟩, by simpa using ha, rfl⟩

theorem reset_ok {pointer : Ref} {offset : Const} (h : f.reset cx pointer offset = .ok cx') :
    f.setting.typeOf pointer = .ok .pointer
      ∧ ∃ cx1, cx.makeMeaningful f.setting pointer = .ok cx1 ∧ cx' = cx1.touch pointer := by
  simp only [reset, bind_eq_ok, guard_eq_ok] at h
  obtain ⟨t, ht, hp, h⟩ := h
  obtain rfl := isPointer_eq (t := t) (by simpa using hp)
  refine ⟨ht, ?_⟩
  cases ha : cx.getAssoc pointer with
  | none => simp [ha] at h
  | some table =>
    simp only [ha, bind_eq_ok, guard_eq_ok, pure_eq_ok] at h
    obtain ⟨⟨⟩, -, range, -, above, -, -, below, -, -, cx1, hm, rfl⟩ := h
    exact ⟨cx1, hm, rfl⟩

end Focus

open Context

/-! ### Where control goes on -/

mutual

/-- Whether the analysis takes control to have ended after the instruction, from whether it had before. -/
def Instr.closes : Instr → Bool → Bool
  | .op .., b | .call .., b | .reset .., b => b
  | .goto .., _ => true
  | .ifThen _ _ _ yes, b => if yes.closes false then false else b
  | .ifElse _ _ _ yes no, b =>
    if yes.closes false then no.closes false else if no.closes false then false else b
  | .loop _ _ _ body, b | .count _ _ _ _ body, b => body.closes (body.closes b)
  | .interruptsOff _ body, b | .save _ _ body, b | .pointInto _ _ _ body, b => body.closes b

/-- Whether the analysis takes control to have ended after the block. -/
def Block.closes : Block → Bool → Bool
  | .nil _, b => b
  | .cons head tail, b => tail.closes (head.closes b)

end

mutual

/-- Whether no jump stands in the instruction. -/
def Instr.isJumpFree : Instr → Bool
  | .goto .. => false
  | .op .. | .call .. | .reset .. => true
  | .ifThen _ _ _ yes => yes.isJumpFree
  | .ifElse _ _ _ yes no => yes.isJumpFree && no.isJumpFree
  | .loop _ _ _ body | .count _ _ _ _ body | .interruptsOff _ body | .save _ _ body | .pointInto _ _ _ body =>
    body.isJumpFree

/-- Whether no jump stands in the block. -/
def Block.isJumpFree : Block → Bool
  | .nil _ => true
  | .cons head tail => head.isJumpFree && tail.isJumpFree

end

mutual

theorem Instr.closes_of_jumpFree : ∀ (i : Instr), i.isJumpFree = true → ∀ c, i.closes c = c
  | .op .., _, _ | .call .., _, _ | .reset .., _, _ => rfl
  | .ifThen _ _ _ yes, h, c => by
    rw [Instr.closes, yes.closes_of_jumpFree h]
    rfl
  | .ifElse _ _ _ yes no, h, c => by
    simp only [Instr.isJumpFree, Bool.and_eq_true] at h
    rw [Instr.closes, yes.closes_of_jumpFree h.1, no.closes_of_jumpFree h.2]
    rfl
  | .loop _ _ _ body, h, c | .count _ _ _ _ body, h, c => by
    rw [Instr.closes, body.closes_of_jumpFree h, body.closes_of_jumpFree h]
  | .interruptsOff _ body, h, c | .save _ _ body, h, c | .pointInto _ _ _ body, h, c => by
    rw [Instr.closes, body.closes_of_jumpFree h]

/-- Without jumps control goes on. -/
theorem Block.closes_of_jumpFree : ∀ (b : Block), b.isJumpFree = true → ∀ c, b.closes c = c
  | .nil _, _, _ => rfl
  | .cons head tail, h, c => by
    simp only [Block.isJumpFree, Bool.and_eq_true] at h
    rw [Block.closes, head.closes_of_jumpFree h.1, tail.closes_of_jumpFree h.2]

end

/-- A block that may stand without interrupts is walked through as any other. -/
theorem Block.walk_of_interruptsOff (s : Setting) : ∀ (b : Block) {t t' : Trail},
    b.walkInterruptsOff s t = .ok t' → b.walk s t = .ok t'
  | .nil _, t, t', h => h
  | .cons head tail, t, t', h => by
    simp only [Block.walkInterruptsOff, guard_eq_ok, bind_eq_ok] at h
    obtain ⟨-, t1, h1, h2⟩ := h
    simp only [Block.walk, bind_eq_ok]
    exact ⟨t1, h1, tail.walk_of_interruptsOff s h2⟩

/-- The steps of a walk through an instruction. -/
inductive Instr.Walked (s : Setting) (t : Trail) : Instr → Trail → Prop
  | op {line op cx} : Focus.single ⟨s, .op line op⟩ t.cx op.settled = .ok cx → Walked s t (.op line op) (t.withContext cx)
  | call {line target t'} : Focus.call ⟨s, .call line target⟩ t target = .ok t' → Walked s t (.call line target) t'
  | goto {line target t'} : Focus.jump ⟨s, .goto line target⟩ t target = .ok t' → Walked s t (.goto line target) t'
  | reset {line pointer offset cx} : Focus.reset ⟨s, .reset line pointer offset⟩ t.cx pointer offset = .ok cx →
      Walked s t (.reset line pointer offset) (t.withContext cx)
  | ifThen {line src inv t1 cx} (yes : Block) : yes.walk s (t.withContext t.cx.branch) = .ok t1 →
      Focus.merge s t.cx t1.cx t.cx.branch = .ok cx → Walked s t (.ifThen line src inv yes) (t1.withContext cx)
  | ifElse {line src inv t1 t2 cx} (yes no : Block) : yes.walk s (t.withContext t.cx.branch) = .ok t1 →
      no.walk s (t1.withContext t.cx.branch) = .ok t2 → Focus.merge s t.cx t1.cx t2.cx = .ok cx →
      Walked s t (.ifElse line src inv yes no) (t2.withContext cx)
  | loop {line src inv t1 t2} (body : Block) : body.walk s t = .ok t1 → src.forM (t1.cx.assertMeaningful s) = .ok () →
      Focus.refuseGotos ⟨s, .loop line src inv body⟩ t1.cx = .ok () → body.walk s t1 = .ok t2 →
      src.forM (t2.cx.assertMeaningful s) = .ok () → Walked s t (.loop line src inv body) t2
  | count {line d dir final cx t1 t2 cx'} (body : Block) :
      Focus.enterCount ⟨s, .count line d dir final body⟩ t.cx d dir final = .ok cx →
      body.walk s (t.withContext cx) = .ok t1 → body.walk s t1 = .ok t2 →
      Focus.leaveCount ⟨s, .count line d dir final body⟩ t2.cx d final = .ok cx' →
      Walked s t (.count line d dir final body) (t2.withContext cx')
  | interruptsOff {line t'} (body : Block) : body.walk s t = .ok t' → body.walkInterruptsOff s t = .ok t' →
      Walked s t (.interruptsOff line body) t'
  | save {line rs batons cx t1} (body : Block) : Focus.setAside ⟨s, .save line rs body⟩ rs t.cx = .ok (batons, cx) →
      body.walk s (t.withContext cx) = .ok t1 → Focus.refuseGotos ⟨s, .save line rs body⟩ t1.cx = .ok () →
      Walked s t (.save line rs body) (t1.withContext (Focus.restore t1.cx batons rs.head?))
  | pointInto {line pointer table cx t1} (body : Block) :
      Focus.enterPoint ⟨s, .pointInto line pointer table body⟩ t.cx pointer table = .ok cx →
      body.walk s (t.withContext cx) = .ok t1 → Focus.refuseGotos ⟨s, .pointInto line pointer table body⟩ t1.cx = .ok () →
      Walked s t (.pointInto line pointer table body) (t1.withContext (Focus.leavePoint t1.cx pointer))

theorem Instr.walked {i : Instr} {t t' : Trail} (h : i.walk s t = .ok t') : i.Walked s t t' := by
  cases i with
  | op | reset =>
    obtain ⟨cx, hcx, rfl⟩ := map_eq_ok.1 h
    constructor
    exact hcx
  | call | goto =>
    constructor
    exact h
  | interruptsOff => exact .interruptsOff _ (Block.walk_of_interruptsOff s _ h) h
  | ifThen =>
    simp only [Instr.walk, bind_eq_ok, pure_eq_ok] at h
    obtain ⟨t1, h1, cx, hm, rfl⟩ := h
    exact .ifThen _ h1 hm
  | ifElse =>
    simp only [Instr.walk, bind_eq_ok, pure_eq_ok] at h
    obtain ⟨t1, h1, t2, h2, cx, hm, rfl⟩ := h
    exact .ifElse _ _ h1 h2 hm
  | loop =>
    simp only [Instr.walk, bind_eq_ok, pure_eq_ok] at h
    obtain ⟨t1, h1, ⟨⟩, hc1, ⟨⟩, hg, t2, h2, ⟨⟩, hc2, rfl⟩ := h
    exact .loop _ h1 hc1 hg h2 hc2
  | count =>
    simp only [Instr.walk, bind_eq_ok, map_eq_ok] at h
    obtain ⟨cx, henter, t1, h1, t2, h2, cx2, hleave, rfl⟩ := h
    exact .count _ henter h1 h2 hleave
  | save =>
    simp only [Instr.walk, bind_eq_ok, pure_eq_ok] at h
    obtain ⟨⟨batons, cx⟩, hset, t1, h1, ⟨⟩, hg, rfl⟩ := h
    exact .save _ hset h1 hg
  | pointInto =>
    simp only [Instr.walk, bind_eq_ok, pure_eq_ok] at h
    obtain ⟨cx, henter, t1, h1, ⟨⟩, hg, rfl⟩ := h
    exact .pointInto _ henter h1 hg

mutual

theorem Instr.walk_closes (s : Setting) (i : Instr) {t t' : Trail} (hw : i.walk s t = .ok t') :
    t'.cx.terminated = i.closes t.cx.terminated := by
  cases Instr.walked hw with
  | op h => exact (terminated_single h).trans (single_ok_terminated h).symm
  | call h =>
    obtain ⟨ty, sig, cx, -, -, -, hp, rfl⟩ := call_ok h
    exact (perform_ok hp).2.2.2.1
  | goto h =>
    rw [jump_cx h]
    rfl
  | reset h =>
    obtain ⟨-, cx1, hm, rfl⟩ := reset_ok h
    exact (makeMeaningful_ok hm).1.terminated
  | ifThen yes h1 hm =>
    refine (merge_terminated hm).trans ?_
    rw [yes.walk_closes s h1]
    rfl
  | ifElse yes no h1 h2 hm =>
    refine (merge_terminated hm).trans ?_
    rw [yes.walk_closes s h1, no.walk_closes s h2]
    rfl
  | loop body h1 _ _ h2 =>
    rw [body.walk_closes s h2, body.walk_closes s h1]
    rfl
  | count body henter h1 h2 hleave =>
    obtain ⟨range, inside, -, -, -, rfl⟩ := enterCount_ok henter
    obtain rfl := leaveCount_ok hleave
    exact (body.walk_closes s h2).trans (by rw [body.walk_closes s h1]; rfl)
  | interruptsOff body h => exact body.walk_closes s h
  | save body hset h1 =>
    have ih := body.walk_closes s h1
    change (Focus.restore _ _ _).terminated = _
    rw [terminated_restore, ih]
    exact congrArg body.closes (setAside_ok hset).2.1
  | pointInto body henter h1 =>
    obtain ⟨-, -, -, rfl⟩ := enterPoint_ok henter
    exact (body.walk_closes s h1 :)

theorem Block.walk_closes (s : Setting) : ∀ (b : Block) {t t' : Trail}, b.walk s t = .ok t' →
    t'.cx.terminated = b.closes t.cx.terminated
  | .nil _, t, t', h => by
    cases h
    rfl
  | .cons head tail, t, t', h => by
    obtain ⟨t1, h1, h2⟩ := bind_eq_ok.1 h
    rw [tail.walk_closes s h2, head.walk_closes s h1]
    rfl

end

/-- Where the first walk through the body of a loop goes on, so does the second one. -/
theorem Block.walk_again {t t1 t2 : Trail} (h1 : body.walk s t = .ok t1)
    (h2 : body.walk s t1 = .ok t2) (hgo : t.cx.terminated = false) (hgo1 : t1.cx.terminated = false) :
    t2.cx.terminated = false := by
  rw [body.walk_closes s h2, hgo1, ← hgo, ← body.walk_closes s h1]
  exact hgo1.trans hgo.symm

/-! ### Routines and programs -/

theorem Routine.analyse_ok {r : Routine} {facts : Facts} (h : (r.analyse symbols).2 = .ok facts) (hbody : r.body = some body) :
    ∃ sig t, (r.setting symbols).globalType r.name = .ok (.routine sig)
      ∧ Routine.walk (r.setting symbols) sig body = .ok t
      ∧ ∃ cx, Routine.check (r.setting symbols) sig t = .ok cx := by
  unfold Routine.analyse at h
  rw [hbody] at h
  cases hty : (r.setting symbols).globalType r.name with
  | error f => simp [hty] at h
  | ok ty =>
    cases ty with
    | routine sig =>
      simp only [hty] at h
      cases hwalk : Routine.walk (r.setting symbols) sig body with
      | error f => simp [hwalk] at h
      | ok t =>
        simp only [hwalk, map_eq_ok] at h
        obtain ⟨cx, hcheck, -⟩ := h
        exact ⟨sig, t, rfl, hwalk, cx, hcheck⟩
    | _ => simp [hty] at h

/-- A program is accepted only if each of its routines is. -/
theorem Program.analyse_ok {p : Program} {all : List Analysed}
    (h : (p.analyse symbols).2 = .ok all) {r : Routine} (hr : r ∈ p.routines) : ∃ facts, (r.analyse symbols).2 = .ok facts := by
  have hall : ∀ (l : List Routine) (log : ExitLog) (all : List Analysed),
      (Program.analyseAll symbols l log).2 = .ok all → ∀ r ∈ l, ∃ facts, (r.analyse symbols).2 = .ok facts := by
    intro l
    induction l with
    | nil => simp
    | cons q l ih =>
      intro log all h
      simp only [Program.analyseAll] at h
      cases hq : (q.analyse symbols).2 with
      | error f => simp [hq] at h
      | ok facts =>
        simp only [hq, map_eq_ok] at h
        obtain ⟨more, hmore, -⟩ := h
        rw [List.forall_mem_cons]
        exact ⟨⟨facts, hq⟩, ih _ more hmore⟩
  exact hall _ _ _ h r hr

end CheckedAsm
