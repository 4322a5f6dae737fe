import CheckedAsm.Proofs.Analysis.Exits
import CheckedAsm.Proofs.Values.Single
/-! # Every use is of a value

Along every path through the body of an accepted routine, what is used holds a value at that moment, the
outputs hold values at the end, and only what the routine declares is touched. Three kinds of uses are not
looked at by the analysis: what is stored into itself, the vector of a call, and the condition of a choice.

The invariant is that whatever the context takes to have a value does have one. A loop is walked through
twice, although its body may run more often. The second and all later rounds start from what the first walk
knows: were a later round to lose a value that the first walk promises, the same round taken first would lose
it too. -/

namespace CheckedAsm

open Context Focus List

variable {s : Setting} {cx cx' merged : Context} {t t' : Trail} {sig : Signature} {target : String} {ty : Ty}
  {locations rs sets spoils : List Ref} {d p pointer q r table : Ref} {final : Const} {batons : List Baton} {first : Option Ref}
  {after live : Set Ref} {purpose : Purpose}

namespace Focus

variable {f : Focus} {cx1 cx2 : Context}

/-! ### Calls and jumps -/

theorem perform_effect (h : perform s cx sig = .ok cx') :
    Effect (sig.outputs.map Ref.ofSlot) (sig.trashes.map Ref.ofSlot) cx cx' := by
  have hwrites : ∀ (slots : List Slot) (cx cx' : Context),
      slots.foldlM (fun cx o => cx.write s [.ofSlot o]) cx = .ok cx' →
      Effect (slots.map Ref.ofSlot) [] cx cx' := by
    intro slots
    induction slots with
    | nil =>
      intro cx cx' h
      cases h
      exact .refl cx
    | cons o slots ih =>
      intro cx cx' h
      rw [foldlM_cons, bind_eq_ok] at h
      obtain ⟨cx1, hw, h⟩ := h
      exact (effect_write hw).after_sets (ih cx1 cx' h)
  have hspoils : ∀ (slots : List Slot) (cx cx' : Context),
      slots.foldlM (fun cx o => do
        Context.assertWriteable s cx none (.ofSlot o)
        pure (cx.spoil (.ofSlot o))) cx = .ok cx' →
      Effect [] (slots.map Ref.ofSlot) cx cx' := by
    intro slots
    induction slots with
    | nil =>
      intro cx cx' h
      cases h
      exact .refl cx
    | cons o slots ih =>
      intro cx cx' h
      simp only [foldlM_cons, bind_eq_ok, pure_eq_ok] at h
      obtain ⟨_, ⟨⟨⟩, -, rfl⟩, h⟩ := h
      exact (Effect.refl (cx.spoil _)).of_spoil.then_spoils (ih _ cx' h)
  rw [perform, bind_eq_ok] at h
  obtain ⟨cx1, ho, ht⟩ := h
  exact (hwrites _ _ _ ho).then_spoils (hspoils _ _ _ ht)

theorem known_inputs (h : (sig.inputs.map .ofSlot).forM (cx.assertMeaningful f.setting) = .ok ()) :
    f.Known cx (sig.inputs.map .ofSlot) := by
  intro r hr hstorage
  obtain ⟨slot, -, rfl⟩ := mem_map.1 hr
  refine isMeaningful_of_assert (forM_eq_ok.1 h _ hr) _ ?_ hstorage
  obtain ⟨name, _ | site⟩ := slot <;> simp [Ref.ofSlot, Ref.leaves]

theorem call_values (h : f.call t target = .ok t') :
    ∃ ty sig, f.setting.typeOfName target = .ok ty ∧ ty.target = .routine sig
      ∧ f.Known t.cx (sig.inputs.map .ofSlot)
      ∧ Effect (sig.outputs.map Ref.ofSlot) (sig.trashes.map Ref.ofSlot) t.cx t'.cx ∧ t'.exits = t.exits := by
  obtain ⟨ty, sig, cx, hty, hsig, hinputs, hp, rfl⟩ := call_ok h
  refine ⟨ty, sig, hty, by rcases hsig with rfl | rfl <;> rfl, known_inputs hinputs, perform_effect hp, ?_⟩
  simp only [Trail.withContext, Trail.meet]
  split <;> rfl

/-- A jump leaves an exit context that knows what the routine jumped to declares. -/
theorem jump_values (h : f.jump t target = .ok t') :
    ∃ ty sig left, f.setting.typeOfName target = .ok ty ∧ ty.target = .routine sig
      ∧ f.Known t.cx (sig.inputs.map .ofSlot)
      ∧ Effect (sig.outputs.map Ref.ofSlot) (sig.trashes.map Ref.ofSlot) (t.cx.meetGotos [.location target]) left
      ∧ t'.exits = t.exits ++ [left] ∧ t'.cx.assoc = t.cx.assoc
      ∧ t'.cx.gotos = (t.cx.meetGotos [.location target]).gotos := by
  obtain ⟨ty, sig, left, hty, hsig, hinputs, hp, rfl⟩ := jump_ok h
  obtain ⟨hvalues, htouched, hassoc, hgotos⟩ := perform_effect hp
  exact ⟨ty, sig, left, hty, by rcases hsig with rfl | rfl <;> rfl, known_inputs hinputs,
    ⟨hvalues, htouched, hassoc, hgotos⟩, rfl, rfl, rfl⟩

/-! ### Choices -/

theorem assoc_spoilAll : (rs.foldl spoil cx).assoc = cx.assoc := foldl_keeps spoil Context.assoc fun _ _ => rfl

theorem gotos_spoilAll : (rs.foldl spoil cx).gotos = cx.gotos := foldl_keeps spoil Context.gotos fun _ _ => rfl

theorem gotos_subset_meetGotos : cx.gotos ⊆ (cx.meetGotos rs).gotos :=
  fun _ hr => mem_foldl_insert.2 (.inl hr)

theorem subset_gotos_meetGotos : rs ⊆ (cx.meetGotos rs).gotos :=
  fun _ hr => mem_foldl_insert.2 (.inr hr)

section

variable (h : merge s cx cx1 cx2 = .ok merged)
include h

/-- After a choice a location has a value only if it has one at the end of each branch that control comes
back from. -/
theorem merge_values (hr : merged.isMeaningful r = true) :
    (cx1.terminated = false → cx1.isMeaningful r = true)
      ∧ (cx2.terminated = false → cx2.isMeaningful r = true) := by
  obtain ⟨both, hmerged, -, hjoins⟩ := merge_ok h
  rw [hmerged, isMeaningful_eq, range?_spoilAll] at hr
  split at hr
  · cases hr
  · next hnot =>
    cases hjoins with
    | second h1 => exact ⟨by simp [h1], fun _ => hr⟩
    | first _ h2 => exact ⟨fun _ => hr, by simp [h2]⟩
    | neither _ _ _ _ _ _ hranges =>
      have houtgoing : r ∈ cx1.meaningful.filter cx2.isMeaningful := by
        refine (hranges r).elim (fun heq => ?_) And.left
        by_contra hout
        refine hnot (mem_filter.2 ⟨isMeaningful_iff_mem.1 ?_, ?_⟩)
        · rw [isMeaningful_eq, ← heq]
          exact hr
        · rw [Bool.not_eq_true', contains_eq_mem]
          exact decide_eq_false hout
      obtain ⟨hmem1, hmem2⟩ := mem_filter.1 houtgoing
      exact ⟨fun _ => isMeaningful_iff_mem.2 hmem1, fun _ => hmem2⟩

theorem merge_assoc (h1 : cx1.getAssoc = cx.getAssoc)
    (h2 : cx2.getAssoc = cx.getAssoc) : merged.getAssoc = cx.getAssoc := by
  obtain ⟨both, hmerged, -, hjoins⟩ := merge_ok h
  rw [hmerged, getAssoc_congr assoc_spoilAll]
  cases hjoins with
  | second => exact h2
  | first => exact h1
  | neither _ _ _ hassoc => exact getAssoc_congr hassoc

/-- The jumps met before a choice and in its branches are those met after it. -/
theorem mem_gotos_merge : r ∈ merged.gotos ↔ (r ∈ cx.gotos ∨ r ∈ cx1.gotos) ∨ r ∈ cx2.gotos := by
  obtain ⟨both, rfl, hgotos, -⟩ := merge_ok h
  rw [gotos_spoilAll, hgotos]

theorem merge_gotos : cx1.gotos ⊆ merged.gotos ∧ cx2.gotos ⊆ merged.gotos :=
  ⟨fun _ hr => (mem_gotos_merge h).2 (.inl (.inr hr)), fun _ hr => (mem_gotos_merge h).2 (.inr hr)⟩

theorem merge_gotos_subset (h1 : cx1.gotos ⊆ cx.gotos) (h2 : cx2.gotos ⊆ cx.gotos) : merged.gotos ⊆ cx.gotos :=
  fun r hr => ((mem_gotos_merge h).1 hr).elim (·.elim id (@h1 r)) (@h2 r)

end

/-! ### Counting loops -/

/-- The variable of a counting loop has a value before the loop, and counts as set inside. -/
theorem enterCount_values {dir : Direction} (h : f.enterCount cx d dir final = .ok cx') :
    f.Known cx d.leaves ∧ ∀ r, cx'.isMeaningful r = true ↔ cx.isMeaningful r = true ∨ r = d := by
  obtain ⟨range, inside, -, -, -, rfl⟩ := enterCount_ok h
  simp only [enterCount, bind_eq_ok] at h
  obtain ⟨⟨⟩, hd, -⟩ := h
  exact ⟨isMeaningful_of_assert hd, fun r => isMeaningful_putRange⟩

/-- The variable of a counting loop has a value at the end of the body, and counts as set after the loop. -/
theorem leaveCount_values (h : f.leaveCount cx d final = .ok cx') :
    f.Known cx d.leaves ∧ ∀ r, cx'.isMeaningful r = true ↔ cx.isMeaningful r = true ∨ r = d := by
  rw [leaveCount_ok h]
  simp only [leaveCount, setRange, bind_eq_ok] at h
  obtain ⟨cx1, ⟨⟨⟩, hd, -⟩, -⟩ := h
  exact ⟨isMeaningful_of_assert hd, fun r => isMeaningful_putRange⟩

/-! ### Setting bytes aside -/

theorem range?_restore (h : f.setAside locations cx = .ok (batons, cx')) :
    (restore cx1 batons locations.head?).range? r = if r = .a ∧ locations.head? ≠ some .a then none
      else if r ∈ locations then cx.range? r else cx1.range? r := by
  obtain ⟨-, -, -, -, hmade, hall⟩ := setAside_ok h
  have hranges : (batons.foldl reintroduce cx1).range? r
      = if ∃ b ∈ batons, b.location = r then cx.range? r else cx1.range? r :=
    range?_reintroduceAll fun b hb => (hmade b hb).2.1
  have hmem : (∃ b ∈ batons, b.location = r) ↔ r ∈ locations := by
    refine ⟨?_, hall r⟩
    rintro ⟨b, hb, rfl⟩
    exact (hmade b hb).1
  simp only [hmem] at hranges
  unfold restore
  split
  · next hfirst => simp [hranges, hfirst]
  · next hfirst => simp [hranges, hfirst, eq_comm (a := r)]

theorem isMeaningful_restore (h : f.setAside locations cx = .ok (batons, cx')) :
    (restore cx1 batons locations.head?).isMeaningful r = true
      ↔ (if r ∈ locations then cx.isMeaningful r = true else cx1.isMeaningful r = true)
        ∧ (r = .a → locations.head? = some .a) := by
  rw [isMeaningful_eq, range?_restore h]
  by_cases ha : r = .a ∧ locations.head? ≠ some .a
  · simp [ha]
  · rw [if_neg ha, and_iff_left fun hr => by_contra fun hne => ha ⟨hr, hne⟩]
    by_cases hr : r ∈ locations
    · simp only [if_pos hr, isMeaningful_eq]
    · simp only [if_neg hr, isMeaningful_eq]

theorem mem_touched_restore (hr : r ∈ cx.touched)
    (hbatons : ∀ b ∈ batons, b.location = r → b.touched = true) : r ∈ (restore cx batons first).touched := by
  have hfold : r ∈ (batons.foldl reintroduce cx).touched := by
    induction batons generalizing cx with
    | nil => exact hr
    | cons b batons ih =>
      rw [forall_mem_cons] at hbatons
      refine ih ?_ hbatons.2
      simp only [reintroduce]
      split
      · exact mem_insert_iff.2 (.inr hr)
      · next hnot => exact (mem_erase_of_ne fun heq => hnot (hbatons.1 heq.symm)).2 hr
  unfold restore
  split
  · exact hfold
  · exact mem_touched_spoil.2 (.inr hfold)

theorem assoc_restore : (restore cx batons first).assoc = cx.assoc := by
  unfold restore
  split
  all_goals exact foldl_keeps reintroduce Context.assoc fun _ _ => rfl

theorem gotos_restore : (restore cx batons first).gotos = cx.gotos := by
  unfold restore
  split
  all_goals exact foldl_keeps reintroduce Context.gotos fun _ _ => rfl

theorem assoc_setAside (h : f.setAside rs cx = .ok (batons, cx')) : cx'.assoc = cx.assoc ∧ cx'.gotos = cx.gotos := by
  induction rs generalizing cx batons with
  | nil =>
    cases h
    exact ⟨rfl, rfl⟩
  | cons q rs ih =>
    simp only [setAside, bind_eq_ok, pure_eq_ok] at h
    obtain ⟨⟨⟩, -, ⟨batons1, cx1⟩, h1, h⟩ := h
    cases h
    exact (ih h1 :)

theorem refuseGotos_ok (h : f.refuseGotos cx = .ok ()) : cx.gotos = [] := by
  unfold refuseGotos at h
  split at h
  · next hempty => exact isEmpty_iff.1 hempty
  · cases h

/-! ### Pointers -/

theorem reset_values {offset : Const} (h : f.reset cx pointer offset = .ok cx') :
    Effect [pointer] [] cx cx' ∧ f.Known cx ((cx.getAssoc pointer).toList.flatMap Ref.leaves) := by
  simp only [reset, bind_eq_ok, guard_eq_ok] at h
  obtain ⟨t, -, -, h⟩ := h
  cases hassoc : cx.getAssoc pointer with
  | none => simp [hassoc] at h
  | some table =>
    simp only [hassoc, bind_eq_ok, guard_eq_ok, pure_eq_ok] at h
    obtain ⟨⟨⟩, htable, range, -, above, -, -, below, -, -, cx1, hm, rfl⟩ := h
    obtain ⟨same, hsome, hranges⟩ := makeMeaningful_ok hm
    refine ⟨⟨fun r => ?_, fun r => ?_, same.assoc, same.gotos⟩, by simpa [Known] using isMeaningful_of_assert htable⟩
    · have hm' : (cx1.touch pointer).isMeaningful r = (cx1.range? r).isSome := rfl
      rw [hm', isMeaningful_eq]
      rcases hranges r with heq | ⟨rfl, hnone, -⟩
      · rw [heq]
        by_cases hr : r = pointer
        · subst hr
          simp [← heq, hsome]
        · simp [hr]
      · simp [hsome]
    · simp [touch, same.touched, or_comm]

theorem getAssoc_setAssoc : (cx.setAssoc p (some table)).getAssoc q = if q = p then some table else cx.getAssoc q := by
  simp [setAssoc, getAssoc, eq_comm (a := q)]

theorem getAssoc_unsetAssoc : (cx.setAssoc p none).getAssoc q = if q = p then none else cx.getAssoc q := by
  simp [setAssoc, getAssoc, eq_comm (a := q)]

/-- Inside a block that associates a pointer with a table, the pointer leads there. -/
theorem pointInto_env :
    (fun q => if q = pointer then some table else cx.getAssoc q) = ((cx.setAssoc pointer (some table)).forget pointer).getAssoc :=
  funext fun _ => getAssoc_setAssoc.symm

end Focus

variable {t1 t2 : Trail}

/-! ### What every walk keeps -/

/-- The location is recorded as touched, where control comes to the end or at one of the exits. -/
def Trail.Records (t : Trail) (r : Ref) : Prop :=
  (t.cx.terminated = false ∧ r ∈ t.cx.touched) ∨ ∃ cx ∈ t.exits, r ∈ cx.touched

theorem Trail.Records.of_exits (h : ∃ cx ∈ t.exits, r ∈ cx.touched) (hsub : t.exits ⊆ t'.exits) : t'.Records r := by
  obtain ⟨cx, hcx, hr⟩ := h
  exact .inr ⟨cx, hsub hcx, hr⟩

/-- What is recorded at the end of a branch is recorded after the choice. -/
theorem Focus.merge_records {cx1 cx2 : Context} (h : Focus.merge s cx cx1 cx2 = .ok merged) (hgo : cx.terminated = false)
    (hr : (cx1.terminated = false ∧ r ∈ cx1.touched) ∨ (cx2.terminated = false ∧ r ∈ cx2.touched)) :
    merged.terminated = false ∧ r ∈ merged.touched := by
  have hterminated := merge_terminated h
  obtain ⟨both, rfl, -, hjoins⟩ := merge_ok h
  refine ⟨?_, mem_touched_spoilAll.2 (.inl ?_)⟩
  · rw [hterminated]
    rcases hr with ⟨h1, -⟩ | ⟨h2, -⟩ <;> simp [*]
  · cases hjoins with
    | second h1 => exact (hr.resolve_left (by simp [h1])).2
    | first _ h2 => exact (hr.resolve_right (by simp [h2])).2
    | neither _ _ _ _ htouched => exact htouched ▸ mem_foldl_insert.2 (hr.imp And.right And.right)

/-- From one trail to another the pointers stay associated as they are, the exits and the jumps met so far are still there, and
what is touched stays recorded. -/
structure Trail.Keeps (t t' : Trail) : Prop where
  assoc : t'.cx.getAssoc = t.cx.getAssoc
  exits : t.exits ⊆ t'.exits
  gotos : t.cx.gotos ⊆ t'.cx.gotos
  lasts : t.cx.terminated = false → ∀ r ∈ t.cx.touched, t'.Records r

theorem Trail.Keeps.records (h : t.Keeps t') (hr : t.Records r) : t'.Records r := by
  rcases hr with ⟨hgo, hr⟩ | hexit
  · exact h.lasts hgo r hr
  · exact .of_exits hexit h.exits

theorem Trail.Keeps.trans (h : t.Keeps t1) (h' : t1.Keeps t') : t.Keeps t' :=
  ⟨h'.assoc.trans h.assoc, List.Subset.trans h.exits h'.exits, List.Subset.trans h.gotos h'.gotos,
    fun hgo r hr => h'.records (h.lasts hgo r hr)⟩

theorem Context.Effect.keeps (h : Effect sets spoils t.cx t'.cx) (hgo : t'.cx.terminated = t.cx.terminated)
    (hexits : t'.exits = t.exits) : t.Keeps t' :=
  ⟨getAssoc_congr h.assoc, by simp [hexits], by simp [h.gotos], fun hgo' r hr => .inl ⟨hgo.trans hgo', (h.touched r).2 (.inl hr)⟩⟩

mutual

/-- What a walk through an instruction keeps. -/
theorem Instr.walk_keeps (s : Setting) (i : Instr) {t t' : Trail} (hw : i.walk s t = .ok t') : t.Keeps t' := by
  cases Instr.walked hw with
  | op h => exact (single_effect h).keeps (Instr.walk_closes s _ hw) rfl
  | call h =>
    obtain ⟨ty, sig, -, -, -, heffect, hexits⟩ := call_values h
    exact heffect.keeps (Instr.walk_closes s _ hw) hexits
  | goto h =>
    obtain ⟨ty, sig, left, -, -, -, heffect, hexits, hassoc, hgotos⟩ := jump_values h
    exact ⟨getAssoc_congr hassoc, by simp [hexits], by rw [hgotos]; exact gotos_subset_meetGotos,
      fun _ r hr => .inr ⟨left, by simp [hexits], (heffect.touched r).2 (.inl hr)⟩⟩
  | reset h => exact (reset_values h).1.keeps (Instr.walk_closes s _ hw) rfl
  | ifThen yes h1 hm =>
    have hyes := yes.walk_keeps s h1
    exact ⟨merge_assoc hm hyes.assoc rfl, hyes.exits, List.Subset.trans hyes.gotos (merge_gotos hm).1,
      fun hgo r hr => .inl (merge_records hm hgo (.inr ⟨rfl, hr⟩))⟩
  | ifElse yes no h1 h2 hm =>
    have hyes := yes.walk_keeps s h1
    have hno := no.walk_keeps s h2
    refine ⟨merge_assoc hm hyes.assoc hno.assoc, List.Subset.trans hyes.exits hno.exits,
      List.Subset.trans hyes.gotos (merge_gotos hm).1, fun hgo r hr => ?_⟩
    exact (hno.lasts rfl r hr).imp_left fun hend => merge_records hm hgo (.inr hend)
  | loop body h1 _ _ h2 => exact (body.walk_keeps s h1).trans (body.walk_keeps s h2)
  | count body henter h1 h2 hleave =>
    obtain ⟨range, inside, -, -, -, rfl⟩ := enterCount_ok henter
    obtain rfl := leaveCount_ok hleave
    obtain ⟨hassoc, hexits, hgotos, hlasts⟩ := (body.walk_keeps s h1).trans (body.walk_keeps s h2)
    exact ⟨hassoc, hexits, hgotos, hlasts⟩
  | interruptsOff body h => exact body.walk_keeps s h
  | save body hset h1 =>
    obtain ⟨hassoc0, hgotos0⟩ := assoc_setAside hset
    obtain ⟨-, hterminated, htouched, -, hmade, -⟩ := setAside_ok hset
    obtain ⟨hassoc, hexits, hgotos, hlasts⟩ := body.walk_keeps s h1
    refine ⟨(getAssoc_congr assoc_restore).trans (hassoc.trans (getAssoc_congr hassoc0)), hexits, ?_, fun hgo r hr => ?_⟩
    · rw [← hgotos0]
      exact List.Subset.trans hgotos (by simp [Trail.withContext, gotos_restore])
    · refine (hlasts (hterminated.trans hgo) r (htouched.symm ▸ hr :)).imp_left fun ⟨hgo1, hr1⟩ =>
        ⟨terminated_restore.trans hgo1, mem_touched_restore hr1 ?_⟩
      -- A location that was touched before is put back as touched.
      rintro b hb rfl
      rw [(hmade b hb).2.2, contains_iff_mem]
      exact hr
  | @pointInto _ pointer table _ t1 body henter h1 _ =>
    obtain ⟨-, -, hfree, rfl⟩ := enterPoint_ok henter
    obtain ⟨hassoc, hexits, hgotos, hlasts⟩ := body.walk_keeps s h1
    refine ⟨funext fun q => ?_, hexits, hgotos, hlasts⟩
    -- The pointer was free before, so taking its table from it leads back there.
    change (t1.cx.setAssoc pointer none).getAssoc q = t.cx.getAssoc q
    rw [getAssoc_unsetAssoc, hassoc]
    change (if q = pointer then none else (t.cx.setAssoc pointer (some table)).getAssoc q) = _
    rw [getAssoc_setAssoc]
    by_cases hq : q = pointer
    · simp [hq, hfree]
    · simp [hq]

theorem Block.walk_keeps (s : Setting) : ∀ (b : Block) {t t' : Trail}, b.walk s t = .ok t' → t.Keeps t'
  | .nil _, t, t', h => by
    cases h
    exact ⟨rfl, List.Subset.refl _, List.Subset.refl _, fun hgo r hr => .inl ⟨hgo, hr⟩⟩
  | .cons head tail, t, t', h => by
    obtain ⟨t1, h1, h2⟩ := bind_eq_ok.1 h
    exact (head.walk_keeps s h1).trans (tail.walk_keeps s h2)

end

/-- From one trail to another no jump is met. -/
structure Trail.Unleft (t t' : Trail) : Prop where
  exits : t'.exits = t.exits
  gotos : t'.cx.gotos ⊆ t.cx.gotos

theorem Trail.Unleft.trans (h : t.Unleft t1) (h' : t1.Unleft t') : t.Unleft t' :=
  ⟨h'.exits.trans h.exits, List.Subset.trans h'.gotos h.gotos⟩

mutual

theorem Instr.walk_jumpFree (s : Setting) (i : Instr) {t t' : Trail} (hw : i.walk s t = .ok t') (hfree : i.isJumpFree = true) :
    t.Unleft t' := by
  cases Instr.walked hw with
  | goto => cases hfree
  | op h => exact ⟨rfl, fun r hr => (single_effect h).gotos ▸ hr⟩
  | call h =>
    obtain ⟨ty, sig, -, -, -, heffect, hexits⟩ := call_values h
    exact ⟨hexits, fun r hr => heffect.gotos ▸ hr⟩
  | reset h => exact ⟨rfl, fun r hr => (reset_values h).1.gotos ▸ hr⟩
  | ifThen yes h1 hm =>
    obtain ⟨hexits, hgotos⟩ := yes.walk_jumpFree s h1 hfree
    exact ⟨hexits, merge_gotos_subset hm hgotos (List.Subset.refl _)⟩
  | ifElse yes no h1 h2 hm =>
    simp only [Instr.isJumpFree, Bool.and_eq_true] at hfree
    obtain ⟨hexits1, hgotos1⟩ := yes.walk_jumpFree s h1 hfree.1
    obtain ⟨hexits2, hgotos2⟩ := no.walk_jumpFree s h2 hfree.2
    exact ⟨hexits2.trans hexits1, merge_gotos_subset hm hgotos1 hgotos2⟩
  | loop body h1 _ _ h2 => exact (body.walk_jumpFree s h1 hfree).trans (body.walk_jumpFree s h2 hfree)
  | count body henter h1 h2 hleave =>
    obtain ⟨range, inside, -, -, -, rfl⟩ := enterCount_ok henter
    obtain rfl := leaveCount_ok hleave
    obtain ⟨hexits, hgotos⟩ := (body.walk_jumpFree s h1 hfree).trans (body.walk_jumpFree s h2 hfree)
    exact ⟨hexits, hgotos⟩
  | interruptsOff body h => exact body.walk_jumpFree s h hfree
  | save body hset h1 =>
    obtain ⟨hexits, hgotos⟩ := body.walk_jumpFree s h1 hfree
    refine ⟨hexits, ?_⟩
    rw [Trail.withContext, gotos_restore, ← (assoc_setAside hset).2]
    exact hgotos
  | pointInto body henter h1 =>
    obtain ⟨-, -, -, rfl⟩ := enterPoint_ok henter
    obtain ⟨hexits, hgotos⟩ := body.walk_jumpFree s h1 hfree
    exact ⟨hexits, hgotos⟩

/-- Where there is no jump, none is met. -/
theorem Block.walk_jumpFree (s : Setting) : ∀ (b : Block) {t t' : Trail}, b.walk s t = .ok t' → b.isJumpFree = true → t.Unleft t'
  | .nil _, t, t', h, _ => by
    cases h
    exact ⟨rfl, List.Subset.refl _⟩
  | .cons head tail, t, t', h, hfree => by
    obtain ⟨t1, h1, h2⟩ := bind_eq_ok.1 h
    simp only [Block.isJumpFree, Bool.and_eq_true] at hfree
    exact (head.walk_jumpFree s h1 hfree.1).trans (tail.walk_jumpFree s h2 hfree.2)

end

/-! ### Values -/

/-- Whatever the context takes to have a value is among the given locations. -/
def Context.HeldIn (cx : Context) (live : Set Ref) : Prop := ∀ r, cx.isMeaningful r = true → r ∈ live

/-- The analysis of something from one trail to another covers all ways through it: what it looks at is used only with a value; at
the end, or at an exit left by a jump, what the context knows does hold; and what is touched is recorded. -/
def Trail.Covers (t t' : Trail) (run : Paths) : Prop :=
  ∀ ⦃live log o⦄, t.cx.HeldIn live → run live log o →
    (∀ u ∈ log.uses, u.purpose.isChecked = true → u.held)
    ∧ (∀ after, o = .done after → t'.cx.terminated = false ∧ t'.cx.HeldIn after)
    ∧ (∀ after, o = .left after → t'.cx.gotos ≠ [] ∧ ∃ cx ∈ t'.exits, cx.HeldIn after)
    ∧ ∀ r ∈ log.touched, t'.Records r

/-- What holds where a jump leaves still holds once the walk has gone on. -/
theorem Trail.Keeps.left (h : t.Keeps t') (hleft : t.cx.gotos ≠ [] ∧ ∃ cx ∈ t.exits, cx.HeldIn after) :
    t'.cx.gotos ≠ [] ∧ ∃ cx ∈ t'.exits, cx.HeldIn after := by
  obtain ⟨hmet, cx, hcx, hheld⟩ := hleft
  exact ⟨fun hnil => hmet (eq_nil_of_subset_nil (hnil ▸ h.gotos)), cx, h.exits hcx, hheld⟩

theorem uses_held (h : ∀ r ∈ rs, s.isStorage r = true → r ∈ live) : ∀ u ∈ s.uses live purpose rs, u.held := by
  intro u hu
  obtain ⟨r, hr, rfl⟩ := mem_map.1 hu
  exact h r (mem_filter.1 hr).1 (mem_filter.1 hr).2

theorem purpose_of_uses : ∀ u ∈ s.uses live purpose rs, u.purpose = purpose := by
  intro u hu
  obtain ⟨r, -, rfl⟩ := mem_map.1 hu
  rfl

theorem Focus.Known.held {f : Focus}
    (h : f.Known cx rs) (hlive : cx.HeldIn live) : ∀ u ∈ f.setting.uses live purpose rs, u.held :=
  uses_held fun r hr hstorage => hlive r (h r hr hstorage)

theorem Context.Effect.heldIn
    (h : Effect sets spoils cx cx') (hlive : cx.HeldIn live) : cx'.HeldIn (valuesAfter sets spoils live) :=
  fun r hr => ((h.meaningful r).1 hr).imp (Or.imp (hlive r) id) id

/-- What is called is determined by its type. -/
theorem Setting.Calls.eq_of {log : Log}
    (h : s.Calls target live log after) (hty : s.typeOfName target = .ok ty) (hsig : ty.target = .routine sig) :
    log = { uses := s.callUses live target ty sig, touched := (sig.outputs ++ sig.trashes).map .ofSlot }
      ∧ after = valuesAfter (sig.outputs.map .ofSlot) (sig.trashes.map .ofSlot) live := by
  obtain ⟨ty', sig', hty', hsig', hlog, hafter⟩ := h
  obtain rfl : ty' = ty := by rw [hty, Except.ok.injEq] at hty'; exact hty'.symm
  obtain rfl : sig' = sig := by rw [hsig, Ty.routine.injEq] at hsig'; exact hsig'.symm
  exact ⟨hlog, hafter⟩

theorem callUses_held (h : ∀ r ∈ sig.inputs.map Ref.ofSlot, s.isStorage r = true → r ∈ live) :
    ∀ u ∈ s.callUses live target ty sig, u.purpose.isChecked = true → u.held := by
  intro u hu hchecked
  rcases mem_append.1 hu with hu | hu
  · rw [purpose_of_uses u hu] at hchecked
    cases hchecked
  · exact uses_held h u hu

/-- A single step. -/
theorem covers_acts {log : Set Ref → Log} {f : Set Ref → Set Ref} (hgo : t'.cx.terminated = false)
    (huses : ∀ live, t.cx.HeldIn live → ∀ u ∈ (log live).uses, u.purpose.isChecked = true → u.held)
    (hheld : ∀ live, t.cx.HeldIn live → t'.cx.HeldIn (f live)) (htouched : ∀ live, ∀ r ∈ (log live).touched, r ∈ t'.cx.touched) :
    t.Covers t' (.acts log f) := by
  rintro live _ o hlive ⟨rfl, ho⟩
  refine ⟨huses live hlive, ?_, ?_, fun r hr => .inl ⟨hgo, htouched live r hr⟩⟩
  · rintro after rfl
    obtain rfl : after = f live := by simpa using ho
    exact ⟨hgo, hheld live hlive⟩
  · rintro after rfl
    simp at ho

theorem covers_skip (hgo : t.cx.terminated = false) : t.Covers t .skip :=
  covers_acts hgo (by simp) (fun _ hlive => hlive) (by simp)

/-- One thing after another. -/
theorem covers_seq {first second : Paths} (hfirst : t.Covers t1 first)
    (hsecond : t1.cx.terminated = false → t1.Covers t2 second) (hkeeps : t1.Keeps t2) :
    t.Covers t2 (.seq first second) := by
  rintro live log o hlive (⟨hrun, hnot⟩ | ⟨rfl, after, hrun⟩ | ⟨after, l, m, hrun, hrest, rfl⟩)
  · obtain ⟨huses, -, hleft, htouched⟩ := hfirst hlive hrun
    exact ⟨huses, fun after ho => absurd ho (hnot after), fun after ho => hkeeps.left (hleft after ho),
      fun r hr => hkeeps.records (htouched r hr)⟩
  · obtain ⟨huses, -, -, htouched⟩ := hfirst hlive hrun
    exact ⟨huses, by simp, by simp, fun r hr => hkeeps.records (htouched r hr)⟩
  · obtain ⟨huses, hdone, -, htouched⟩ := hfirst hlive hrun
    obtain ⟨hgo1, hheld1⟩ := hdone after rfl
    obtain ⟨huses', hdone', hleft', htouched'⟩ := hsecond hgo1 hheld1 hrest
    exact ⟨forall_mem_append.2 ⟨huses, huses'⟩, hdone', hleft',
      forall_mem_append.2 ⟨fun r hr => hkeeps.records (htouched r hr), htouched'⟩⟩

/-- A choice. Control comes back from a branch only if the analysis says so, and then what is known after the
choice is known at the end of that branch. -/
theorem covers_choice {yes no : Paths} (hgo : t.cx.terminated = false)
    (hyes : (t.withContext t.cx.branch).Covers t1 yes) (hno : (t1.withContext t.cx.branch).Covers t2 no)
    (hexits : t1.exits ⊆ t2.exits) (hmerge : Focus.merge s t.cx t1.cx t2.cx = .ok merged) :
    t.Covers (t2.withContext merged) (.choice (fun live => s.uses live .choice rs) yes no) := by
  have hterminated := merge_terminated hmerge
  obtain ⟨hgotos1, hgotos2⟩ := merge_gotos hmerge
  have hmet : ∀ {gotos : List Ref}, gotos ≠ [] → gotos ⊆ merged.gotos → merged.gotos ≠ [] :=
    fun hne hsub hnil => hne (eq_nil_of_subset_nil (hnil ▸ hsub))
  rintro live log o hlive ⟨rest, hrun, rfl⟩
  have huses : ∀ u ∈ s.uses live .choice rs, u.purpose.isChecked = true → u.held := by
    intro u hu hchecked
    rw [purpose_of_uses u hu] at hchecked
    cases hchecked
  rcases hrun with hrun | hrun
  · obtain ⟨huses1, hdone, hleft, htouched⟩ := hyes hlive hrun
    refine ⟨forall_mem_append.2 ⟨huses, huses1⟩, fun after ho => ?_, fun after ho => ?_, fun r hr => ?_⟩
    · obtain ⟨hgo1, hheld⟩ := hdone after ho
      exact ⟨hterminated.trans (by simp [hgo1, hgo]), fun r hr => hheld r ((merge_values hmerge hr).1 hgo1)⟩
    · obtain ⟨hne, cx, hcx, hheld⟩ := hleft after ho
      exact ⟨hmet hne hgotos1, cx, hexits hcx, hheld⟩
    · rcases htouched r hr with hend | hexit
      · exact .inl (merge_records hmerge hgo (.inl hend))
      · exact .of_exits hexit hexits
  · obtain ⟨huses2, hdone, hleft, htouched⟩ := hno hlive hrun
    refine ⟨forall_mem_append.2 ⟨huses, huses2⟩, fun after ho => ?_, fun after ho => (hleft after ho).imp_left (hmet · hgotos2),
      fun r hr => (htouched r hr).imp_left fun hend => merge_records hmerge hgo (.inr hend)⟩
    obtain ⟨hgo2, hheld⟩ := hdone after ho
    exact ⟨hterminated.trans (by simp [hgo2, hgo]), fun r hr => hheld r ((merge_values hmerge hr).2 hgo2)⟩

/-- The rounds of a loop. The second walk stands for all rounds after the first. -/
theorem covers_turns (ends : Bool) {test : Set Ref → List Use} {body : Paths} (hbody : Repeatable body)
    (h1 : t.Covers t1 body) (h2 : t1.cx.terminated = false → t1.Covers t2 body) (hkeeps : t1.Keeps t2)
    (htest : ∀ live, t2.cx.HeldIn live → ∀ u ∈ test live, u.held) : t.Covers t2 (Turns ends test body) := by
  -- A round is the first one, or it starts from what the first walk knows.
  have huses : ∀ {live log o}, t.cx.HeldIn live ∨ t1.cx.terminated = false ∧ t1.cx.HeldIn live → body live log o →
      (∀ u ∈ log.uses, u.purpose.isChecked = true → u.held)
        ∧ (∀ after, o = .left after → t2.cx.gotos ≠ [] ∧ ∃ cx ∈ t2.exits, cx.HeldIn after) ∧ ∀ r ∈ log.touched, t2.Records r := by
    rintro live log o (hlive | ⟨hgo1, hlive⟩) hrun
    · obtain ⟨huses, -, hleft, htouched⟩ := h1 hlive hrun
      exact ⟨huses, fun after ho => hkeeps.left (hleft after ho), fun r hr => hkeeps.records (htouched r hr)⟩
    · obtain ⟨huses, -, hleft, htouched⟩ := h2 hgo1 hlive hrun
      exact ⟨huses, hleft, htouched⟩
  -- After it, what each of the two walks knows at its end holds.
  have hround : ∀ {live log after}, t.cx.HeldIn live ∨ t1.cx.terminated = false ∧ t1.cx.HeldIn live →
      body live log (.done after) →
      (t1.cx.terminated = false ∧ t1.cx.HeldIn after) ∧ t2.cx.terminated = false ∧ t2.cx.HeldIn after := by
    rintro live log after (hlive | ⟨hgo1, hlive⟩) hrun
    · obtain ⟨hgo1, hheld1⟩ := (h1 hlive hrun).2.1 after rfl
      obtain ⟨log', after', hrun', hback⟩ := hbody.done hrun {r | t1.cx.isMeaningful r = true}
      obtain ⟨hgo2, hheld2⟩ := (h2 hgo1 (fun r hr => hr) hrun').2.1 after' rfl
      refine ⟨⟨hgo1, hheld1⟩, hgo2, fun r hr => ?_⟩
      by_cases hr1 : t1.cx.isMeaningful r = true
      · exact hheld1 r hr1
      · exact hback r (fun h => absurd h hr1) (hheld2 r hr)
    · -- A later round, taken first, would have to give what the first walk knows.
      refine ⟨⟨hgo1, fun r hr => ?_⟩, (h2 hgo1 hlive hrun).2.1 after rfl⟩
      obtain ⟨log', after', hrun', hback⟩ := hbody.done hrun {r | t.cx.isMeaningful r = true}
      have hheld1 := ((h1 (fun r hr => hr) hrun').2.1 after' rfl).2
      exact hback r (fun _ => hlive r hr) (hheld1 r hr)
  intro live log o hlive hturns
  replace hlive : t.cx.HeldIn live ∨ t1.cx.terminated = false ∧ t1.cx.HeldIn live := .inl hlive
  induction hturns with
  | cut hrun =>
    obtain ⟨huses, -, htouched⟩ := huses hlive hrun
    exact ⟨huses, by simp, by simp, htouched⟩
  | left hrun =>
    obtain ⟨huses, hends⟩ := huses hlive hrun
    exact ⟨huses, by simp, hends⟩
  | stop hrun =>
    obtain ⟨huses, -, htouched⟩ := huses hlive hrun
    obtain ⟨-, -, hheld2⟩ := hround hlive hrun
    exact ⟨forall_mem_append.2 ⟨huses, fun u hu _ => htest _ hheld2 u hu⟩, by simp, by simp, by simpa using htouched⟩
  | last _ hrun =>
    obtain ⟨huses, -, htouched⟩ := huses hlive hrun
    obtain ⟨-, hafter⟩ := hround hlive hrun
    refine ⟨forall_mem_append.2 ⟨huses, fun u hu _ => htest _ hafter.2 u hu⟩, ?_, by simp, by simpa using htouched⟩
    rintro _ ⟨⟩
    exact hafter
  | more hrun _ ih =>
    obtain ⟨huses, -, htouched⟩ := huses hlive hrun
    obtain ⟨hafter1, -, hheld2⟩ := hround hlive hrun
    obtain ⟨huses', hdone, hleft, htouched'⟩ := ih (.inr hafter1)
    refine ⟨forall_mem_append.2 ⟨forall_mem_append.2 ⟨huses, fun u hu _ => htest _ hheld2 u hu⟩, huses'⟩, hdone, hleft, ?_⟩
    exact forall_mem_append.2 ⟨by simpa using htouched, htouched'⟩

mutual

/-- What the analysis knows along its walk through an instruction holds along every path. -/
theorem Instr.covers (s : Setting) (i : Instr) {t t' : Trail} (hw : i.walk s t = .ok t') (hgo : t.cx.terminated = false) :
    t.Covers t' (i.Paths s t.cx.getAssoc) := by
  cases Instr.walked hw with
  | @op _ op _ h =>
    refine covers_acts (terminated_single h) (fun live hlive u hu hchecked => ?_)
      (fun live hlive => (single_effect h).heldIn hlive) fun _ r hr => ((single_effect h).touched r).2 (.inr (mem_append.1 hr))
    rw [purpose_of_uses u hu] at hchecked
    have hself : op.settled.storesItself t.cx.getAssoc = false := by
      by_contra hself
      simp [Bool.not_eq_false _ ▸ hself, Purpose.isChecked] at hchecked
    exact (single_reads h hself).held hlive u hu
  | call h =>
    obtain ⟨ty, sig, hty, hsig, hinputs, heffect, -⟩ := call_values h
    rintro live log o hlive ⟨after', hcalls, ho⟩
    obtain ⟨rfl, rfl⟩ := hcalls.eq_of hty hsig
    have hgo' := (Instr.walk_closes s _ hw).trans hgo
    refine ⟨callUses_held fun r hr hstorage => hlive r (hinputs r hr hstorage), ?_, ?_, fun r hr => ?_⟩
    · rintro after rfl
      obtain rfl : after = _ := by simpa using ho
      exact ⟨hgo', heffect.heldIn hlive⟩
    · rintro after rfl
      simp at ho
    · rw [map_append, mem_append] at hr
      exact .inl ⟨hgo', (heffect.touched r).2 (.inr hr)⟩
  | goto h =>
    obtain ⟨ty, sig, left, hty, hsig, hinputs, heffect, hexits, -, hgotos⟩ := jump_values h
    rintro live log o hlive ⟨after', hcalls, ho⟩
    obtain ⟨rfl, rfl⟩ := hcalls.eq_of hty hsig
    refine ⟨callUses_held fun r hr hstorage => hlive r (hinputs r hr hstorage), ?_, ?_, fun r hr => ?_⟩
    · rintro after rfl
      simp at ho
    · rintro after rfl
      obtain rfl : after = _ := by simpa using ho
      refine ⟨?_, left, by simp [hexits], heffect.heldIn hlive⟩
      rw [hgotos]
      exact ne_nil_of_mem (subset_gotos_meetGotos (mem_singleton.2 rfl))
    · rw [map_append, mem_append] at hr
      exact .inr ⟨left, by simp [hexits], (heffect.touched r).2 (.inr hr)⟩
  | reset h =>
    have hcloses := Instr.walk_closes s _ hw
    obtain ⟨heffect, htable⟩ := reset_values h
    exact covers_acts (hcloses.trans hgo) (fun live hlive u hu _ => htable.held hlive u hu)
      (fun live hlive => heffect.heldIn hlive) fun _ r hr => (heffect.touched r).2 (.inr (.inl hr))
  | @ifThen _ _ _ t1 _ yes h1 hm =>
    have hskip : (t1.withContext t.cx.branch).Covers (t1.withContext t.cx.branch)
        .skip := covers_skip rfl
    exact (covers_choice hgo (yes.covers s h1 rfl) hskip (List.Subset.refl _) hm :)
  | ifElse yes no h1 h2 hm => exact covers_choice hgo (yes.covers s h1 rfl) (no.covers s h2 rfl) (no.walk_keeps s h2).exits hm
  | @loop _ src _ _ _ body h1 _ _ h2 htest =>
    refine covers_turns _ (body.paths_repeatable s _) (body.covers s h1 hgo) (fun hgo1 => ?_)
      (body.walk_keeps s h2) fun live hlive => ?_
    · rw [← (body.walk_keeps s h1).assoc]
      exact body.covers s h2 hgo1
    · cases src with
      | none => simp [Setting.uses]
      | some src =>
        refine uses_held fun r hr hstorage => hlive r ?_
        exact isMeaningful_of_assert (r := src) htest r (by simpa using hr) hstorage
  | @count _ d _ _ cx _ t2 cx2 body henter h1 h2 hleave =>
    obtain ⟨hcounter, hcx⟩ := enterCount_values henter
    obtain ⟨hcounter2, hcx2⟩ := leaveCount_values hleave
    obtain ⟨range, inside, -, -, -, heq⟩ := enterCount_ok henter
    have hgo0 : cx.terminated = false := by
      rw [heq]
      exact hgo
    have hassoc0 : cx.getAssoc = t.cx.getAssoc := by
      rw [heq]
      rfl
    have htest : ∀ live, t2.cx.HeldIn live → ∀ u ∈ s.uses live .counter d.leaves, u.held :=
      fun live hlive => hcounter2.held hlive
    have hturns := covers_turns true (body.paths_repeatable s _) (body.covers s h1 hgo0)
      (fun hgo1 => (body.walk_keeps s h1).assoc ▸ body.covers s h2 hgo1) (body.walk_keeps s h2) htest
    have hkeeps2 : t2.Keeps (t2.withContext cx2) := by
      obtain rfl := leaveCount_ok hleave
      exact ⟨rfl, List.Subset.refl _, List.Subset.refl _, fun hgo r hr => .inl ⟨hgo, hr⟩⟩
    have hkeeps1 := (body.walk_keeps s h1).trans (body.walk_keeps s h2)
    have hbefore : t.Covers (t.withContext cx)
        (.acts (fun live => { uses := s.uses live .counter d.leaves }) (valuesAfter [d] [])) :=
      covers_acts hgo0 (fun live hlive u hu _ => hcounter.held hlive u hu)
        (fun live hlive r hr => ⟨((hcx r).1 hr).imp (hlive r) (by simp), by simp⟩) (by simp)
    have hafter : t2.cx.terminated = false → t2.Covers (t2.withContext cx2)
        (.acts (fun _ => {}) (valuesAfter [d] [])) := by
      intro hgo2
      refine covers_acts ?_ (by simp) (fun live hlive r hr => ⟨((hcx2 r).1 hr).imp (hlive r) (by simp), by simp⟩) (by simp)
      rw [Trail.withContext, leaveCount_ok hleave]
      exact hgo2
    rw [← hassoc0]
    exact covers_seq hbefore (fun _ => covers_seq hturns hafter hkeeps2) (hkeeps1.trans hkeeps2)
  | interruptsOff body h => exact body.covers s h hgo
  | @save _ locations batons cx t1 body hset h1 hnone =>
    obtain ⟨hranges, hterminated, -, -, hmade, -⟩ := setAside_ok hset
    have hassoc := getAssoc_congr (assoc_setAside hset).1
    rintro live log o hlive ⟨inner, o', hrun, rfl, rfl⟩
    rw [← hassoc] at hrun
    have hheld0 : cx.HeldIn live := fun r hr => hlive r (by rwa [isMeaningful_eq, ← hranges])
    obtain ⟨huses, hdone, hleft, htouched⟩ := body.covers s h1 (hterminated.trans hgo) hheld0 hrun
    refine ⟨huses, fun after ho => ?_, fun after ho =>
      absurd (refuseGotos_ok hnone) (hleft after (Ending.map_eq_left.1 ho)).1, ?_⟩
    · obtain ⟨inside, rfl, rfl⟩ := Ending.map_eq_done.1 ho
      obtain ⟨hgo1, hheld⟩ := hdone inside rfl
      refine ⟨terminated_restore.trans hgo1, fun r hr => ?_⟩
      obtain ⟨hvalue, hacc⟩ := (isMeaningful_restore hset).1 hr
      refine ⟨?_, hacc⟩
      by_cases hmem : r ∈ locations
      · rw [if_pos hmem] at hvalue ⊢
        exact hlive r hvalue
      · rw [if_neg hmem] at hvalue ⊢
        exact hheld r hvalue
    · -- What is not set aside stays recorded when the bytes are restored.
      have hkept : ∀ r ∈ inner.touched.filter fun r => !locations.contains r,
          (t1.withContext (restore t1.cx batons locations.head?)).Records r := by
        intro r hr
        obtain ⟨hr, hnot⟩ := mem_filter.1 hr
        refine (htouched r hr).imp_left fun ⟨hgo1, hr1⟩ => ⟨terminated_restore.trans hgo1, mem_touched_restore hr1 ?_⟩
        rintro b hb rfl
        simp [(hmade b hb).1] at hnot
      cases o' with
      | cut => exact hkept
      | left after => exact absurd (refuseGotos_ok hnone) (hleft after rfl).1
      | done inside =>
        refine forall_mem_append.2 ⟨hkept, fun r hr => .inl ⟨terminated_restore.trans (hdone inside rfl).1, ?_⟩⟩
        split at hr
        · cases hr
        · next hfirst =>
          simp only [Trail.withContext, restore, hfirst, ↓reduceIte]
          exact mem_touched_spoil.2 (.inl (mem_singleton.1 hr))
  | @pointInto _ pointer table _ _ body henter h1 hnone =>
    obtain ⟨-, -, -, rfl⟩ := enterPoint_ok henter
    rintro live log o hlive ⟨o', hrun, rfl⟩
    rw [pointInto_env] at hrun
    have hheld0 : ((t.cx.setAssoc pointer (some table)).forget pointer).HeldIn (live \ {pointer}) := by
      intro r hr
      obtain ⟨hr, hne⟩ := isMeaningful_forget.1 hr
      exact ⟨hlive r hr, hne⟩
    obtain ⟨huses, hdone, hleft, htouched⟩ := body.covers s h1 hgo hheld0 hrun
    refine ⟨huses, fun after ho => ?_, fun after ho =>
      absurd (refuseGotos_ok hnone) (hleft after (Ending.map_eq_left.1 ho)).1, htouched⟩
    obtain ⟨inside, rfl, rfl⟩ := Ending.map_eq_done.1 ho
    obtain ⟨hgo1, hheld⟩ := hdone inside rfl
    refine ⟨hgo1, fun r hr => ?_⟩
    obtain ⟨hr, hne⟩ := isMeaningful_forget.1 hr
    exact ⟨hheld r hr, hne⟩

theorem Block.covers (s : Setting) : ∀ (b : Block) {t t' : Trail}, b.walk s t = .ok t' →
    t.cx.terminated = false → t.Covers t' (b.Paths s t.cx.getAssoc)
  | .nil _, t, t', h, hgo => by
    cases h
    exact covers_skip hgo
  | .cons head tail, t, t', h, hgo => by
    obtain ⟨t1, h1, h2⟩ := bind_eq_ok.1 h
    exact covers_seq (head.covers s h1 hgo) (fun hgo1 => (head.walk_keeps s h1).assoc ▸ tail.covers s h2 hgo1)
      (tail.walk_keeps s h2)

end

section

variable {log : Log} {run : Paths} (h : t.Covers t' run) (hrepeat : Repeatable run)
include h hrepeat

/-- Where a path comes to its end, the analysis takes control to come there as well. -/
theorem Trail.Covers.terminated (hrun : run live log (.done after)) : t'.cx.terminated = false := by
  obtain ⟨log', after', hrun', -⟩ := hrepeat.done hrun {r | t.cx.isMeaningful r = true}
  exact ((h (fun r hr => hr) hrun').2.1 after' rfl).1

/-- Where a path leaves by a jump, the analysis has met one. -/
theorem Trail.Covers.gotos (hrun : run live log (.left after)) : t'.cx.gotos ≠ [] := by
  obtain ⟨log', _, hrun', ⟨⟩⟩ := hrepeat hrun {r | t.cx.isMeaningful r = true}
  exact ((h (fun r hr => hr) hrun').2.2.1 _ rfl).1

end

end CheckedAsm
