import CheckedAsm.Proofs.Analysis.Walk
import Mathlib.Data.List.Nodup
/-! # What may be written to

A walk through a block leaves the locations that may be written to as they were. Inside a counting loop the counter may not be
written to, and where bytes are set aside they may be written to whatever else holds; but in both cases what held before comes
back afterwards. A location that is listed once among the touched ones is not listed twice later, so that taking it from the list
takes it from the set. -/

namespace CheckedAsm

open Context Focus List

variable {rs : List Ref} {batons : List Baton}

/-- The second list has the same locations as the first, and does not name a location twice that the first one names once. -/
def Restores (w w' : List Ref) : Prop := ∀ r, (r ∈ w' ↔ r ∈ w) ∧ (w.count r ≤ 1 → w'.count r ≤ 1)

/-- From one context to another the same locations may be written to, and no location comes to be listed twice as touched. -/
structure Context.Orderly (cx cx' : Context) : Prop where
  restores : Restores cx.writeable cx'.writeable
  touched : ∀ r, cx.touched.count r ≤ 1 → cx'.touched.count r ≤ 1

section

variable {w w' w'' : List Ref} {r : Ref} {s : Setting} {f : Focus} {cx cx' cx1 cx2 : Context}

theorem Restores.refl (w : List Ref) : Restores w w := fun _ => ⟨.rfl, id⟩

theorem Restores.trans (h : Restores w w') (h' : Restores w' w'') : Restores w w'' := fun r =>
  ⟨(h' r).1.trans (h r).1, fun hr => (h' r).2 ((h r).2 hr)⟩

theorem nodup_foldl_insert (h : w.Nodup) (w' : List Ref) : (w'.foldl (fun acc r => acc.insert r) w).Nodup := by
  induction w' generalizing w with
  | nil => exact h
  | cons r w' ih => exact ih (List.Nodup.insert h)

theorem count_insert_le (h : w.count r ≤ 1) (q : Ref) : (w.insert q).count r ≤ 1 := by
  by_cases hq : q ∈ w
  · rwa [insert_of_mem hq]
  · rw [insert_of_not_mem hq]
    by_cases hr : q = r
    · subst hr
      simp [count_eq_zero_of_not_mem hq]
    · rwa [count_cons_of_ne hr]

theorem count_foldl_insert_le (h : w.count r ≤ 1) (w' : List Ref) :
    (w'.foldl (fun acc r => acc.insert r) w).count r ≤ 1 := by
  induction w' generalizing w with
  | nil => exact h
  | cons q w' ih => exact ih (count_insert_le h q)

theorem Restores.union (h : Restores w w') (h' : Restores w w'') : Restores w (w''.foldl (fun acc r => acc.insert r) w') := by
  intro r
  refine ⟨?_, fun hr => count_foldl_insert_le ((h r).2 hr) w''⟩
  rw [mem_foldl_insert, (h r).1, (h' r).1, or_self]

/-- Where each location is listed once, it still is afterwards. -/
theorem Context.Orderly.writeable (h : Orderly cx cx') (hw : cx.writeable.Nodup) :
    cx'.writeable.Nodup ∧ ∀ r, r ∈ cx'.writeable ↔ r ∈ cx.writeable := by
  rw [nodup_iff_count_le_one] at hw ⊢
  exact ⟨fun r => (h.restores r).2 (hw r), fun r => (h.restores r).1⟩

theorem Context.Orderly.refl (cx : Context) : Orderly cx cx := ⟨.refl _, fun _ h => h⟩

theorem Context.Orderly.trans (h : Orderly cx cx1) (h' : Orderly cx1 cx') : Orderly cx cx' :=
  ⟨h.restores.trans h'.restores, fun r hr => h'.touched r (h.touched r hr)⟩

theorem Context.Orderly.spoil (h : Orderly cx cx') (q : Ref) : Orderly cx (cx'.spoil q) :=
  ⟨h.restores, fun r hr => count_insert_le (h.touched r hr) q⟩

theorem Context.Orderly.spoilAll (h : Orderly cx cx') (rs : List Ref) : Orderly cx (rs.foldl Context.spoil cx') := by
  induction rs generalizing cx' with
  | nil => exact h
  | cons q rs ih => exact ih (h.spoil q)

theorem Context.Reworks.orderly (h : Reworks cx cx') : Orderly cx cx' := by
  induction h with
  | refl => exact .refl cx
  | touch q _ ih => exact ⟨ih.restores, fun r hr => count_insert_le (ih.touched r hr) q⟩
  | ranges _ _ ih => exact ⟨ih.restores, ih.touched⟩

/-- At the start of a routine its outputs and what it trashes may be written to. -/
theorem Context.start_writeable {inputs outputs trashes : List Ref} (h : start s inputs outputs trashes = .ok cx) :
    cx.writeable.Nodup ∧ ∀ r ∈ cx.writeable, r ∈ outputs ∨ r ∈ trashes := by
  simp only [start, bind_eq_ok, pure_eq_ok] at h
  obtain ⟨⟨⟩, -, ranges, -, ⟨⟩, -, ⟨⟩, -, rfl⟩ := h
  refine ⟨nodup_foldl_insert nodup_nil _, fun r hr => ?_⟩
  rcases mem_foldl_insert.1 hr with hr | hr
  · cases hr
  · exact mem_append.1 hr

/-! ### Steps of a walk -/

theorem Focus.orderly_merge {merged : Context} (h : Focus.merge s cx cx1 cx2 = .ok merged) (h1 : Orderly cx cx1)
    (h2 : Orderly cx cx2) : Orderly cx merged := by
  obtain ⟨both, rfl, -, hjoins⟩ := merge_ok h
  refine .spoilAll ?_ _
  cases hjoins with
  | second => exact ⟨h2.restores, h2.touched⟩
  | first => exact ⟨h1.restores, h1.touched⟩
  | neither _ _ _ _ htouched hwriteable =>
    refine ⟨hwriteable ▸ h1.restores.union h2.restores, fun r hr => ?_⟩
    rw [htouched]
    exact count_foldl_insert_le (h1.touched r hr) _

/-- What a routine sets and spoils is written to one after the other. -/
theorem Focus.orderly_perform {sig : Signature} (h : Focus.perform s cx sig = .ok cx') : Orderly cx cx' := by
  rw [Focus.perform, bind_eq_ok] at h
  obtain ⟨cx1, houtputs, htrashes⟩ := h
  refine (foldlM_induct Orderly.refl Orderly.trans (fun hw => (reworks_write hw).orderly) houtputs).trans ?_
  refine foldlM_induct Orderly.refl Orderly.trans (fun hspoil => ?_) htrashes
  rw [bind_eq_ok] at hspoil
  obtain ⟨⟨⟩, -, hspoil⟩ := hspoil
  cases hspoil
  exact (Orderly.refl _).spoil _

theorem Focus.mem_writeable_of_enterCount {d : Ref} {dir : Direction} {final : Const}
    (h : f.enterCount cx d dir final = .ok cx') : d ∈ cx.writeable := by
  simp only [Focus.enterCount, bind_eq_ok] at h
  obtain ⟨⟨⟩, -, ⟨⟩, -, range, -, inside, -, cx1, hset, h⟩ := h
  cases setRange_ok hset
  unfold lock at h
  split at h
  · next hd => exact contains_iff_mem.1 hd
  · cases h

/-- Inside, only what is set aside may be written to in addition. -/
theorem Focus.writeable_setAside (h : f.setAside rs cx = .ok (batons, cx')) : ∀ r ∈ cx'.writeable, r ∈ rs ∨ r ∈ cx.writeable := by
  induction rs generalizing cx batons with
  | nil =>
    cases h
    exact fun r hr => .inr hr
  | cons q rs ih =>
    simp only [Focus.setAside, bind_eq_ok, pure_eq_ok] at h
    obtain ⟨⟨⟩, -, ⟨batons1, cx1⟩, h1, h⟩ := h
    cases h
    intro r hr
    rcases ih h1 r hr with hr | hr
    · exact .inl (mem_cons_of_mem q hr)
    · rcases mem_insert_iff.1 hr with rfl | hr
      · exact .inl mem_cons_self
      · exact .inr hr

theorem Focus.nodup_setAside (h : f.setAside rs cx = .ok (batons, cx')) (hcx : cx.writeable.Nodup) : cx'.writeable.Nodup := by
  induction rs generalizing cx batons with
  | nil =>
    cases h
    exact hcx
  | cons q rs ih =>
    simp only [Focus.setAside, bind_eq_ok, pure_eq_ok] at h
    obtain ⟨⟨⟩, -, ⟨batons1, cx1⟩, h1, h⟩ := h
    cases h
    exact ih h1 (List.Nodup.insert hcx)

/-- Taking a byte back takes back the permission to write to it, if it was only given for setting it aside. -/
theorem Context.restores_reintroduce (h : Restores (cx.unlock r).writeable cx'.writeable) :
    Restores cx.writeable (cx'.reintroduce (cx.extract r).1).writeable := by
  intro q
  obtain ⟨hmem, hcount⟩ := h q
  by_cases hr : r ∈ cx.writeable
  · simp only [extract, reintroduce, contains_iff_mem.2 hr, ↓reduceIte]
    rw [unlock, insert_of_mem hr] at hmem hcount
    rw [mem_insert_iff, hmem]
    exact ⟨or_iff_right_of_imp (· ▸ hr), fun hq => count_insert_le (hcount hq) r⟩
  · have hc : cx.writeable.contains r = false := by simpa using hr
    simp only [extract, reintroduce, hc, Bool.false_eq_true, ↓reduceIte]
    have honce : cx.writeable.count q ≤ 1 → cx'.writeable.count q ≤ 1 := fun hq => hcount (count_insert_le hq r)
    refine ⟨?_, fun hq => Nat.le_trans (erase_sublist.count_le q) (honce hq)⟩
    by_cases hq : q = r
    · subst hq
      have hzero : cx.writeable.count q = 0 := count_eq_zero_of_not_mem hr
      have hle := honce (by omega)
      rw [iff_false_right hr, ← count_pos_iff, count_erase_self]
      omega
    · rw [mem_erase_of_ne hq, hmem, unlock, mem_insert_iff, or_iff_right hq]

/-- When all bytes are taken back, the same locations may be written to as before they were set aside. -/
theorem Focus.orderly_restore {first : Option Ref} (h : f.setAside rs cx = .ok (batons, cx1))
    (hin : Orderly cx1 cx') : Orderly cx (Focus.restore cx' batons first) := by
  have hback : Orderly cx (batons.foldl reintroduce cx') := by
    induction rs generalizing cx batons with
    | nil =>
      cases h
      exact hin
    | cons q rs ih =>
      simp only [Focus.setAside, bind_eq_ok, pure_eq_ok] at h
      obtain ⟨⟨⟩, -, ⟨batons1, cx2⟩, h1, h⟩ := h
      cases h
      rw [foldl_append]
      refine ⟨restores_reintroduce (ih h1).restores, fun r hr => ?_⟩
      have hrest := (ih h1).touched r hr
      simp only [foldl_cons, foldl_nil, reintroduce]
      split
      · exact count_insert_le hrest _
      · exact Nat.le_trans (erase_sublist.count_le r) hrest
  unfold Focus.restore
  split
  · exact hback
  · exact hback.spoil _

end

mutual

/-- After an instruction the same locations may be written to as before it. -/
theorem Instr.walk_orderly (s : Setting) (i : Instr) {t t' : Trail} (hw : i.walk s t = .ok t') : Orderly t.cx t'.cx := by
  cases Instr.walked hw with
  | op h => exact (reworks_single h).orderly
  | call h =>
    obtain ⟨ty, sig, cx, -, -, -, hp, rfl⟩ := call_ok h
    exact orderly_perform hp
  | goto h =>
    rw [jump_cx h]
    exact ⟨.refl _, fun _ hr => hr⟩
  | @reset _ pointer _ _ h =>
    obtain ⟨-, cx1, hm, rfl⟩ := reset_ok h
    exact ((makeMeaningful_ok hm).1.reworks.touch pointer).orderly
  | ifThen yes h1 hm =>
    obtain ⟨hw, ht⟩ := yes.walk_orderly s h1
    exact orderly_merge hm ⟨hw, ht⟩ ⟨.refl _, fun _ hr => hr⟩
  | ifElse yes no h1 h2 hm =>
    obtain ⟨hw1, ht1⟩ := yes.walk_orderly s h1
    obtain ⟨hw2, ht2⟩ := no.walk_orderly s h2
    exact orderly_merge hm ⟨hw1, ht1⟩ ⟨hw2, ht2⟩
  | loop body h1 _ _ h2 => exact (body.walk_orderly s h1).trans (body.walk_orderly s h2)
  | @count _ d _ _ _ _ t2 _ body henter h1 h2 hleave =>
    have hd := mem_writeable_of_enterCount henter
    obtain ⟨range, inside, -, -, -, rfl⟩ := enterCount_ok henter
    obtain rfl := leaveCount_ok hleave
    obtain ⟨hrestores, htouched⟩ := (body.walk_orderly s h1).trans (body.walk_orderly s h2)
    refine ⟨fun r => ?_, htouched⟩
    -- The counter was taken from the list before the loop and is put back after it.
    obtain ⟨hmem, hcount⟩ := hrestores r
    change (r ∈ t2.cx.writeable ↔ r ∈ t.cx.writeable.erase d) at hmem
    change (t.cx.writeable.erase d).count r ≤ 1 → t2.cx.writeable.count r ≤ 1 at hcount
    refine ⟨?_, fun hr => count_insert_le (hcount (Nat.le_trans (erase_sublist.count_le r) hr)) d⟩
    change r ∈ t2.cx.writeable.insert d ↔ r ∈ t.cx.writeable
    rw [mem_insert_iff, hmem]
    by_cases hr : r = d
    · simp [hr, hd]
    · rw [mem_erase_of_ne hr, or_iff_right hr]
  | interruptsOff body h => exact body.walk_orderly s h
  | save body hset h1 => exact orderly_restore hset (body.walk_orderly s h1 :)
  | pointInto body henter h1 =>
    obtain ⟨-, -, -, rfl⟩ := enterPoint_ok henter
    obtain ⟨hw, ht⟩ := body.walk_orderly s h1
    exact ⟨hw, ht⟩

theorem Block.walk_orderly (s : Setting) : ∀ (b : Block) {t t' : Trail}, b.walk s t = .ok t' → Orderly t.cx t'.cx
  | .nil _, t, t', h => by
    cases h
    exact .refl _
  | .cons head tail, t, t', h => by
    obtain ⟨t1, h1, h2⟩ := bind_eq_ok.1 h
    exact (head.walk_orderly s h1).trans (tail.walk_orderly s h2)

end

end CheckedAsm
