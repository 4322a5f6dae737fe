import CheckedAsm.Proofs.Analysis.Transfers
/-! # What holds for the length of a construct

Some constructs change the rules for their own length: a counting loop locks its counter, setting bytes aside lets them be written
to, and a pointer is associated with its table. When the construct is left the rules are as they were, whatever was nested in it.
Bytes that were set aside also have their former ranges, and count as touched only if they did before. The accumulator carries them
to the stack and back, so it keeps its value only if it was the first to be set aside. -/

namespace CheckedAsm

open Context Focus

/-- After a block the same locations may be written to as before, and the pointers lead into the same tables. -/
theorem Block.walk_restores_rules (s : Setting) (b : Block) (t t' : Trail) (h : b.walk s t = .ok t') :
    (∀ r, r ∈ t'.cx.writeable ↔ r ∈ t.cx.writeable) ∧ ∀ p, t'.cx.getAssoc p = t.cx.getAssoc p :=
  ⟨fun r => ((b.walk_orderly s h).restores r).1, fun p => congrFun (b.walk_keeps s h).assoc p⟩

/-- Sets `x` aside, counts with it, and sets it aside once more where it is locked. Then there is a choice between a jump and a pointer
that leads into a table. -/
def ruled : Block :=
  .cons (.save 0 [.x] (.cons (.op 0 (.ld .x (.constant ⟨.byte, 0⟩))) (.cons (.count 0 .x .up ⟨.byte, 3⟩
      (.cons (.save 0 [.x] (.cons (.op 0 (.ld .x (.constant ⟨.byte, 9⟩))) (.nil 0))) (.nil 0))) (.nil 0))))
    (.cons (.ifElse 0 .c false (.cons (.goto 0 "main") (.nil 0))
      (.cons (.pointInto 0 (.location "ptr") (.location "tab") (.cons (.reset 0 (.location "ptr") ⟨.byte, 0⟩) (.nil 0))) (.nil 0)))
      (.nil 0))

/-- At first `x` may not be written to, and the pointer has no table. -/
def ruledStart : Trail :=
  ⟨{ ranges := ⟨[(.c, .ofInts (0, 1)), (.location "tab", .ofInts (0, 3))]⟩, writeable := [.z, .n] }, [], []⟩

theorem ruled_restores_rules :
    ∃ t', ruled.walk weaveSetting ruledStart = .ok t' ∧ t'.cx.gotos = [.location "main"] ∧ Ref.x ∉ t'.cx.writeable
      ∧ t'.cx.getAssoc (.location "ptr") = none := by
  have hruns : ((ruled.walk weaveSetting ruledStart).map fun t' => t'.cx.gotos).toOption = some [.location "main"] := by
    decide +kernel
  simp only [toOption_eq_some, map_eq_ok] at hruns
  obtain ⟨t', h, hgotos⟩ := hruns
  obtain ⟨hwriteable, hassoc⟩ := Block.walk_restores_rules weaveSetting ruled ruledStart t' h
  refine ⟨t', h, hgotos, ?_, hassoc _⟩
  rw [hwriteable]
  decide

/-! ### Setting bytes aside -/

/-- From one trail, through the end of what is done while some bytes are set aside, to where they have been taken back. -/
structure Trail.Saves (rs : List Ref) (t t1 t' : Trail) : Prop where
  range : ∀ r, t'.cx.range? r = if r = .a ∧ rs.head? ≠ some .a then none
    else if r ∈ rs then t.cx.range? r else t1.cx.range? r
  touched : ∀ r, r ∈ t'.cx.touched
    ↔ (if r ∈ rs then r ∈ t.cx.touched else r ∈ t1.cx.touched) ∨ (r = .a ∧ rs.head? ≠ some .a)
  gotos : t'.cx.gotos = t1.cx.gotos
  terminated : t'.cx.terminated = t1.cx.terminated
  exits : t'.exits = t1.exits
  calls : t'.calls = t1.calls

/-- The trail where some bytes have been set aside: they may be written to. -/
def Trail.aside (t : Trail) (rs : List Ref) : Trail := t.withContext (rs.foldl Context.unlock t.cx)

section

variable {s : Setting} {line : Nat} {rs : List Ref} {body : Block} {t t' : Trail}

/-- Any bytes can be set aside. -/
theorem Focus.setAside_iff {f : Focus} {cx cx' : Context} :
    (∃ batons, f.setAside rs cx = .ok (batons, cx')) ↔ (∀ r ∈ rs, f.setting.typeOf r = .ok .byte) ∧ cx' = rs.foldl Context.unlock cx := by
  induction rs generalizing cx with
  | nil => simp [Focus.setAside, eq_comm]
  | cons q rs ih =>
    have hq : f.assertType .byte q = .ok () ↔ f.setting.typeOf q = .ok .byte := by
      refine ⟨assertType_ok, fun h => ?_⟩
      simp [assertType, h, bind, Except.bind, pure, Except.pure]
    rw [List.forall_mem_cons, List.foldl_cons, and_assoc, ← ih, ← hq]
    simp only [Focus.setAside, bind_eq_ok, pure_eq_ok, extract]
    constructor
    · rintro ⟨batons, ⟨⟩, hbyte, ⟨rest, cx1⟩, hrest, hpair⟩
      cases hpair
      exact ⟨hbyte, rest, hrest⟩
    · rintro ⟨hbyte, rest, hrest⟩
      exact ⟨_, (), hbyte, (rest, cx'), hrest, rfl⟩

theorem Instr.walk_save (h : (Instr.save line rs body).walk s t = .ok t') :
    (∀ r ∈ rs, s.typeOf r = .ok .byte) ∧ ∃ t1, body.walk s (t.aside rs) = .ok t1 ∧ t1.cx.gotos = [] ∧ t.Saves rs t1 t' := by
  simp only [Instr.walk, bind_eq_ok, pure_eq_ok] at h
  obtain ⟨⟨batons, cx⟩, hset, t1, h1, ⟨⟩, hnone, rfl⟩ := h
  obtain ⟨hbytes, rfl⟩ := setAside_iff.1 ⟨batons, hset⟩
  refine ⟨hbytes, t1, h1, refuseGotos_ok hnone, ?_⟩
  exact ⟨fun r => range?_restore hset, fun r => mem_touched_restored hset (body.walk_orderly s h1),
    gotos_restore, terminated_restore, rfl, rfl⟩

theorem Instr.walk_save_of {t1 : Trail} (hbytes : ∀ r ∈ rs, s.typeOf r = .ok .byte) (h1 : body.walk s (t.aside rs) = .ok t1)
    (hnone : t1.cx.gotos = []) : ∃ t', (Instr.save line rs body).walk s t = .ok t' := by
  obtain ⟨batons, hset⟩ : ∃ batons, (⟨s, .save line rs body⟩ : Focus).setAside rs t.cx = .ok (batons, rs.foldl Context.unlock t.cx) :=
    setAside_iff.2 ⟨hbytes, rfl⟩
  simp only [Instr.walk, bind_eq_ok, pure_eq_ok]
  exact ⟨_, (batons, _), hset, t1, h1, (), by simp [Focus.refuseGotos, hnone], rfl⟩

/-- What is not set aside may be written to inside if it may be outside. -/
theorem mem_writeable_aside {r : Ref} : r ∈ (t.aside rs).cx.writeable ↔ r ∈ t.cx.writeable ∨ r ∈ rs := by
  have hfold : (rs.foldl Context.unlock t.cx).writeable = rs.foldl (fun acc r => acc.insert r) t.cx.writeable := by
    generalize t.cx = cx
    induction rs generalizing cx with
    | nil => rfl
    | cons q rs ih => exact ih _
  rw [Trail.aside, Trail.withContext, hfold, mem_foldl_insert]

end

/-- What a context knows about a location: whether it was touched, its range, and whether it may be written to. -/
def Context.known (cx : Context) (r : Ref) : Baton := (cx.extract r).1

theorem Context.known_eq {cx cx' : Context} {r : Ref} (htouched : r ∈ cx'.touched ↔ r ∈ cx.touched) (hrange : cx'.range? r = cx.range? r)
    (hwriteable : r ∈ cx'.writeable ↔ r ∈ cx.writeable) : cx'.known r = cx.known r := by
  have hbools : cx'.touched.contains r = cx.touched.contains r ∧ cx'.writeable.contains r = cx.writeable.contains r := by
    simp [htouched, hwriteable]
  simp only [known, extract, hbools]
  exact congrArg (Baton.mk r _ · _) hrange

/-- What is set aside is known afterwards as it was before, and anything else as the block inside left it. The accumulator is known as
before if it is set aside first, and otherwise is touched and has no value. -/
theorem Instr.save_frame (s : Setting) (line : Nat) (q : Ref) (rs : List Ref) (body : Block) (t t' : Trail)
    (h : (Instr.save line (q :: rs) body).walk s t = .ok t') :
    ∃ t₁, body.walk s (t.withContext ((q :: rs).foldl Context.unlock t.cx)) = .ok t₁
      ∧ (∀ r ∈ q :: rs, r ≠ .a → t'.cx.known r = t.cx.known r)
      ∧ (∀ r ∉ q :: rs, r ≠ .a → t'.cx.known r = t₁.cx.known r)
      ∧ (q = .a → t'.cx.known .a = t.cx.known .a)
      ∧ (q ≠ .a → .a ∈ t'.cx.touched ∧ t'.cx.isMeaningful .a = false) := by
  obtain ⟨-, t₁, h₁, -, hsaves⟩ := Instr.walk_save h
  have hrights : ∀ r, r ∈ t'.cx.writeable ↔ r ∈ t.cx.writeable := fun r =>
    (((Instr.save line (q :: rs) body).walk_orderly s h).restores r).1
  have hback : ∀ r ∈ q :: rs, (r = .a → q = .a) → t'.cx.known r = t.cx.known r := by
    intro r hr hacc
    have hout : ¬ (r = .a ∧ (q :: rs).head? ≠ some .a) := fun ⟨ha, hq⟩ => hq (congrArg some (hacc ha))
    refine known_eq ?_ ?_ (hrights r)
    · rw [hsaves.touched, if_pos hr, or_iff_left hout]
    · rw [hsaves.range, if_neg hout, if_pos hr]
  refine ⟨t₁, h₁, fun r hr hne => hback r hr fun ha => absurd ha hne, fun r hr hne => ?_, ?_, fun hq => ?_⟩
  · refine known_eq ?_ ?_ ?_
    · rw [hsaves.touched, if_neg hr, or_iff_left fun ⟨ha, _⟩ => hne ha]
    · rw [hsaves.range, if_neg fun ⟨ha, _⟩ => hne ha, if_neg hr]
    · rw [hrights, ((body.walk_orderly s h₁).restores r).1, mem_writeable_aside, or_iff_left hr]
  · rintro rfl
    exact hback .a List.mem_cons_self fun _ => rfl
  · have hout : (q :: rs).head? ≠ some .a := fun heq => hq (Option.some.inj heq)
    refine ⟨(hsaves.touched .a).2 (.inr ⟨rfl, hout⟩), ?_⟩
    rw [isMeaningful_eq, hsaves.range, if_pos ⟨rfl, hout⟩]
    rfl

/-- Sets `x` aside twice and the accumulator in between, and changes both. -/
def savedTwice : Instr :=
  .save 0 [.x, .a, .x] (.cons (.op 0 (.ld .x (.constant ⟨.byte, 9⟩))) (.cons (.op 0 (.ld .a (.constant ⟨.byte, 1⟩))) (.nil 0)))

theorem savedTwice_frame :
    ∃ t', savedTwice.walk weaveSetting ruledStart = .ok t' ∧ t'.cx.known .x = ⟨.x, false, none, false⟩
      ∧ .a ∈ t'.cx.touched ∧ t'.cx.isMeaningful .a = false := by
  have hruns : (savedTwice.walk weaveSetting ruledStart).isOk = true := by decide +kernel
  obtain ⟨t', h⟩ := isOk_iff.1 hruns
  obtain ⟨t₁, -, hback, -, -, hacc⟩ := Instr.save_frame weaveSetting 0 .x [.a, .x] _ ruledStart t' h
  exact ⟨t', h, hback .x (by decide) (by decide), hacc (by decide)⟩

end CheckedAsm
