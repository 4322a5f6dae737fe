import CheckedAsm.Proofs.Analysis.Comparison
import CheckedAsm.Proofs.Values.Routines
/-! # Choices that jump

Where a branch of a choice ends in a jump, the walk goes on with the other branch alone. Yet a location that had a value before the
choice counts as spoiled if the branch with the jump has lost it, even if the other branch has set it. So a value too many can make a
block unacceptable; apart from that, values do no harm. And where both branches end in jumps, what is known at the end of the second
one is kept, so that the two cannot change places unless they leave the same behind; apart from that, they can. -/

namespace CheckedAsm

open Context List

/-! ### More values -/

/-- A block that is accepted is also accepted in a context with more values, and leaves no fewer values then, if none of the additional
ones is lost on a branch that ends in a jump while the other branch sets it. -/
theorem Block.accepted_with_more_values (s : Setting) (b : Block) (t t' t₁ : Trail) (hw : t.cx.writeable.Nodup)
    (hsame : SameButRanges t.cx t'.cx)
    (hmore : ∀ r, t'.cx.range? r = t.cx.range? r ∨ (t.cx.range? r = none ∧ t'.cx.Widest s r))
    (hclear : b.Clear s {r | t.cx.isMeaningful r = false ∧ t'.cx.isMeaningful r = true}) (h : b.walk s t = .ok t₁) :
    ∃ t₁', b.walk s t' = .ok t₁' ∧ ∀ r, t₁.cx.isMeaningful r = true → t₁'.cx.isMeaningful r = true := by
  have halike : Alike s (.more {r | t.cx.isMeaningful r = false ∧ t'.cx.isMeaningful r = true}) t.cx t'.cx := by
    refine ⟨fun r => (hmore r).imp id ?_, nofun, ⟨hw, hsame.writeable ▸ hw⟩, fun r => by rw [hsame.writeable], hsame.terminated,
      fun r => by rw [hsame.gotos], getAssoc_congr hsame.assoc⟩
    rintro ⟨hnone, v, hv, hsome⟩
    exact ⟨⟨by rw [isMeaningful_eq, hnone]; rfl, by rw [isMeaningful_eq, hsome]; rfl⟩, hnone, v, hv, hsome⟩
  rcases b.walk_meets s (.refl b) (fun _ => ⟨rfl, hclear⟩) (Set.Subset.refl _) halike t₁ h with ⟨t₁', h', h₁⟩ | ⟨hlax, -⟩
  · exact ⟨t₁', h', fun r => h₁.cx.held fun hopen => absurd hopen.1 nofun⟩
  · cases hlax

/-- The setting of a main routine that may jump to another one. -/
def settingSetting : Setting := ⟨Routine.jumpingSymbols, "main", 0⟩

/-- Leaves for the other routine. -/
def leaving : Block := .cons (.goto 0 "bar") (.nil 0)

/-- Sets `x` if the carry is set, otherwise does something else and jumps, and reads `x` after that. -/
def settingOr (otherwise : Block → Block) : Block :=
  .cons (.ifElse 0 .c false (.cons (.op 0 (.ld .x (.constant ⟨.byte, 5⟩))) (.nil 0)) (otherwise leaving))
    (.cons (.op 0 (.ld .a .x)) (.nil 0))

/-- The carry has a value. -/
def settingStart : Trail := ⟨{ ranges := ⟨[(.c, .ofInts (0, 1))]⟩, writeable := [.a, .x, .z, .n] }, [], []⟩

/-- The carry has a value, and `x` has any. -/
def settingStartX : Trail := settingStart.withContext (settingStart.cx.putRange .x (.ofInts (0, 255)))

theorem settingStartX_more (r : Ref) : settingStartX.cx.range? r = settingStart.cx.range? r
    ∨ (settingStart.cx.range? r = none ∧ settingStartX.cx.Widest settingSetting r) := by
  by_cases hr : .x = r
  · subst hr
    exact .inr ⟨rfl, _, rfl, rfl⟩
  · exact .inl (range?_putRange.trans (if_neg hr))

theorem settingOr_clear (extra : Set Ref) : (settingOr id).Clear settingSetting extra := by
  intro line src inv yes no hin r _
  cases hin with
  | head =>
    refine ⟨fun hcloses => absurd hcloses Bool.false_ne_true, fun _ hloses => ?_⟩
    obtain ⟨t, t', hwalk, hbefore, hafter⟩ := hloses
    simp only [id_eq, leaving, Block.walk, Instr.walk, bind_eq_ok] at hwalk
    obtain ⟨_, hjump, ⟨⟩⟩ := hwalk
    rw [Focus.jump_cx hjump] at hafter
    exact Bool.noConfusion (hbefore.symm.trans hafter)
  | tail hin =>
    cases hin with
    | tail hin => cases hin
    | inside hb => cases hb
  | inside hb hin =>
    simp only [Instr.blocks, mem_cons, not_mem_nil, or_false] at hb
    obtain rfl | rfl := hb <;> cases hin with
    | tail hin => cases hin
    | inside hb => cases hb

/-- If the other branch does nothing but jump, a value of `x` does no harm. -/
theorem settingOr_accepted_with_x :
    ∃ t₁ t₁', (settingOr id).walk settingSetting settingStart = .ok t₁ ∧ (settingOr id).walk settingSetting settingStartX = .ok t₁'
      ∧ ∀ r, t₁.cx.isMeaningful r = true → t₁'.cx.isMeaningful r = true := by
  obtain ⟨t₁, h⟩ : ∃ t₁, (settingOr id).walk settingSetting settingStart = .ok t₁ := isOk_iff.1 (by decide +kernel)
  exact ⟨t₁, (Block.accepted_with_more_values settingSetting (settingOr id) settingStart settingStartX t₁ (by decide)
    (.putRange _ _ _) settingStartX_more (settingOr_clear _) h).imp fun _ hrun => ⟨h, hrun⟩⟩

/-- If the other branch spoils `x` and jumps, the block is accepted where `x` had no value before, but not where it had one. -/
theorem settingOr_refused_with_x :
    ((settingOr (.cons (.op 0 (.trash .x)))).walk settingSetting settingStart).isOk = true
      ∧ SameButRanges settingStart.cx settingStartX.cx
      ∧ (∀ r, settingStartX.cx.range? r = settingStart.cx.range? r
        ∨ (settingStart.cx.range? r = none ∧ settingStartX.cx.Widest settingSetting r))
      ∧ ((settingOr (.cons (.op 0 (.trash .x)))).walk settingSetting settingStartX).isOk = false :=
  ⟨by decide +kernel, .putRange _ _ _, settingStartX_more, by decide +kernel⟩

/-! ### Turned choices -/

theorem Context.Alike.agree {s : Setting} {cx cx' : Context} (h : Alike s .exact cx cx') : Routine.agree cx cx' = true := by
  refine agree_iff.2 ⟨fun r => ?_, h.touched rfl, h.writeable⟩
  rw [isMeaningful_eq, isMeaningful_eq, (h.range r : cx'.range? r = _)]

namespace Routine

variable {s : Setting} {sig : Signature} {t t' : Trail} {symbols : Symbols} {r : Routine} {b b' : Block}

/-- The last checks are passed after both of two walks that are alike, if after one. -/
theorem check_alike (hconstant : ∀ o ∈ sig.outputs, s.isConstant (.ofSlot o) = .ok false) (h : Trail.Alike s .exact [] t t')
    (h' : Trail.Alike s .exact [] t' t) (hcheck : ∃ cx, check s sig t = .ok cx) : ∃ cx, check s sig t' = .ok cx := by
  rw [check_isOk_iff hconstant] at hcheck ⊢
  obtain ⟨hagree, hspoiled, hexits, hend⟩ := hcheck
  have hback : ∀ e' ∈ t'.exits, ∃ e ∈ t.exits, agree e e' = true := by
    intro e' he'
    obtain ⟨e, he, halike⟩ := (h'.exits e' he').resolve_left not_mem_nil
    exact ⟨e, he, agree_of_agree halike.agree agree_refl⟩
  refine ⟨fun e1' he1' e2' he2' => ?_, fun o ho htouched => ?_, fun e' he' => ?_, fun hnone => ?_⟩
  · obtain ⟨e1, he1, h1⟩ := hback e1' he1'
    obtain ⟨e2, he2, h2⟩ := hback e2' he2'
    exact agree_of_agree (agree_of_agree (hagree e1 he1 e2 he2) h1) h2
  · obtain ⟨hmeaningful, htouches, -⟩ := agree_iff.1 h.cx.agree
    exact (hmeaningful _).1 (hspoiled o ho ((htouches _).2 htouched))
  · obtain ⟨e, he, hsame⟩ := hback e' he'
    exact (hexits e he).of_agree hsame
  · have hnone : t.exits = [] := eq_nil_iff_forall_not_mem.2 fun e he => by
      obtain ⟨e', he', -⟩ := (h.exits e he).resolve_left not_mem_nil
      rw [hnone] at he'
      cases he'
    exact (hend hnone).of_agree h.cx.agree

theorem walk_turned (ht : b.Turned s b') (hwalk : walk s sig b = .ok t) :
    ∃ t', walk s sig b' = .ok t' ∧ Trail.Alike s .exact [] t t' := by
  simp only [walk, bind_eq_ok] at hwalk
  obtain ⟨cx0, hstart, cx, hstatics, hwalk⟩ := hwalk
  have hw : cx.writeable.Nodup := by
    rw [(startStatics_values hstatics).1.writeable]
    exact (start_writeable hstart).1
  obtain ⟨t', hwalk', halike⟩ := ht.walk (.refl hw) hwalk
  exact ⟨t', bind_eq_ok.2 ⟨cx0, hstart, bind_eq_ok.2 ⟨cx, hstatics, hwalk'⟩⟩, halike⟩

/-- A routine with turned choices is accepted if the routine itself is. -/
theorem analyse_turned (hbody : r.body = some b) (ht : b.Turned (r.setting symbols) b') {facts : Facts}
    (h : (r.analyse symbols).2 = .ok facts) : ∃ facts, (({ r with body := some b' } : Routine).analyse symbols).2 = .ok facts := by
  obtain ⟨sig, t, hsig, hwalk, hcheck⟩ := analyse_ok h hbody
  obtain ⟨t', hwalk', halike⟩ := walk_turned ht hwalk
  obtain ⟨t1, hwalk1, halike'⟩ := walk_turned ht.symm hwalk'
  cases hwalk.symm.trans hwalk1
  obtain ⟨cx', hcheck'⟩ := check_alike (outputs_not_constant hwalk) halike halike' hcheck
  have hsetting : ({ r with body := some b' } : Routine).setting symbols = r.setting symbols := rfl
  refine ⟨⟨.routine sig, cx'.gotos.map Ref.name, t'.calls⟩, ?_⟩
  simp only [analyse, hsetting, hsig, hwalk', hcheck', Except.map]

/-- Turning choices round does not change whether a routine is accepted, unless both branches of one end in jumps and leave something
different behind. -/
theorem turned_accepted (symbols : Symbols) (r : Routine) (b b' : Block) (hbody : r.body = some b)
    (ht : b.Turned (r.setting symbols) b') :
    (({ r with body := some b' } : Routine).analyse symbols).2.isOk = (r.analyse symbols).2.isOk := by
  rw [Bool.eq_iff_iff, isOk_iff, isOk_iff]
  constructor
  · rintro ⟨facts, h⟩
    obtain ⟨facts', h'⟩ := analyse_turned (r := { r with body := some b' }) rfl ht.symm h
    rw [← hbody] at h'
    exact ⟨facts', h'⟩
  · rintro ⟨facts, h⟩
    exact analyse_turned hbody ht h

/-- The main routine with another body. -/
def jumpingWith (body : Block) : Routine := ⟨0, "main", none, [], some body, false⟩

theorem leaving_endsAlike : leaving.EndsAlike s leaving := by
  intro t t' t1 t1' _ hcx hrun hrun'
  simp only [leaving, Block.walk, Instr.walk, bind_eq_ok] at hrun hrun'
  obtain ⟨_, hjump, ⟨⟩⟩ := hrun
  obtain ⟨_, hjump', ⟨⟩⟩ := hrun'
  rw [Focus.jump_cx hjump, Focus.jump_cx hjump', hcx]
  exact ⟨fun _ => rfl, fun _ => .rfl⟩

/-- A choice between two jumps, in one branch of another choice. -/
def nestedChoice : Block :=
  .cons (.ifElse 0 .c false (.cons (.ifElse 0 .z false leaving leaving) (.nil 0)) settingX) (.nil 0)

/-- The choices have been turned, the inner one too. -/
def nestedTurned : Block :=
  .cons (.ifElse 0 .c true settingX (.cons (.ifElse 0 .z true leaving leaving) (.nil 0))) (.nil 0)

/-- Both are accepted. -/
theorem nestedTurned_accepted :
    ((jumpingWith nestedTurned).analyse jumpingSymbols).2.isOk = ((jumpingWith nestedChoice).analyse jumpingSymbols).2.isOk
      ∧ ((jumpingWith nestedChoice).analyse jumpingSymbols).2.isOk = true := by
  have hinner : (Block.cons (.ifElse 0 .z false leaving leaving) (.nil 0)).Turned ((jumpingWith nestedChoice).setting jumpingSymbols)
      (.cons (.ifElse 0 .z true leaving leaving) (.nil 0)) :=
    .cons (.turn (.refl _) (.refl _) rfl fun _ _ => leaving_endsAlike) (.nil 0)
  exact ⟨turned_accepted jumpingSymbols (jumpingWith nestedChoice) nestedChoice nestedTurned rfl
    (.cons (.turn hinner (.refl _) rfl fun _ hgo => absurd hgo Bool.false_ne_true) (.nil 0)), by decide +kernel⟩

/-- Where both branches jump and one has spoiled an output before, the routine is accepted only if that branch comes first. -/
theorem turned_refused :
    ((jumpingWith (.cons (.ifElse 0 .c false (.cons (.op 0 (.trash .x)) leaving) leaving) (.nil 0))).analyse jumpingSymbols).2.isOk = true
      ∧ ((jumpingWith (.cons (.ifElse 0 .c true leaving (.cons (.op 0 (.trash .x)) leaving)) (.nil 0))).analyse jumpingSymbols).2.isOk
        = false :=
  ⟨by decide +kernel, by decide +kernel⟩

end Routine

end CheckedAsm
