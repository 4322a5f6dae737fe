import CheckedAsm.Proofs.Grammar.Spelling
import CheckedAsm.Proofs.Values.Soundness
/-! # Instructions at any depth

Where a block has been walked through, so has every instruction in it, at any depth. A jump that is met on the way is not
forgotten up to the end of the block. So a loop, a block with bytes set aside and a block with a pointer have no jump in them,
at any depth, since the jumps met are looked at where such a block ends. What may not stand in a block without interrupts is
looked for among its own instructions only. -/

namespace CheckedAsm

open Focus List

/-- Whether no jump may stand in the instruction, at any depth. -/
def Instr.refusesGotos : Instr → Bool
  | .loop .. | .save .. | .pointInto .. => true
  | _ => false

variable {s : Setting} {i : Instr} {b : Block} {t t' : Trail}

/-- A block in an instruction that was walked through has been walked through, and the jumps met in it are still known. -/
theorem Instr.walk_block (hw : i.walk s t = .ok t') (hb : b ∈ i.blocks) :
    ∃ t1 t2, b.walk s t1 = .ok t2 ∧ t2.cx.gotos ⊆ t'.cx.gotos := by
  cases Instr.walked hw with
  | op | reset | call | goto => cases hb
  | ifThen yes h1 hm =>
    obtain rfl := mem_singleton.1 hb
    exact ⟨_, _, h1, (merge_gotos hm).1⟩
  | ifElse yes no h1 h2 hm =>
    simp only [Instr.blocks, mem_cons, not_mem_nil, or_false] at hb
    rcases hb with rfl | rfl
    · exact ⟨_, _, h1, (merge_gotos hm).1⟩
    · exact ⟨_, _, h2, (merge_gotos hm).2⟩
  | loop body _ _ _ h2 =>
    obtain rfl := mem_singleton.1 hb
    exact ⟨_, _, h2, List.Subset.refl _⟩
  | count body _ _ h2 hleave =>
    obtain rfl := mem_singleton.1 hb
    obtain rfl := leaveCount_ok hleave
    exact ⟨_, _, h2, List.Subset.refl _⟩
  | interruptsOff body h =>
    obtain rfl := mem_singleton.1 hb
    exact ⟨_, _, h, List.Subset.refl _⟩
  | save body _ h1 =>
    obtain rfl := mem_singleton.1 hb
    exact ⟨_, _, h1, by simp [Trail.withContext, gotos_restore]⟩
  | pointInto body _ h1 =>
    obtain rfl := mem_singleton.1 hb
    exact ⟨_, _, h1, List.Subset.refl _⟩

/-- An instruction in a block that was walked through has been walked through, and the jumps met in it are still known. -/
theorem Block.walk_contained (h : b.walk s t = .ok t') (hi : b.Contains i) :
    ∃ t1 t2, i.walk s t1 = .ok t2 ∧ t2.cx.gotos ⊆ t'.cx.gotos := by
  induction hi generalizing t t' with
  | @head i tail =>
    obtain ⟨t1, h1, h2⟩ := bind_eq_ok.1 h
    exact ⟨t, t1, h1, (tail.walk_keeps s h2).gotos⟩
  | tail hi ih =>
    obtain ⟨t1, -, h2⟩ := bind_eq_ok.1 h
    exact ih h2
  | @inside head i tail b hb hi ih =>
    obtain ⟨t1, h1, h2⟩ := bind_eq_ok.1 h
    obtain ⟨t3, t4, h3, hgotos⟩ := head.walk_block h1 hb
    obtain ⟨t5, t6, h5, hgotos'⟩ := ih h3
    exact ⟨t5, t6, h5, fun r hr => (tail.walk_keeps s h2).gotos (hgotos (hgotos' hr))⟩

/-- A jump in a block is known at its end. -/
theorem Block.gotos_ne_nil {line : Nat} {target : String} (h : b.walk s t = .ok t') (hi : b.Contains (.goto line target)) :
    t'.cx.gotos ≠ [] := by
  obtain ⟨t1, t2, hjump, hgotos⟩ := b.walk_contained h hi
  obtain ⟨_, _, _, -, -, -, -, -, -, hmet⟩ := jump_values hjump
  have hmem : Ref.location target ∈ t2.cx.gotos := hmet ▸ subset_gotos_meetGotos (mem_singleton_self _)
  exact ne_nil_of_mem (hgotos hmem)

/-- Where no jump may stand there is none, at any depth. -/
theorem Instr.no_goto {line : Nat} {target : String} (hw : i.walk s t = .ok t') (hi : i.refusesGotos = true)
    (hb : b ∈ i.blocks) : ¬ b.Contains (.goto line target) := by
  intro hgoto
  cases Instr.walked hw with
  | loop body h1 _ hnone | save body _ h1 hnone | pointInto body _ h1 hnone =>
    obtain rfl := mem_singleton.1 hb
    exact b.gotos_ne_nil h1 hgoto (refuseGotos_ok hnone)
  | _ => cases hi

mutual

theorem Instr.goto_of_not_jumpFree : ∀ (i : Instr), i.isJumpFree = false →
    (∃ line target, i = .goto line target) ∨ ∃ b ∈ i.blocks, ∃ line target, b.Contains (.goto line target)
  | .goto line target, _ => .inl ⟨line, target, rfl⟩
  | .ifElse _ _ _ yes no, h => by
    simp only [Instr.isJumpFree, Bool.and_eq_false_iff] at h
    rcases h with h | h
    · exact .inr ⟨yes, mem_cons_self, yes.goto_of_not_jumpFree h⟩
    · exact .inr ⟨no, mem_cons_of_mem _ (mem_singleton_self no), no.goto_of_not_jumpFree h⟩
  | .ifThen _ _ _ body, h | .loop _ _ _ body, h | .count _ _ _ _ body, h | .interruptsOff _ body, h | .save _ _ body, h
  | .pointInto _ _ _ body, h => .inr ⟨body, mem_singleton_self body, body.goto_of_not_jumpFree h⟩

theorem Block.goto_of_not_jumpFree : ∀ (b : Block), b.isJumpFree = false → ∃ line target, b.Contains (.goto line target)
  | .cons head tail, h => by
    simp only [Block.isJumpFree, Bool.and_eq_false_iff] at h
    rcases h with h | h
    · rcases head.goto_of_not_jumpFree h with ⟨line, target, rfl⟩ | ⟨b, hb, line, target, hin⟩
      · exact ⟨line, target, .head⟩
      · exact ⟨line, target, .inside hb hin⟩
    · obtain ⟨line, target, hin⟩ := tail.goto_of_not_jumpFree h
      exact ⟨line, target, .tail hin⟩

end

theorem Instr.jumpFree_of_refusesGotos (h : i.walk s t = .ok t') (hi : i.refusesGotos = true) (hb : b ∈ i.blocks) :
    b.isJumpFree = true := by
  by_contra hjump
  obtain ⟨line, target, hin⟩ := b.goto_of_not_jumpFree (Bool.eq_false_iff.2 hjump)
  exact i.no_goto h hi hb hin

/-- None of the instructions that a block without interrupts is made of leaves it with the interrupts off. -/
theorem Block.walkInterruptsOff_instrs (s : Setting) : ∀ (b : Block) {t t' : Trail}, b.walkInterruptsOff s t = .ok t' →
    ∀ i ∈ b.instrs, i.leavesInterruptsOff = false
  | .nil _, t, t', _ => by simp [Block.instrs]
  | .cons head tail, t, t', h => by
    simp only [Block.walkInterruptsOff, guard_eq_ok, bind_eq_ok] at h
    obtain ⟨hhead, t1, -, h2⟩ := h
    exact forall_mem_cons.2 ⟨Bool.not_eq_true _ ▸ hhead, tail.walkInterruptsOff_instrs s h2⟩

/-- All instructions of an accepted program have been walked through. -/
theorem Program.walk_contained {symbols : Symbols} {p : Program} {all : List Analysed} {r : Routine} {body : Block}
    (h : (p.analyse symbols).2 = .ok all) (hr : r ∈ p.routines) (hbody : r.body = some body) (hi : body.Contains i) :
    ∃ t t', i.walk (r.setting symbols) t = .ok t' := by
  obtain ⟨facts, hfacts⟩ := Program.analyse_ok h hr
  obtain ⟨sig, t, -, hwalk, -⟩ := Routine.analyse_ok hfacts hbody
  simp only [Routine.walk, bind_eq_ok] at hwalk
  obtain ⟨cx0, -, cx1, -, hwalk⟩ := hwalk
  obtain ⟨t1, t2, hi, -⟩ := body.walk_contained hwalk hi
  exact ⟨t1, t2, hi⟩

end CheckedAsm
