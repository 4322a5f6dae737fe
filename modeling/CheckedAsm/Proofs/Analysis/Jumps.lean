import CheckedAsm.Proofs.Ranges.Representation
import CheckedAsm.Proofs.Values.Routines
/-! # Where jumps are refused

Where a loop, a block with bytes set aside or a block with a pointer ends, the analysis asks whether a jump was met. What
counts are all jumps met in the routine so far, not those in the block. So a block without jumps passes just if none comes
before it, and is refused if one was met, say in a choice that stands before the block. -/

namespace CheckedAsm

open Context Focus

/-- Whether the instruction walks through its block twice. -/
def Instr.repeats : Instr → Bool
  | .loop .. | .count .. => true
  | _ => false

/-- A walk through the block may come to the first instruction before it comes to the second: it stands further up, or both
stand in one loop. -/
inductive Block.Precedes (first second : Instr) : Block → Prop
  | above {head tail line} : (cons head (nil line)).Contains first → tail.Contains second → Precedes first second (cons head tail)
  | further {head tail} : tail.Precedes first second → Precedes first second (cons head tail)
  | inside {head tail b} : b ∈ head.blocks → b.Precedes first second → Precedes first second (cons head tail)
  | again {head tail b} : head.repeats = true → b ∈ head.blocks → b.Contains first → b.Contains second →
      Precedes first second (cons head tail)

variable {s : Setting} {i : Instr} {b : Block} {t t' : Trail}

/-- A jump that was met in the end is in the block, or had been met before. -/
theorem Block.met_jump (h : b.walk s t = .ok t') (hmet : t'.cx.gotos ≠ []) :
    t.cx.gotos ≠ [] ∨ ∃ line target, b.Contains (.goto line target) := by
  cases hfree : b.isJumpFree with
  | true => exact .inl fun hnil => hmet (List.eq_nil_of_subset_nil (hnil ▸ (b.walk_jumpFree s h hfree).gotos))
  | false => exact .inr (b.goto_of_not_jumpFree hfree)

/-- A walk through a block begins with the jumps met before its instruction, or after a first walk through the block. -/
theorem Instr.Begins.gotos (h : i.Begins s t b t') :
    t'.cx.gotos = t.cx.gotos ∨ i.repeats = true ∧ ∃ t1, t1.cx.gotos = t.cx.gotos ∧ b.walk s t1 = .ok t' := by
  have hcount {f : Focus} {cx cx' : Context} {d : Ref} {dir : Direction} {final : Const}
      (h : f.enterCount cx d dir final = .ok cx') : cx'.gotos = cx.gotos := by
    obtain ⟨range, inside, -, -, -, rfl⟩ := enterCount_ok h
    rfl
  cases h with
  | ifThen | ifElse | otherwise | loop | interruptsOff => exact .inl rfl
  | again h1 => exact .inr ⟨rfl, t, rfl, h1⟩
  | count henter => exact .inl (hcount henter)
  | countAgain henter h1 => exact .inr ⟨rfl, _, hcount henter, h1⟩
  | save hset => exact .inl (assoc_setAside hset).2
  | pointInto henter =>
    obtain ⟨-, -, -, rfl⟩ := enterPoint_ok henter
    exact .inl rfl

/-- A jump that was met when a walk came to an instruction stands before it, or had been met before the walk. -/
theorem Block.Reaches.met_jump {b' rest : Block} (h : b.Reaches s t b' t') (hb : b' = .cons i rest) (hmet : t'.cx.gotos ≠ []) :
    t.cx.gotos ≠ [] ∨ ∃ line target, b.Precedes (.goto line target) i := by
  induction h with
  | here => exact .inl hmet
  | @past head _ _ _ _ _ hw hreach ih =>
    rcases ih hb hmet with hmet | ⟨line, target, hp⟩
    · have hwalk : (Block.cons head (.nil 0)).walk s _ = .ok _ := bind_eq_ok.2 ⟨_, hw, rfl⟩
      exact (Block.met_jump hwalk hmet).imp_right fun ⟨line, target, hgoto⟩ =>
        ⟨line, target, .above hgoto (hreach.contains hb)⟩
    · exact .inr ⟨line, target, .further hp⟩
  | inside hbegins hreach ih =>
    rcases ih hb hmet with hmet | ⟨line, target, hp⟩
    · obtain heq | ⟨hrepeats, t1, heq, hw⟩ := hbegins.gotos
      · exact .inl (heq ▸ hmet)
      · exact heq ▸ (Block.met_jump hw hmet).imp_right fun ⟨line, target, hgoto⟩ =>
          ⟨line, target, .again hrepeats hbegins.mem_blocks hgoto (hreach.contains hb)⟩
    · exact .inr ⟨line, target, .inside hbegins.mem_blocks hp⟩

/-- Wherever the analysis of a routine comes to a loop, to a block with bytes set aside or to a block with a pointer, and there
is no jump in it at any depth: the block, once it was walked through, passes the question for jumps just if none had been met
when the analysis came there; and one that had been met stands before the instruction. -/
theorem Routine.jumpFree_passes_iff (symbols : Symbols) (r : Routine) (body rest b : Block) (i : Instr) (t t1 t2 : Trail)
    (hbody : r.body = some body) (hcomes : r.Comes symbols (.cons i rest) t)
    (hfree : ∀ line target, ¬ b.Contains (.goto line target)) (hbegins : i.Begins (r.setting symbols) t b t1)
    (hwalk : b.walk (r.setting symbols) t1 = .ok t2) :
    (Focus.refuseGotos ⟨r.setting symbols, i⟩ t2.cx = .ok () ↔ t.cx.gotos = [])
      ∧ (t.cx.gotos ≠ [] → ∃ line target, body.Precedes (.goto line target) i) := by
  have hnone {t t' : Trail} (h : b.walk (r.setting symbols) t = .ok t') : t'.cx.gotos = [] ↔ t.cx.gotos = [] := by
    refine ⟨fun hnil => List.eq_nil_of_subset_nil (hnil ▸ (b.walk_keeps _ h).gotos), fun hnil => ?_⟩
    by_contra hmet
    exact (Block.met_jump h hmet).elim (· hnil) fun ⟨line, target, hgoto⟩ => hfree line target hgoto
  have hfirst : t1.cx.gotos = [] ↔ t.cx.gotos = [] := by
    obtain heq | ⟨-, t0, heq, hw⟩ := hbegins.gotos
    · rw [heq]
    · rw [← heq]
      exact hnone hw
  refine ⟨⟨fun hpass => hfirst.1 ((hnone hwalk).1 (refuseGotos_ok hpass)), fun hnil => ?_⟩, fun hmet => ?_⟩
  · simp [Focus.refuseGotos, (hnone hwalk).2 (hfirst.2 hnil)]
  · obtain ⟨sig, body', cx0, cx, -, hbody', hstart, hstatics, hreach⟩ := hcomes
    obtain rfl : body' = body := Option.some.inj (hbody'.symm.trans hbody)
    obtain ⟨-, -, -, hnil, -⟩ := start_values hstart
    exact (hreach.met_jump rfl hmet).resolve_left fun h => h ((startStatics_values hstatics).1.gotos.trans hnil)

/-- A loop after a choice with a jump in it. -/
def loopAfterChoice : Routine :=
  ⟨0, "main", none, [], some (.cons (.ifThen 0 .c false (.cons (.goto 0 "bar") (.nil 0)))
    (.cons (.loop 0 none false (.cons (.op 0 (.trash .x)) (.nil 0))) (.nil 0))), false⟩

/-- There is no jump in the loop, and it is refused for the jump before. -/
theorem loopAfterChoice_refused : ∃ (i : Instr) (t t2 : Trail) (body : Block) (line : Nat) (target : String),
    Focus.refuseGotos ⟨loopAfterChoice.setting Routine.jumpingSymbols, i⟩ t2.cx ≠ .ok () ∧ t.cx.gotos = [.location "bar"]
      ∧ loopAfterChoice.body = some body ∧ body.Precedes (.goto line target) i := by
  let s := loopAfterChoice.setting Routine.jumpingSymbols
  let inner : Block := .cons (.op 0 (.trash .x)) (.nil 0)
  have hsteps : ∃ sig cx0 cx t t2, Routine.jumpingSymbols.globalType? "main" = some (.routine sig)
      ∧ Context.ofSignature s sig = .ok cx0 ∧ Routine.startStatics s cx0 = .ok cx
      ∧ Instr.walk s { cx } (.ifThen 0 .c false (.cons (.goto 0 "bar") (.nil 0))) = .ok t ∧ t.cx.gotos = [.location "bar"]
      ∧ inner.walk s t = .ok t2 :=
    ⟨_, _, _, _, _, rfl, rfl, rfl, rfl, rfl, rfl⟩
  obtain ⟨sig, cx0, cx, t, t2, hsig, hstart, hstatics, hchoice, hmet, hwalk⟩ := hsteps
  have hfree : ∀ line target, ¬ inner.Contains (.goto line target) := by
    intro line target hin
    obtain _ | ⟨⟨⟩⟩ | ⟨⟨⟩⟩ : (Block.cons _ (.nil 0)).Contains _ := hin
  have hpass := Routine.jumpFree_passes_iff Routine.jumpingSymbols loopAfterChoice _ (.nil 0) inner (.loop 0 none false inner) t _ t2
    rfl ⟨sig, _, cx0, cx, hsig, rfl, hstart, hstatics, .past hchoice .here⟩ hfree .loop hwalk
  obtain ⟨line, target, hprecedes⟩ := hpass.2 (by simp [hmet])
  exact ⟨_, t, t2, _, line, target, fun hok => by simp [hpass.1.1 hok] at hmet, hmet, rfl, hprecedes⟩

/-- The routine is reported for an illegal jump, and it is the loop without jumps that the report names. -/
theorem loopAfterChoice_illegal : (loopAfterChoice.analyse Routine.jumpingSymbols).2
    = .error (Focus.reject ⟨loopAfterChoice.setting Routine.jumpingSymbols, .loop 0 none false (.cons (.op 0 (.trash .x)) (.nil 0))⟩
        .illegalJump (.instr (.loop 0 none false (.cons (.op 0 (.trash .x)) (.nil 0))))) := rfl

end CheckedAsm
