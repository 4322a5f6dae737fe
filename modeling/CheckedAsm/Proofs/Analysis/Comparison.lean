import CheckedAsm.Proofs.Analysis.Alike
/-! # Walks side by side

What holds of single operations in alike contexts holds of whole blocks. The second of two blocks may be the first one with choices
turned round, as long as it does not matter which of two jumps comes last. Or the second context may have values that the first one
lacks, as long as no branch that ends in a jump loses one that the other branch sets. -/

namespace CheckedAsm

open Context Focus

variable {s : Setting} {b b' : Block} {t t' t1 : Trail}

/-! ### Turned choices -/

/-- From one context the two blocks lead to contexts with the same ranges and with the same locations touched. -/
def Block.EndsAlike (s : Setting) (b b' : Block) : Prop :=
  ∀ t t' t1 t1', t.cx.writeable.Nodup → t'.cx = t.cx → b.walk s t = .ok t1 → b'.walk s t' = .ok t1' →
    (∀ r, t1'.cx.range? r = t1.cx.range? r) ∧ ∀ r, r ∈ t1.cx.touched ↔ r ∈ t1'.cx.touched

mutual

/-- The second instruction is the first one with choices in it turned round: the test is the opposite one, and the branches have changed
places. If both branches of such a choice end in jumps, then they end alike. -/
inductive Instr.Turned (s : Setting) : Instr → Instr → Prop
  | leaf {i} : i.blocks = [] → Instr.Turned s i i
  | ifThen {line src inv yes yes'} : Block.Turned s yes yes' →
    Instr.Turned s (.ifThen line src inv yes) (.ifThen line src inv yes')
  | ifElse {line src inv yes no yes' no'} : Block.Turned s yes yes' → Block.Turned s no no' →
    Instr.Turned s (.ifElse line src inv yes no) (.ifElse line src inv yes' no')
  | turn {line src inv inv' yes no yes' no'} : Block.Turned s yes yes' → Block.Turned s no no' →
    inv' = !inv → (yes.closes false = true → no.closes false = true → yes.EndsAlike s no) →
    Instr.Turned s (.ifElse line src inv yes no) (.ifElse line src inv' no' yes')
  | loop {line src inv body body'} : Block.Turned s body body' →
    Instr.Turned s (.loop line src inv body) (.loop line src inv body')
  | count {line d dir final body body'} : Block.Turned s body body' →
    Instr.Turned s (.count line d dir final body) (.count line d dir final body')
  | interruptsOff {line body body'} : Block.Turned s body body' →
    Instr.Turned s (.interruptsOff line body) (.interruptsOff line body')
  | save {line rs body body'} : Block.Turned s body body' →
    Instr.Turned s (.save line rs body) (.save line rs body')
  | pointInto {line pointer table body body'} : Block.Turned s body body' →
    Instr.Turned s (.pointInto line pointer table body) (.pointInto line pointer table body')

/-- The second block is the first one with choices in it turned round. -/
inductive Block.Turned (s : Setting) : Block → Block → Prop
  | nil (line : Nat) : Block.Turned s (.nil line) (.nil line)
  | cons {head head' tail tail'} : Instr.Turned s head head' → Block.Turned s tail tail' →
    Block.Turned s (.cons head tail) (.cons head' tail')

end

section

mutual

theorem Instr.Turned.refl : ∀ i : Instr, i.Turned s i
  | .op .. | .call .. | .goto .. | .reset .. => .leaf rfl
  | .ifThen _ _ _ yes => .ifThen (.refl yes)
  | .ifElse _ _ _ yes no => .ifElse (.refl yes) (.refl no)
  | .loop _ _ _ body => .loop (.refl body)
  | .count _ _ _ _ body => .count (.refl body)
  | .interruptsOff _ body => .interruptsOff (.refl body)
  | .save _ _ body => .save (.refl body)
  | .pointInto _ _ _ body => .pointInto (.refl body)

theorem Block.Turned.refl : ∀ b : Block, b.Turned s b
  | .nil line => .nil line
  | .cons head tail => .cons (.refl head) (.refl tail)

end

mutual

theorem Instr.Turned.closes : ∀ {i i' : Instr}, i.Turned s i' → ∀ c, i'.closes c = i.closes c
  | _, _, .leaf _, _ => rfl
  | _, _, .ifThen h, c => by rw [Instr.closes, Instr.closes, h.closes]
  | _, _, .ifElse h1 h2, c => by rw [Instr.closes, Instr.closes, h1.closes, h2.closes]
  | .ifElse _ _ _ yes no, _, .turn h1 h2 _ _, c => by
    rw [Instr.closes, Instr.closes, h1.closes, h2.closes]
    cases yes.closes false <;> cases no.closes false <;> rfl
  | _, _, .loop h, c | _, _, .count h, c => by rw [Instr.closes, Instr.closes, h.closes, h.closes]
  | _, _, .interruptsOff h, c | _, _, .save h, c | _, _, .pointInto h, c => by rw [Instr.closes, Instr.closes, h.closes]

theorem Block.Turned.closes : ∀ {b b' : Block}, b.Turned s b' → ∀ c, b'.closes c = b.closes c
  | _, _, .nil _, _ => rfl
  | _, _, .cons h1 h2, c => by rw [Block.closes, Block.closes, h1.closes, h2.closes]

end

end

/-! ### Extra values -/

/-- Some walk through the block takes the value from the location. -/
def Block.Loses (s : Setting) (b : Block) (r : Ref) : Prop :=
  ∃ t t', b.walk s t = .ok t' ∧ t.cx.isMeaningful r = true ∧ t'.cx.isMeaningful r = false

/-- Some walk through the block gives the location a value. -/
def Block.Gains (s : Setting) (b : Block) (r : Ref) : Prop :=
  ∃ t t', b.walk s t = .ok t' ∧ t.cx.isMeaningful r = false ∧ t'.cx.isMeaningful r = true

/-- The location is not lost on a branch that ends in a jump while it is set on the other one. -/
def Harmless (s : Setting) (yes no : Block) (r : Ref) : Prop :=
  (yes.closes false = true → yes.Loses s r → ¬ no.Gains s r) ∧ (no.closes false = true → no.Loses s r → ¬ yes.Gains s r)

/-- The locations do no harm in any choice of the block, at any depth. -/
def Block.Clear (s : Setting) (extra : Set Ref) (b : Block) : Prop :=
  ∀ line src inv yes no, b.Contains (.ifElse line src inv yes no) → ∀ r ∈ extra, Harmless s yes no r

/-- If there are extra locations, then the second block is the first one, and they do no harm in it. -/
def Block.Kept (s : Setting) (extra : Set Ref) (b b' : Block) : Prop := extra.Nonempty → b' = b ∧ b.Clear s extra

/-- If there are extra locations, then the second instruction is the first one, and they do no harm in it. -/
def Instr.Kept (s : Setting) (extra : Set Ref) (i i' : Instr) : Prop :=
  extra.Nonempty → i' = i ∧ (Block.cons i (.nil 0)).Clear s extra

section

variable {extra : Set Ref} {i i' head head' : Instr} {tail tail' : Block}

theorem Block.Kept.empty : b.Kept s ∅ b' := fun ⟨_, hr⟩ => absurd hr id

theorem Instr.Kept.block (h : i.Kept s extra i') (hb : i.blocks = [b]) (hb' : i'.blocks = [b']) : b.Kept s extra b' := by
  intro hne
  obtain ⟨rfl, hclear⟩ := h hne
  cases hb.symm.trans hb'
  exact ⟨rfl, fun line src inv yes no hin => hclear line src inv yes no (.inside (hb ▸ List.mem_singleton_self b) hin)⟩

theorem Instr.Kept.branches {line line' : Nat} {src src' : Ref} {inv inv' : Bool} {yes no yes' no' : Block}
    (h : (Instr.ifElse line src inv yes no).Kept s extra (.ifElse line' src' inv' yes' no')) :
    yes.Kept s extra yes' ∧ no.Kept s extra no' ∧ ∀ r ∈ extra, inv' = inv ∧ yes' = yes ∧ no' = no ∧ Harmless s yes no r := by
  refine ⟨fun hne => ?_, fun hne => ?_, fun r hr => ?_⟩
  · obtain ⟨⟨⟩, hclear⟩ := h hne
    exact ⟨rfl, fun line src inv yes no hin => hclear line src inv yes no (.inside List.mem_cons_self hin)⟩
  · obtain ⟨⟨⟩, hclear⟩ := h hne
    exact ⟨rfl, fun line src inv yes no hin => hclear line src inv yes no
      (.inside (List.mem_cons_of_mem _ (List.mem_singleton_self _)) hin)⟩
  · obtain ⟨⟨⟩, hclear⟩ := h ⟨r, hr⟩
    exact ⟨rfl, rfl, rfl, hclear _ _ _ _ _ .head r hr⟩

theorem Block.Kept.parts (h : (Block.cons head tail).Kept s extra (.cons head' tail')) :
    head.Kept s extra head' ∧ tail.Kept s extra tail' := by
  refine ⟨fun hne => ?_, fun hne => ?_⟩
  · obtain ⟨⟨⟩, hclear⟩ := h hne
    refine ⟨rfl, fun line src inv yes no hin => hclear line src inv yes no ?_⟩
    cases hin with
    | head => exact .head
    | tail hin => cases hin
    | inside hb hin => exact .inside hb hin
  · obtain ⟨⟨⟩, hclear⟩ := h hne
    exact ⟨rfl, fun line src inv yes no hin => hclear line src inv yes no (.tail hin)⟩

end

/-! ### Walks -/

section

variable {w : Leeway} {t1' : Trail} {exits : List Context}

/-- After another walk, whose exits are still there. -/
theorem Trail.Alike.andThen {x y : Except Fault Trail} (h1 : Trail.Alike s w exits t1 t1') (h : w.Meets (Trail.Alike s w t1.exits) x y)
    (hexits : ∀ t', y = .ok t' → t1'.exits ⊆ t'.exits) : w.Meets (Trail.Alike s w exits) x y := by
  refine h.mono fun t2 t2' _ h2' h2 => ⟨h2.cx, fun e he => ?_⟩
  rcases h2.exits e he with he | he
  · exact (h1.exits e he).imp id fun ⟨e', he', halike⟩ => ⟨e', hexits t2' h2' he', halike⟩
  · exact .inr he

theorem Trail.Alike.walk (h1 : Trail.Alike s w exits t1 t1') (h : w.Meets (Trail.Alike s w t1.exits) (b.walk s t) (b'.walk s t'))
    (hexits : t'.exits = t1'.exits) : w.Meets (Trail.Alike s w exits) (b.walk s t) (b'.walk s t') :=
  h1.andThen h fun _ h' => hexits ▸ (b'.walk_keeps s h').exits

end

theorem Instr.Turned.leavesInterruptsOff {i i' : Instr} (h : i.Turned s i') : i'.leavesInterruptsOff = i.leavesInterruptsOff := by
  cases h <;> rfl

mutual

/-- Two walks through an instruction from alike contexts. -/
theorem Instr.walk_meets (s : Setting) {extra : Set Ref} : ∀ (i : Instr) {i' : Instr}, i.Turned s i' → i.Kept s extra i' →
    ∀ {w : Leeway}, w.extra ⊆ extra → ∀ {t t' : Trail}, Context.Alike s w t.cx t'.cx →
    w.Meets (Trail.Alike s w t.exits) (i.walk s t) (i'.walk s t')
  | .op line op, _, .leaf _, _, w, _, t, t', h => by
    simp only [Instr.walk]
    exact .map (single_meets h _) fun cx cx' h => ⟨h, fun e he => .inl he⟩
  | .call line target, _, .leaf _, _, w, _, t, t', h => by
    simp only [Instr.walk]
    exact call_meets h target
  | .goto line target, _, .leaf _, _, w, _, t, t', h => by
    simp only [Instr.walk]
    exact jump_meets h target
  | .reset line pointer offset, _, .leaf _, _, w, _, t, t', h => by
    simp only [Instr.walk]
    exact .map (reset_meets h _ _) fun cx cx' h => ⟨h, fun e he => .inl he⟩
  | .ifThen line src inv yes, _, .ifThen hyes, hkept, w, hextra, t, t', h => by
    have hsub : (w.narrow t.cx t'.cx).extra ⊆ extra := fun r hr => hextra (Leeway.mem_extra_narrow hr).1
    simp only [Instr.walk]
    refine .of_narrow t.cx t'.cx (.bind (yes.walk_meets s hyes (hkept.block rfl rfl) hsub h.narrow.branch) fun t1 t1' h1 => ?_)
    refine .bind (merge_meets h.narrow h1.cx h.narrow.branch (fun r hr => (Leeway.mem_extra_narrow hr).2) (fun r hr _ hheld => ?_)
      nofun) fun cx cx' hcx => .ok ⟨hcx, h1.exits⟩
    -- An extra location has no value before the choice, nor where the choice does nothing.
    exact absurd hheld (Bool.eq_false_iff.1 (Leeway.mem_extra_narrow hr).2.1)
  | .ifElse line src inv yes no, .ifElse _ _ _ yes' no', .ifElse hyes hno, hkept, w, hextra, t, t', h => by
    obtain ⟨hkept1, hkept2, hharmless⟩ := hkept.branches
    have hsub : (w.narrow t.cx t'.cx).extra ⊆ extra := fun r hr => hextra (Leeway.mem_extra_narrow hr).1
    simp only [Instr.walk]
    refine .of_narrow t.cx t'.cx (.bind (yes.walk_meets s hyes hkept1 hsub h.narrow.branch).facts fun t1 t1' ⟨hrun1, hrun1', h1⟩ => ?_)
    have hwalk2 : (w.narrow t.cx t'.cx).Meets (Trail.Alike s _ t1.exits) (no.walk s (t1.withContext t.cx.branch))
      (no'.walk s (t1'.withContext t'.cx.branch)) := no.walk_meets s hno hkept2 hsub h.narrow.branch
    refine .bind (h1.walk hwalk2 rfl).facts fun t2 t2' ⟨hrun2, hrun2', h2⟩ => ?_
    refine .bind (merge_meets h.narrow h1.cx h2.cx (fun r hr => (Leeway.mem_extra_narrow hr).2) (fun r hr hend hheld => ?_)
      fun r hr hend hheld => ?_) fun cx cx' hcx => .ok ⟨hcx, h2.exits⟩
    · obtain ⟨-, hlacks, hholds⟩ := Leeway.mem_extra_narrow hr
      obtain ⟨-, rfl, rfl, hclosing, -⟩ := hharmless r (hsub hr)
      by_contra hlost
      exact hclosing ((Block.walk_closes s _ hrun1).symm.trans hend) ⟨_, t1', hrun1', hholds, Bool.eq_false_iff.2 hlost⟩
        ⟨_, t2, hrun2, hlacks, hheld⟩
    · obtain ⟨-, hlacks, hholds⟩ := Leeway.mem_extra_narrow hr
      obtain ⟨-, rfl, rfl, -, hclosing⟩ := hharmless r (hsub hr)
      by_contra hlost
      exact hclosing ((Block.walk_closes s _ hrun2).symm.trans hend) ⟨_, t2', hrun2', hholds, Bool.eq_false_iff.2 hlost⟩
        ⟨_, t1, hrun1, hlacks, hheld⟩
  | .ifElse line src inv yes no, .ifElse _ _ inv' no' yes', .turn hyes hno hinv hends, hkept, w, hextra, t, t', h => by
    have hempty : ¬ extra.Nonempty := by
      rintro ⟨r, hr⟩
      exact Bool.not_ne_self inv (hinv.symm.trans (hkept.branches.2.2 r hr).1)
    have hnone : ∀ {r}, r ∉ w.extra := fun hr => hempty ⟨_, hextra hr⟩
    intro t3 hrun
    simp only [Instr.walk, bind_eq_ok, pure_eq_ok] at hrun
    obtain ⟨t1, hrun1, t2, hrun2, cx, hm, rfl⟩ := hrun
    -- The first walk does not hang on which branch comes first.
    have hw1 := (yes.walk_orderly s hrun1).writeable h.nodup.1
    have hw2 := (no.walk_orderly s hrun2).writeable h.nodup.1
    have hsame : t1.cx.terminated = true → t2.cx.terminated = true → Context.Alike s .exact (t.cx.updateFrom t2.cx) (t.cx.updateFrom t1.cx) := by
      intro hend1 hend2
      obtain ⟨hranges, htouched⟩ := hends ((yes.walk_closes s hrun1).symm.trans hend1) ((no.walk_closes s hrun2).symm.trans hend2)
        (t.withContext t.cx.branch) (t1.withContext t.cx.branch) t1 t2 h.nodup.1 rfl hrun1 hrun2
      exact ⟨fun r => (hranges r).symm, fun _ r => (htouched r).symm, ⟨hw2.1, hw1.1⟩, fun r => (hw2.2 r).trans (hw1.2 r).symm,
        hend1.trans hend2.symm, fun _ => .rfl, (yes.walk_keeps s hrun1).assoc.trans (no.walk_keeps s hrun2).assoc.symm⟩
    obtain ⟨cx0, hm0, hswap⟩ := (merge_swap hw1.1 hw2.1 hsame cx hm).resolve_right nofun
    have hturned : (do
        let u1 ← no.walk s (t1.withContext t.cx.branch)
        let u2 ← yes.walk s (t.withContext t.cx.branch)
        let cx ← Focus.merge s t.cx u1.cx u2.cx
        pure (u1, u2, cx)) = .ok (t2, t1, cx0) := by
      simp only [hrun1, hrun2, hm0, bind, Except.bind, pure, Except.pure]
    have hmeets : w.Meets (fun (p : Trail × Trail × Context) (t3' : Trail) => Context.Alike s w p.2.2 t3'.cx
        ∧ (∀ e ∈ p.1.exits, e ∈ t1.exits ∨ ∃ e' ∈ t3'.exits, Context.Alike s w e e')
        ∧ ∀ e ∈ p.2.1.exits, e ∈ t.exits ∨ ∃ e' ∈ t3'.exits, Context.Alike s w e e') (do
        let u1 ← no.walk s (t1.withContext t.cx.branch)
        let u2 ← yes.walk s (t.withContext t.cx.branch)
        let cx ← Focus.merge s t.cx u1.cx u2.cx
        pure (u1, u2, cx)) ((Instr.ifElse line src inv' no' yes').walk s t') := by
      simp only [Instr.walk]
      have hwalk1 : w.Meets (Trail.Alike s w t1.exits) (no.walk s (t1.withContext t.cx.branch)) (no'.walk s (t'.withContext t'.cx.branch)) :=
        no.walk_meets s hno (fun hne => absurd hne hempty) hextra h.branch
      refine .bind hwalk1 fun u1 u1' h1 => ?_
      have hwalk2 : w.Meets (Trail.Alike s w t.exits) (yes.walk s (t.withContext t.cx.branch)) (yes'.walk s (u1'.withContext t'.cx.branch)) :=
        yes.walk_meets s hyes (fun hne => absurd hne hempty) hextra h.branch
      refine .bind hwalk2.facts fun u2 u2' ⟨_, hrun2', h2⟩ => ?_
      refine .bind (merge_meets h h1.cx h2.cx (fun r hr => absurd hr hnone) (fun r hr => absurd hr hnone) fun r hr => absurd hr hnone)
        fun cx cx' hcx => .ok ⟨hcx, fun e he => (h1.exits e he).imp id ?_, h2.exits⟩
      exact fun ⟨e', he', halike⟩ => ⟨e', (yes'.walk_keeps s hrun2').exits he', halike⟩
    rcases hmeets _ hturned with ⟨t3', hrun', halike, hexits2, hexits1⟩ | hfault
    · refine .inl ⟨t3', hrun', hswap.trans halike, fun e he => ?_⟩
      rcases hexits2 e he with he | he
      · exact hexits1 e he
      · exact .inr he
    · exact .inr hfault
  | .loop line src inv body, _, .loop hbody, hkept, w, hextra, t, t', h => by
    have hkept := hkept.block rfl rfl
    simp only [Instr.walk]
    refine .bind (body.walk_meets s hbody hkept hextra h) fun t1 t1' h1 => .check (h1.cx.assertTest src) ?_
    refine .check (refuseGotos_meets h1.cx) (.bind (h1.walk (body.walk_meets s hbody hkept hextra h1.cx) rfl) fun t2 t2' h2 => ?_)
    exact .check (h2.cx.assertTest src) (.ok h2)
  | .count line d dir final body, _, .count hbody, hkept, w, hextra, t, t', h => by
    have hkept := hkept.block rfl rfl
    simp only [Instr.walk]
    refine .bind (enterCount_meets h d dir final) fun cx cx' hin => ?_
    refine .bind (body.walk_meets s hbody hkept hextra hin) fun t1 t1' h1 => ?_
    refine .bind (h1.walk (body.walk_meets s hbody hkept hextra h1.cx) rfl) fun t2 t2' h2 => ?_
    exact .map (leaveCount_meets h2.cx d final) fun cx cx' hout => ⟨hout, h2.exits⟩
  | .interruptsOff line body, _, .interruptsOff hbody, hkept, w, hextra, t, t', h => by
    simp only [Instr.walk]
    exact body.walkInterruptsOff_meets s hbody (hkept.block rfl rfl) hextra h
  | .save line rs body, _, .save hbody, hkept, w, hextra, t, t', h => by
    simp only [Instr.walk]
    refine .bind (setAside_meets h rs).facts fun ⟨batons, cx⟩ ⟨batons', cx'⟩ ⟨hset, hset', hin⟩ => ?_
    refine .bind (body.walk_meets s hbody (hkept.block rfl rfl) hextra hin).facts fun t1 t1' ⟨hrun, hrun', h1⟩ => ?_
    have hrestored := restore_alike h h1.cx hset hset' (Block.walk_orderly s _ hrun) (Block.walk_orderly s _ hrun')
    exact .check (refuseGotos_meets h1.cx) (.ok ⟨hrestored, h1.exits⟩)
  | .pointInto line pointer table body, _, .pointInto hbody, hkept, w, hextra, t, t', h => by
    simp only [Instr.walk]
    refine .bind (enterPoint_meets h pointer table) fun cx cx' hin => ?_
    refine .bind (body.walk_meets s hbody (hkept.block rfl rfl) hextra hin) fun t1 t1' h1 => ?_
    exact .check (refuseGotos_meets h1.cx) (.ok ⟨(h1.cx.setAssoc pointer none).forget pointer, h1.exits⟩)

theorem Block.walk_meets (s : Setting) {extra : Set Ref} : ∀ (b : Block) {b' : Block}, b.Turned s b' → b.Kept s extra b' →
    ∀ {w : Leeway}, w.extra ⊆ extra → ∀ {t t' : Trail}, Context.Alike s w t.cx t'.cx →
    w.Meets (Trail.Alike s w t.exits) (b.walk s t) (b'.walk s t')
  | .nil _, _, .nil _, _, w, _, t, t', h => .ok ⟨h, fun e he => .inl he⟩
  | .cons head tail, _, .cons hhead htail, hkept, w, hextra, t, t', h => by
    simp only [Block.walk]
    refine .bind (head.walk_meets s hhead hkept.parts.1 hextra h) fun t1 t1' h1 => ?_
    exact h1.walk (tail.walk_meets s htail hkept.parts.2 hextra h1.cx) rfl

theorem Block.walkInterruptsOff_meets (s : Setting) {extra : Set Ref} : ∀ (b : Block) {b' : Block}, b.Turned s b' → b.Kept s extra b' →
    ∀ {w : Leeway}, w.extra ⊆ extra → ∀ {t t' : Trail}, Context.Alike s w t.cx t'.cx →
    w.Meets (Trail.Alike s w t.exits) (b.walkInterruptsOff s t) (b'.walkInterruptsOff s t')
  | .nil _, _, .nil _, _, w, _, t, t', h => .ok ⟨h, fun e he => .inl he⟩
  | .cons head tail, _, .cons hhead htail, hkept, w, hextra, t, t', h => by
    simp only [Block.walkInterruptsOff, hhead.leavesInterruptsOff]
    refine .guard fun _ => .bind (head.walk_meets s hhead hkept.parts.1 hextra h) fun t1 t1' h1 => ?_
    exact h1.andThen (tail.walkInterruptsOff_meets s htail hkept.parts.2 hextra h1.cx) fun t2' h2' =>
      (Block.walk_keeps s _ (Block.walk_of_interruptsOff s _ h2')).exits

end

/-! ### Turning back -/

section

/-- A block with turned choices leads where the block itself leads. -/
theorem Block.Turned.walk (h : b.Turned s b') (halike : Context.Alike s .exact t.cx t'.cx)
    (hrun : b.walk s t = .ok t1) : ∃ t1', b'.walk s t' = .ok t1' ∧ Trail.Alike s .exact t.exits t1 t1' := by
  rcases b.walk_meets s h .empty (Set.empty_subset _) halike t1 hrun with hmet | ⟨hlax, -⟩
  · exact hmet
  · cases hlax

mutual

theorem Instr.Turned.symm : ∀ {i i' : Instr}, i.Turned s i' → i'.Turned s i
  | _, _, .leaf h => .leaf h
  | _, _, .ifThen h => .ifThen h.symm
  | _, _, .ifElse h1 h2 => .ifElse h1.symm h2.symm
  | .ifElse _ _ _ yes no, .ifElse _ _ _ no' yes', .turn h1 h2 hinv hends => by
    refine .turn h2.symm h1.symm (by rw [hinv, Bool.not_not]) fun hno hyes t t' t1 t1' hw ht hrun1 hrun1' => ?_
    rw [h2.closes] at hno
    rw [h1.closes] at hyes
    obtain ⟨u1, hu1, halike1⟩ := h2.symm.walk (.refl hw) hrun1
    obtain ⟨u1', hu1', halike1'⟩ := h1.symm.walk (.refl (ht ▸ hw)) hrun1'
    obtain ⟨hranges, htouched⟩ := hends hyes hno t' t u1' u1 (ht ▸ hw) ht.symm hu1' hu1
    have hrange : ∀ r, u1.cx.range? r = t1.cx.range? r := halike1.cx.range
    have hrange' : ∀ r, u1'.cx.range? r = t1'.cx.range? r := halike1'.cx.range
    refine ⟨fun r => ?_, fun r => ?_⟩
    · rw [← hrange', ← hrange, hranges]
    · rw [halike1.cx.touched rfl, halike1'.cx.touched rfl, htouched]
  | _, _, .loop h => .loop h.symm
  | _, _, .count h => .count h.symm
  | _, _, .interruptsOff h => .interruptsOff h.symm
  | _, _, .save h => .save h.symm
  | _, _, .pointInto h => .pointInto h.symm

theorem Block.Turned.symm : ∀ {b b' : Block}, b.Turned s b' → b'.Turned s b
  | _, _, .nil line => .nil line
  | _, _, .cons h1 h2 => .cons h1.symm h2.symm

end

end

end CheckedAsm
