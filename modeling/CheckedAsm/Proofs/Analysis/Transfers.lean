import CheckedAsm.Proofs.Analysis.Nested
import CheckedAsm.Proofs.Analysis.Writeable
/-! # What a block does to each location

A context knows of each location whether it has a value and whether it was touched. What a walk through a block without jumps does
to that knowledge is one of six things, and which of them depends on the block and on where pointers lead, but not on the context.
The six are closed under going on after another and under merging two branches. Each of them done twice is the same as done once,
so a second walk through the block, from where the first one ended, finds nothing new. -/

namespace CheckedAsm

open Context Focus List

variable {s : Setting} {cx cx' cx1 cx2 merged : Context} {r : Ref} {batons : List Baton}

/-! ### Transfers -/

/-- What a context knows of a location apart from its range. -/
structure Standing where
  held : Bool
  touched : Bool
  deriving DecidableEq

/-- What is known of a location. -/
def Context.standing (cx : Context) (r : Ref) : Standing := ⟨cx.isMeaningful r, cx.touched.contains r⟩

/-- What a block may do to a location: leave it alone; give it a value; spoil it; take its value, as for a pointer that gets a new
table; touch it on one branch, without taking its value; and take its value on one branch, which counts as spoiling what had one. -/
inductive Transfer where
  | keep
  | write
  | spoil
  | lose
  | touch
  | drain
  deriving DecidableEq

/-- What is known after a transfer. -/
def Transfer.apply : Transfer → Standing → Standing
  | keep, p => p
  | write, _ => ⟨true, true⟩
  | spoil, _ => ⟨false, true⟩
  | lose, p => ⟨false, p.touched⟩
  | touch, p => ⟨p.held, true⟩
  | drain, p => ⟨false, p.touched || p.held⟩

/-- What is known after a choice, from what was known before it and is known at the ends of its branches. -/
def Standing.merge (p yes no : Standing) : Standing :=
  ⟨yes.held && no.held, yes.touched || no.touched || (p.held && !(yes.held && no.held))⟩

namespace Transfer

/-- One transfer after another. -/
def andThen : Transfer → Transfer → Transfer
  | k, keep => k
  | _, write => write
  | _, spoil => spoil
  | keep, l => l
  | write, touch => write
  | touch, touch => touch
  | lose, lose | lose, drain => lose
  | drain, lose | drain, drain => drain
  | _, _ => spoil

/-- A choice between two transfers. -/
def merge : Transfer → Transfer → Transfer
  | keep, keep => keep
  | write, write => write
  | keep, write | keep, touch | write, keep | write, touch | touch, keep | touch, write | touch, touch => touch
  | keep, lose | keep, drain | lose, keep | lose, lose | lose, drain | drain, keep | drain, lose | drain, drain => drain
  | _, _ => spoil

/-- What is done to the counter of a loop by a loop whose body does the given thing: it has a value before and after. -/
def counted : Transfer → Transfer
  | keep | lose => keep
  | _ => touch

variable (k l : Transfer) (p : Standing)

theorem apply_apply : k.apply (k.apply p) = k.apply p := by
  cases k <;> simp [apply]

theorem apply_andThen : (k.andThen l).apply p = l.apply (k.apply p) := by
  cases k <;> cases l <;> simp [andThen, apply]

theorem apply_merge : (k.merge l).apply p = p.merge (k.apply p) (l.apply p) := by
  obtain ⟨held, touched⟩ := p
  cases held <;> cases touched <;> cases k <;> cases l <;> rfl

theorem apply_counted (hp : p.held = true) : k.counted.apply p = ⟨true, (k.apply p).touched⟩ := by
  obtain ⟨held, touched⟩ := p
  cases hp
  cases k <;> simp [counted, apply]

end Transfer

/-- From one context to another the location is changed as the transfer says, and no jump is met. -/
structure Transfer.Leads (k : Transfer) (r : Ref) (cx cx' : Context) : Prop where
  standing : cx'.standing r = k.apply (cx.standing r)
  gotos : cx'.gotos ⊆ cx.gotos

/-- The walk does to the location what one transfer says, from whatever context in which pointers lead to the given tables. -/
def Transfers (walk : Trail → Except Fault Trail) (env : Pointees) (r : Ref) : Prop :=
  ∃ k : Transfer, ∀ {t t' : Trail}, walk t = .ok t' → t.cx.getAssoc = env → k.Leads r t.cx t'.cx

section

variable {f : Focus} {t t' : Trail}

theorem Context.standing_eq (hheld : cx'.isMeaningful r = true ↔ cx.isMeaningful r = true)
    (htouched : r ∈ cx'.touched ↔ r ∈ cx.touched) : cx'.standing r = cx.standing r := by
  rw [standing, standing, Standing.mk.injEq]
  exact ⟨Bool.eq_iff_iff.2 hheld, by simp [htouched]⟩

/-- What is done to a location by setting some and spoiling some. -/
def Transfer.ofEffect (sets spoils : List Ref) (r : Ref) : Transfer :=
  if r ∈ spoils then .spoil else if r ∈ sets then .write else .keep

theorem Context.Effect.leads {sets spoils : List Ref} (h : Effect sets spoils cx cx') :
    (Transfer.ofEffect sets spoils r).Leads r cx cx' := by
  refine ⟨?_, h.gotos ▸ List.Subset.refl _⟩
  have hheld := h.meaningful r
  have htouched := h.touched r
  by_cases hspoils : r ∈ spoils
  · simp_all [standing, Transfer.ofEffect, Transfer.apply]
  · by_cases hsets : r ∈ sets
    · simp_all [standing, Transfer.ofEffect, Transfer.apply]
    · rw [Transfer.ofEffect, if_neg hspoils, if_neg hsets]
      exact standing_eq (by simp [hheld, hsets, hspoils]) (by simp [htouched, hsets, hspoils])

/-! ### Merging -/

theorem Context.mem_outgoing : r ∈ cx1.meaningful.filter cx2.isMeaningful
    ↔ cx1.isMeaningful r = true ∧ cx2.isMeaningful r = true := by
  rw [mem_filter, ← isMeaningful_iff_mem]

theorem Context.mem_spoiled : (r ∈ cx.meaningful.filter fun q => !(cx1.meaningful.filter cx2.isMeaningful).contains q)
    ↔ cx.isMeaningful r = true ∧ ¬ (cx1.isMeaningful r = true ∧ cx2.isMeaningful r = true) := by
  rw [mem_filter, ← isMeaningful_iff_mem, Bool.not_eq_true', ← Bool.not_eq_true, contains_iff_mem, mem_outgoing]

/-- Two branches put together, before what lacks a value at the end of one of them is spoiled. -/
def Focus.joined (s : Setting) (cx cx1 cx2 : Context) : Except Fault Context :=
  if cx1.terminated then .ok (cx.updateFrom cx2)
  else if cx2.terminated then .ok (cx.updateFrom cx1)
  else
    { cx with
      touched := cx2.touched.foldl (fun acc r => acc.insert r) cx1.touched
      writeable := cx2.writeable.foldl (fun acc r => acc.insert r) cx1.writeable : Context }.makeAllMeaningful s
      (cx1.meaningful.filter cx2.isMeaningful)

theorem Focus.merge_eq : Focus.merge s cx cx1 cx2 = (Focus.joined s cx cx1 cx2).map fun both =>
    (cx.meaningful.filter fun r => !(cx1.meaningful.filter cx2.isMeaningful).contains r).foldl spoil
      ((both.meetGotos cx1.gotos).meetGotos cx2.gotos) := by
  unfold Focus.merge Focus.joined
  split
  · rfl
  · split
    · rfl
    · dsimp only
      cases makeAllMeaningful s _ _ <;> rfl

/-- After two branches that go on a location has a value if it has one at the end of both. -/
theorem Focus.standing_merge (h : Focus.merge s cx cx1 cx2 = .ok merged) (h1 : cx1.terminated = false)
    (h2 : cx2.terminated = false) : merged.standing r = (cx.standing r).merge (cx1.standing r) (cx2.standing r) := by
  simp only [merge_eq, joined, h1, h2, Bool.false_eq_true, ↓reduceIte, map_eq_ok] at h
  obtain ⟨both, hboth, rfl⟩ := h
  obtain ⟨same, hsome, hranges⟩ := makeAllMeaningful_ok hboth
  rw [standing, Standing.merge, Standing.mk.injEq]
  constructor
  · rw [isMeaningful_eq, range?_spoilAll]
    change (if _ then none else both.range? r).isSome = _
    rw [Bool.eq_iff_iff]
    simp only [standing, Bool.and_eq_true, mem_spoiled]
    by_cases hout : cx1.isMeaningful r = true ∧ cx2.isMeaningful r = true
    · simp only [hout, and_self, not_true_eq_false, and_false, ↓reduceIte, iff_true]
      exact hsome r (mem_outgoing.2 hout)
    · -- What lacks a value at the end of a branch had none before, or is spoiled.
      simp only [hout, not_false_eq_true, and_true, iff_false, Bool.not_eq_true]
      split
      · rfl
      · next hin =>
        rcases hranges r with heq | ⟨hmem, -⟩
        · rw [heq]
          exact Bool.eq_false_iff.2 hin
        · exact absurd (mem_outgoing.1 hmem) hout
  · rw [Bool.eq_iff_iff, contains_iff_mem, mem_touched_spoilAll, mem_spoiled]
    change r ∈ both.touched ∨ _ ↔ _
    rw [same.touched]
    change r ∈ cx2.touched.foldl (fun acc r => acc.insert r) cx1.touched ∨ _ ↔ _
    rw [mem_foldl_insert]
    simp [standing, ← Bool.not_eq_true, imp_iff_not_or]

/-! ### Setting aside -/

theorem Context.mem_touched_reintroduce {b : Baton} (honce : b.touched = false → cx.touched.count b.location ≤ 1) :
    r ∈ (cx.reintroduce b).touched ↔ if b.location = r then b.touched = true else r ∈ cx.touched := by
  rw [reintroduce]
  cases hb : b.touched with
  | true =>
    simp only [↓reduceIte, mem_insert_iff]
    split
    · next heq => simp [heq]
    · next hne => simp [Ne.symm hne]
  | false =>
    simp only [Bool.false_eq_true, ↓reduceIte]
    split
    · next heq =>
      subst heq
      have hcount := honce hb
      rw [iff_false, ← count_pos_iff, count_erase_self]
      omega
    · next hne => exact mem_erase_of_ne (Ne.symm hne)

/-- Bytes that were set aside count as touched if they did before, the other locations if they do now. -/
theorem Context.mem_touched_reintroduceAll (hmade : ∀ b ∈ batons, b.touched = cx.touched.contains b.location)
    (honce : ∀ b ∈ batons, b.location ∉ cx.touched → cx'.touched.count b.location ≤ 1) :
    r ∈ (batons.foldl reintroduce cx').touched ↔ if ∃ b ∈ batons, b.location = r then r ∈ cx.touched else r ∈ cx'.touched := by
  induction batons generalizing cx' with
  | nil => simp
  | cons b batons ih =>
    rw [forall_mem_cons] at hmade honce
    have hfirst : b.touched = false → cx'.touched.count b.location ≤ 1 := fun hb => honce.1 (by simpa [hmade.1] using hb)
    have hlater : ∀ q, cx'.touched.count q ≤ 1 → (cx'.reintroduce b).touched.count q ≤ 1 := by
      intro q hq
      rw [reintroduce]
      dsimp only
      split
      · exact count_insert_le hq _
      · exact (erase_sublist.count_le q).trans hq
    rw [foldl_cons, ih hmade.2 fun c hc hout => hlater _ (honce.2 c hc hout), mem_touched_reintroduce hfirst]
    by_cases hr : ∃ c ∈ batons, c.location = r
    · simp [hr]
    · by_cases hb : b.location = r
      · subst hb
        simp [hr, hmade.1]
      · simp [hr, hb]

theorem Focus.mem_touched_restored {rs : List Ref} (h : f.setAside rs cx = .ok (batons, cx1)) (horder : Orderly cx1 cx') :
    r ∈ (Focus.restore cx' batons rs.head?).touched
      ↔ (if r ∈ rs then r ∈ cx.touched else r ∈ cx'.touched) ∨ (r = .a ∧ rs.head? ≠ some .a) := by
  obtain ⟨-, -, htouched, -, hmade, hall⟩ := setAside_ok h
  have honce : ∀ q, q ∉ cx.touched → cx'.touched.count q ≤ 1 := by
    intro q hq
    refine horder.touched q ?_
    rw [htouched, count_eq_zero_of_not_mem hq]
    exact Nat.zero_le 1
  have hmem : (∃ b ∈ batons, b.location = r) ↔ r ∈ rs := by
    refine ⟨?_, hall r⟩
    rintro ⟨b, hb, rfl⟩
    exact (hmade b hb).1
  have hfold := mem_touched_reintroduceAll (r := r) (fun b hb => (hmade b hb).2.2) fun b _ => honce b.location
  simp only [hmem] at hfold
  unfold Focus.restore
  split
  · next hfirst => simp [hfold, hfirst]
  · next hfirst => simp [mem_touched_spoil, hfold, hfirst, or_comm]

end

/-! ### Walks -/

variable {env : Pointees}

/-- A choice whose branches both go on. -/
theorem Transfer.Leads.choice {k l : Transfer} (h1 : k.Leads r cx.branch cx1)
    (h2 : l.Leads r cx.branch cx2) (hm : Focus.merge s cx cx1 cx2 = .ok merged) (hgo1 : cx1.terminated = false)
    (hgo2 : cx2.terminated = false) : (k.merge l).Leads r cx merged := by
  refine ⟨?_, merge_gotos_subset hm h1.gotos h2.gotos⟩
  rw [standing_merge hm hgo1 hgo2, Transfer.apply_merge, h1.standing, h2.standing]
  rfl

mutual

/-- Whatever the context is, an instruction without jumps does the same to a location. -/
theorem Instr.transfers (s : Setting) (hr : ∀ c, r ≠ .constant c) : ∀ (i : Instr) (env : Pointees), i.isJumpFree = true →
    Transfers (i.walk s) env r
  | .op line op, env, _ => by
    refine ⟨.ofEffect (op.settled.sets env) (op.settled.spoils s) r, fun {t t'} h henv => ?_⟩
    obtain ⟨cx, hop, rfl⟩ := map_eq_ok.1 h
    exact henv ▸ (single_effect hop).leads
  | .call line target, env, _ => by
    by_cases hcallee : ∃ ty sig, s.typeOfName target = .ok ty ∧ ty.target = .routine sig
    · obtain ⟨ty, sig, hty, hsig⟩ := hcallee
      refine ⟨.ofEffect (sig.outputs.map .ofSlot) (sig.trashes.map .ofSlot) r, fun {t t'} h _ => ?_⟩
      obtain ⟨ty', sig', hty', hsig', -, heffect, -⟩ := call_values h
      cases hty.symm.trans hty'
      cases hsig.symm.trans hsig'
      exact heffect.leads
    · -- Nothing can be called under the name, so no call is accepted.
      refine ⟨.keep, fun {t t'} h _ => ?_⟩
      obtain ⟨ty, sig, hty, hsig, -⟩ := call_values h
      exact absurd ⟨ty, sig, hty, hsig⟩ hcallee
  | .reset line pointer offset, env, _ => by
    refine ⟨.ofEffect [pointer] [] r, fun {t t'} h henv => ?_⟩
    obtain ⟨cx, hreset, rfl⟩ := map_eq_ok.1 h
    exact (reset_values hreset).1.leads
  | .ifThen line src inv yes, env, hfree => by
    obtain ⟨k, hk⟩ := yes.transfers s hr env hfree
    refine ⟨k.merge .keep, fun {t t'} h henv => ?_⟩
    simp only [Instr.walk, bind_eq_ok, pure_eq_ok] at h
    obtain ⟨t1, h1, cx, hm, rfl⟩ := h
    have hgo := (yes.walk_closes s h1).trans (yes.closes_of_jumpFree hfree _)
    exact (hk h1 henv).choice ⟨rfl, List.Subset.refl _⟩ hm hgo rfl
  | .ifElse line src inv yes no, env, hfree => by
    simp only [Instr.isJumpFree, Bool.and_eq_true] at hfree
    obtain ⟨k, hk⟩ := yes.transfers s hr env hfree.1
    obtain ⟨l, hl⟩ := no.transfers s hr env hfree.2
    refine ⟨k.merge l, fun {t t'} h henv => ?_⟩
    simp only [Instr.walk, bind_eq_ok, pure_eq_ok] at h
    obtain ⟨t1, h1, t2, h2, cx, hm, rfl⟩ := h
    have hgo1 := (yes.walk_closes s h1).trans (yes.closes_of_jumpFree hfree.1 _)
    have hgo2 := (no.walk_closes s h2).trans (no.closes_of_jumpFree hfree.2 _)
    exact (hk h1 henv).choice (hl h2 henv) hm hgo1 hgo2
  | .loop line src inv body, env, hfree => by
    obtain ⟨k, hk⟩ := body.transfers s hr env hfree
    refine ⟨k, fun {t t'} h henv => ?_⟩
    simp only [Instr.walk, bind_eq_ok, pure_eq_ok] at h
    obtain ⟨t1, h1, ⟨⟩, -, ⟨⟩, -, t2, h2, ⟨⟩, -, rfl⟩ := h
    obtain ⟨hstanding1, hgotos1⟩ := hk h1 henv
    obtain ⟨hstanding2, hgotos2⟩ := hk h2 ((body.walk_keeps s h1).assoc.trans henv)
    exact ⟨by rw [hstanding2, hstanding1, k.apply_apply], List.Subset.trans hgotos2 hgotos1⟩
  | .count line d dir final body, env, hfree => by
    obtain ⟨k, hk⟩ := body.transfers s hr env hfree
    refine ⟨if r = d then k.counted else k, fun {t t'} h henv => ?_⟩
    simp only [Instr.walk, bind_eq_ok, map_eq_ok] at h
    obtain ⟨cx, henter, t1, h1, t2, h2, cx2, hleave, rfl⟩ := h
    obtain ⟨range, inside, -, hrange, -, rfl⟩ := enterCount_ok henter
    obtain rfl := leaveCount_ok hleave
    obtain ⟨hstanding1, hgotos1⟩ := hk h1 henv
    obtain ⟨hstanding2, hgotos2⟩ := hk h2 ((body.walk_keeps s h1).assoc.trans henv)
    refine ⟨?_, List.Subset.trans hgotos2 hgotos1⟩
    -- The range of the counter is looked at before the loop, so the counter has a value then.
    have hheld : r = d → t.cx.isMeaningful r = true := by
      rintro rfl
      obtain ⟨c, rfl, -⟩ | hsome := getRange_ok hrange
      · exact absurd rfl (hr c)
      · rw [isMeaningful_eq, hsome, Option.isSome_some]
    have hin : (t.cx.putRange d inside).standing r = t.cx.standing r :=
      standing_eq (isMeaningful_putRange.trans (or_iff_left_of_imp hheld)) Iff.rfl
    rw [hstanding1, k.apply_apply] at hstanding2
    replace hstanding2 := hstanding2.trans (congrArg k.apply hin)
    by_cases heq : r = d
    · rw [if_pos heq, k.apply_counted _ (hheld heq), ← hstanding2, standing, Standing.mk.injEq]
      exact ⟨isMeaningful_putRange.2 (.inr heq), rfl⟩
    · rw [if_neg heq, ← hstanding2]
      exact standing_eq (isMeaningful_putRange.trans (or_iff_left heq)) Iff.rfl
  | .interruptsOff line body, env, hfree => by
    obtain ⟨k, hk⟩ := body.transfers s hr env hfree
    refine ⟨k, fun {t t'} h henv => ?_⟩
    exact hk (body.walk_of_interruptsOff s h) henv
  | .save line locations body, env, hfree => by
    obtain ⟨k, hk⟩ := body.transfers s hr env hfree
    refine ⟨if r = .a ∧ locations.head? ≠ some .a then .spoil else if r ∈ locations then .keep else k, fun {t t'} h henv => ?_⟩
    simp only [Instr.walk, bind_eq_ok, pure_eq_ok] at h
    obtain ⟨⟨batons, cx⟩, hset, t1, h1, ⟨⟩, -, rfl⟩ := h
    obtain ⟨hranges, -, htouched, -⟩ := setAside_ok hset
    obtain ⟨hassoc, hmet⟩ := assoc_setAside hset
    obtain ⟨hstanding, hgotos⟩ := hk h1 ((getAssoc_congr hassoc).trans henv)
    have hin : cx.standing r = t.cx.standing r :=
      standing_eq (by rw [isMeaningful_eq, isMeaningful_eq, hranges]) (by rw [htouched])
    have hheld : (Focus.restore t1.cx batons locations.head?).isMeaningful r = true ↔ _ := isMeaningful_restore hset
    have hlast := mem_touched_restored hset (body.walk_orderly s h1) (r := r)
    refine ⟨?_, by rw [← hmet, Trail.withContext, gotos_restore]; exact hgotos⟩
    change (Focus.restore t1.cx batons locations.head?).standing r = _
    by_cases ha : r = .a ∧ locations.head? ≠ some .a
    · rw [if_pos ha, standing, Transfer.apply, Standing.mk.injEq]
      exact ⟨by rw [← Bool.not_eq_true, hheld]; exact fun h => ha.2 (h.2 ha.1), contains_iff_mem.2 (hlast.2 (.inr ha))⟩
    · rw [if_neg ha]
      have hfirst : r = .a → locations.head? = some .a := fun hra => by_contra fun hne => ha ⟨hra, hne⟩
      by_cases hmem : r ∈ locations
      · rw [if_pos hmem]
        exact standing_eq (by simp only [hheld, if_pos hmem, and_iff_left hfirst]) (by simp only [hlast, if_pos hmem, or_iff_left ha])
      · rw [if_neg hmem, ← hin]
        refine .trans ?_ hstanding
        exact standing_eq (by simp only [hheld, if_neg hmem, and_iff_left hfirst]) (by simp only [hlast, if_neg hmem, or_iff_left ha])
  | .pointInto line pointer table body, env, hfree => by
    obtain ⟨k, hk⟩ := body.transfers s hr (fun q => if q = pointer then some table else env q) hfree
    refine ⟨if r = pointer then (Transfer.lose.andThen k).andThen .lose else k, fun {t t'} h henv => ?_⟩
    simp only [Instr.walk, bind_eq_ok, pure_eq_ok] at h
    obtain ⟨cx, henter, t1, h1, ⟨⟩, -, rfl⟩ := h
    obtain ⟨-, -, -, rfl⟩ := enterPoint_ok henter
    obtain ⟨hstanding, hgotos⟩ := hk h1 (by rw [← henv]; exact pointInto_env.symm)
    refine ⟨?_, hgotos⟩
    have hforget : ∀ cx cx' : Context, cx'.ranges = (cx.forget pointer).ranges → cx'.touched = cx.touched →
        cx'.standing r = if r = pointer then Transfer.lose.apply (cx.standing r) else cx.standing r := by
      intro cx cx' hranges htouched
      have hheld : cx'.isMeaningful r = true ↔ cx.isMeaningful r = true ∧ r ≠ pointer := by
        rw [isMeaningful, hranges]
        exact isMeaningful_forget
      by_cases heq : r = pointer
      · rw [if_pos heq, standing, Transfer.apply, Standing.mk.injEq]
        exact ⟨by rw [← Bool.not_eq_true, hheld]; exact fun h => h.2 heq, by rw [htouched]; rfl⟩
      · rw [if_neg heq]
        exact standing_eq (hheld.trans (and_iff_left heq)) (by rw [htouched])
    have hin := hforget t.cx ((t.cx.setAssoc pointer (some table)).forget pointer) rfl rfl
    have hout := hforget t1.cx (Focus.leavePoint t1.cx pointer) rfl rfl
    refine hout.trans ?_
    rw [hstanding, Trail.withContext, hin]
    by_cases heq : r = pointer
    · simp only [if_pos heq, Transfer.apply_andThen]
    · simp only [if_neg heq]

theorem Block.transfers (s : Setting) (hr : ∀ c, r ≠ .constant c) : ∀ (b : Block) (env : Pointees), b.isJumpFree = true →
    Transfers (b.walk s) env r
  | .nil _, env, _ => by
    refine ⟨.keep, fun {t t'} h _ => ?_⟩
    cases h
    exact ⟨rfl, List.Subset.refl _⟩
  | .cons head tail, env, hfree => by
    simp only [Block.isJumpFree, Bool.and_eq_true] at hfree
    obtain ⟨k, hk⟩ := head.transfers s hr env hfree.1
    obtain ⟨l, hl⟩ := tail.transfers s hr env hfree.2
    refine ⟨k.andThen l, fun {t t'} h henv => ?_⟩
    obtain ⟨t1, h1, h2⟩ := bind_eq_ok.1 h
    obtain ⟨hstanding1, hgotos1⟩ := hk h1 henv
    obtain ⟨hstanding2, hgotos2⟩ := hl h2 ((head.walk_keeps s h1).assoc.trans henv)
    exact ⟨by rw [hstanding2, hstanding1, Transfer.apply_andThen], List.Subset.trans hgotos2 hgotos1⟩

end

/-! ### Walking twice -/

/-- What a walk through a block without jumps has left, a second one leaves as it is. -/
theorem Block.walk_twice {b : Block} (hfree : b.isJumpFree = true) {t u t1 t2 : Trail} (h1 : b.walk s t = .ok t1)
    (h2 : b.walk s (u.withContext t1.cx) = .ok t2) (hr : ∀ c, r ≠ .constant c) :
    t2.cx.standing r = t1.cx.standing r ∧ t2.cx.gotos ⊆ t1.cx.gotos := by
  obtain ⟨k, hk⟩ := b.transfers s hr t.cx.getAssoc hfree
  obtain ⟨hstanding, hgotos⟩ := hk h2 (b.walk_keeps s h1).assoc
  refine ⟨?_, hgotos⟩
  rw [hstanding, (hk h1 rfl).standing]
  exact (congrArg k.apply (hk h1 rfl).standing).trans (k.apply_apply _)

/-- A second walk through a block without jumps, from where the first one ended, leaves the same locations with values and the same
locations touched. -/
theorem Block.second_walk_same (s : Setting) (b : Block) (hfree : b.isJumpFree = true) (t u t₁ t₂ : Trail)
    (h₁ : b.walk s t = .ok t₁) (h₂ : b.walk s (u.withContext t₁.cx) = .ok t₂) (r : Ref) (hr : ∀ c, r ≠ .constant c) :
    t₂.cx.isMeaningful r = t₁.cx.isMeaningful r ∧ (r ∈ t₂.cx.touched ↔ r ∈ t₁.cx.touched) := by
  have hstanding := (b.walk_twice hfree h₁ h₂ hr).1
  rw [standing, standing, Standing.mk.injEq] at hstanding
  refine ⟨hstanding.1, ?_⟩
  rw [← contains_iff_mem, ← contains_iff_mem, hstanding.2]

/-- The registers and flags, a table of four bytes and a pointer. -/
def weaveSetting : Setting :=
  ⟨((Symbols.initial.declare "tab" ⟨.builtin, .table .byte 4⟩).declare "ptr" ⟨.builtin, .pointer⟩).declare "main" ⟨.builtin, .routine {}⟩,
    "main", 0⟩

/-- A choice whose branches do different things, a counting loop in another loop, with a byte set aside in it, and a pointer. -/
def weave : Block :=
  .cons (.ifElse 0 .c false (.cons (.op 0 (.ld .a (.constant ⟨.byte, 1⟩))) (.nil 0)) (.cons (.op 0 (.trash .y)) (.nil 0)))
    (.cons (.loop 0 (some .c) false
      (.cons (.op 0 (.ld .x (.constant ⟨.byte, 0⟩)))
        (.cons (.count 0 .x .up ⟨.byte, 3⟩
          (.cons (.save 0 [.y] (.cons (.op 0 (.ld .y (.constant ⟨.byte, 2⟩))) (.nil 0))) (.nil 0))) (.nil 0))))
      (.cons (.pointInto 0 (.location "ptr") (.location "tab") (.cons (.reset 0 (.location "ptr") ⟨.byte, 0⟩) (.nil 0))) (.nil 0)))

/-- The carry, the table, `y` and the pointer have values at first. -/
def weaveStart : Trail :=
  ⟨{ ranges := ⟨[(.c, .ofInts (0, 1)), (.location "tab", .ofInts (0, 3)), (.y, .ofInts (0, 255)), (.location "ptr", .ofInts (0, 65535))]⟩
     writeable := [.a, .x, .y, .z, .n, .location "ptr"] }, [], []⟩

/-- After the first walk `y` is spoiled, `x` has a value and the pointer has none; a second walk finds nothing new. -/
theorem weave_second_walk_same :
    ∃ t₁ t₂, weave.walk weaveSetting weaveStart = .ok t₁ ∧ weave.walk weaveSetting t₁ = .ok t₂
      ∧ [Ref.y, .x, .location "ptr"].map t₁.cx.standing = [⟨false, true⟩, ⟨true, true⟩, ⟨false, true⟩]
      ∧ ∀ r, (∀ c, r ≠ .constant c) →
        t₂.cx.isMeaningful r = t₁.cx.isMeaningful r ∧ (r ∈ t₂.cx.touched ↔ r ∈ t₁.cx.touched) := by
  have hruns : (weave.walk weaveSetting weaveStart >>= fun t₁ => (weave.walk weaveSetting t₁).map fun _ =>
      [Ref.y, .x, .location "ptr"].map t₁.cx.standing).toOption = some [⟨false, true⟩, ⟨true, true⟩, ⟨false, true⟩] := by
    decide +kernel
  simp only [toOption_eq_some, bind_eq_ok, map_eq_ok] at hruns
  obtain ⟨t₁, h₁, t₂, h₂, hstanding⟩ := hruns
  exact ⟨t₁, t₂, h₁, h₂, hstanding, Block.second_walk_same weaveSetting weave rfl weaveStart t₁ t₁ t₂ h₁ h₂⟩

end CheckedAsm
