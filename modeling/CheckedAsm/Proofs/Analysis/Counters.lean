import CheckedAsm.Proofs.Analysis.Writeable
import CheckedAsm.Proofs.Values.Soundness
/-! # The variable of a counting loop

While control stays in the body of an accepted counting loop, nothing changes the variable of the loop, except between setting it
aside and taking it back. Two checks work together. A change that gives a value is refused at once, since the variable may not be
written to inside. A change that takes the value away may go unnoticed where it is made; but without a change of the first kind
the variable never has a value again, and so it lacks one at the end of the body, where the loop needs it. -/

namespace CheckedAsm

open Context Focus List

variable {s : Setting} {base d src : Ref} {target : String}

/-- What a routine of the name, or one that a vector of the name leads to, declares as set or spoiled. -/
def Setting.Declares (s : Setting) (target n : String) : Prop :=
  ∃ ty sig, s.typeOfName target = .ok ty ∧ ty.target = .routine sig ∧ n ∈ (sig.outputs ++ sig.trashes).map (·.name)

mutual

/-- The instruction, or one in it at any depth, gives a location a value or takes its value away. A block that sets the location
aside counts only for what taking bytes back does: the accumulator is changed on the way, unless it was set aside first. -/
def Instr.Changes (s : Setting) (n : String) (env : Pointees) : Instr → Prop
  | .op _ op => .location n ∈ op.settled.sets env ++ op.settled.spoils s
  | .call _ target | .goto _ target => s.Declares target n
  | .reset _ pointer _ => pointer = .location n
  | .ifElse _ _ _ yes no => yes.Changes s n env ∨ no.Changes s n env
  | .ifThen _ _ _ body | .loop _ _ _ body | .interruptsOff _ body => body.Changes s n env
  | .count _ d _ _ body => d = .location n ∨ body.Changes s n env
  | .save _ locations body => (.location n ∉ locations ∧ body.Changes s n env)
      ∨ (.location n = Ref.a ∧ locations.head? ≠ some .a)
  | .pointInto _ pointer table body => body.Changes s n fun q => if q = pointer then some table else env q

/-- The same of a block. -/
def Block.Changes (s : Setting) (n : String) (env : Pointees) : Block → Prop
  | .nil _ => False
  | .cons head tail => head.Changes s n env ∨ tail.Changes s n env

end

section

variable {f : Focus} {cx cx' cx1 cx2 : Context} {n : String} {q r : Ref} {rs : List Ref}

/-! ### What may be written to -/

/-- The location is local or among those that may be written to. -/
def Context.Permits (s : Setting) (cx : Context) (r : Ref) : Prop := s.isLocal r.name = true ∨ r ∈ cx.writeable

theorem Context.permits_of_assert (h : cx.assertWriteable s none r = .ok ()) : cx.Permits s r := by
  unfold assertWriteable at h
  split at h
  · next hlocal => exact .inl hlocal
  · split at h
    · next hr => exact .inr (contains_iff_mem.1 hr)
    · cases h

theorem Context.permits_of_write (h : cx1.write s rs = .ok cx') (hw : cx1.writeable = cx.writeable) :
    ∀ r ∈ rs, cx.Permits s r := by
  intro r hr
  have := permits_of_assert ((write_ok h).1 r hr)
  rwa [Permits, hw] at this

theorem Focus.permits_of_widens (h : f.Widens cx1 rs d cx') (hw : cx1.writeable = cx.writeable) : ∀ r ∈ rs, cx.Permits f.setting r := by
  obtain ⟨cx2, range, h, -⟩ := h
  exact permits_of_write h hw

/-- A cell that is changed in place is written to twice. -/
theorem Focus.permits_of_cell {offset index : Ref} (h : f.writeTable cx base offset index = .ok cx1)
    (h' : cx1.write f.setting rs = .ok cx') : ∀ r ∈ base :: rs, cx.Permits f.setting r := by
  obtain ⟨-, -, -, hw⟩ := writeTable_ok h
  rw [forall_mem_cons]
  exact ⟨permits_of_write hw rfl _ (by simp), permits_of_write h' (write_ok hw).2.2.1⟩

theorem Focus.permits_of_target (h : f.writeTarget cx base = .ok cx') :
    ∀ r ∈ (Ref.indirect base).struck cx.getAssoc, cx.Permits f.setting r := by
  obtain ⟨table, hassoc, hw⟩ := writeTarget_ok h
  rw [Ref.struck, hassoc]
  exact permits_of_write hw rfl

theorem Focus.permits_of_copies (h : Copies f cx cx1 src d) : ∀ r ∈ d.struck cx.getAssoc, cx.Permits f.setting r := by
  cases h with
  | fromIndirect _ _ hw | fromCell _ _ _ _ hw | toCell _ _ _ _ hw | toLocation _ _ _ hw => exact permits_of_write hw rfl
  | betweenIndirect _ hw | toIndirect _ _ hw => exact permits_of_target hw

/-- Whatever an accepted operation gives a value may be written to. -/
theorem Focus.single_permits {op : Op} (h : f.single cx op = .ok cx') :
    ∀ r ∈ op.sets cx.getAssoc, cx.Permits f.setting r := by
  cases single_accepts h with
  | loadCell hw | loadBehind hw | compareCell hw | compareBytes hw | compareWords hw | andCell hw | and hw =>
    exact permits_of_write hw rfl
  | load hc hw =>
    obtain ⟨range, -, rfl⟩ := copyRange_ok hc
    exact permits_of_write hw rfl
  | storeCell hw => exact permits_of_write (writeTable_ok hw).2.2.2 rfl
  | storeBehind hw => exact permits_of_target hw
  | store hw hty | inc hw hty | dec hw hty =>
    rw [Op.sets, struck_of_typed hty]
    exact permits_of_write hw rfl
  | add hs hw | sub hs hw => exact permits_of_widens hw (congrArg Prod.fst (reworks_sum hs).rights)
  | or hw | xor hw => exact permits_of_widens hw rfl
  | shl hw hty | shr hw hty =>
    rw [Op.sets, struck_of_typed hty]
    exact permits_of_widens hw rfl
  | incCell hcell hw | decCell hcell hw | shlCell hcell hw | shrCell hcell hw =>
    exact fun r hr => permits_of_cell hcell hw r (by simp_all [Op.sets, Ref.struck])
  | copy hcopies => exact permits_of_copies hcopies
  | trash | nop => exact fun _ hr => by cases hr

/-! ### A location that may not be written to -/

/-- No reference to the location is among those that may be written to. -/
def Context.Locks (cx : Context) (n : String) : Prop := ∀ q ∈ cx.writeable, q.settled ≠ .location n

theorem Context.Locks.not_permits (h : cx.Locks n) (hfree : s.isLocal n = false) (hq : q.settled = .location n) :
    ¬ cx.Permits s q := by
  rintro (hlocal | hmem)
  · have hname : q.name = n := by cases q <;> cases hq <;> rfl
    simp [hname, hfree] at hlocal
  · exact h q hmem hq

theorem Context.Locks.of_orderly (h : cx.Locks n) (ho : Orderly cx cx') : cx'.Locks n :=
  fun q hq => h q ((ho.restores q).1.1 hq)

theorem Context.Locks.of_setAside {batons : List Baton} (h : cx.Locks n) (hset : f.setAside rs cx = .ok (batons, cx'))
    (hn : .location n ∉ rs) : cx'.Locks n := by
  intro q hq hsettled
  rcases writeable_setAside hset q hq with hrs | hcx
  · have hty := (setAside_ok hset).2.2.2.1 q hrs
    cases q with
    | location => exact hn (hsettled ▸ hrs)
    | pending => cases hty
    | constant | indexed | indirect => cases hsettled
  · exact h q hcx hsettled

/-- After the variable of a counting loop is taken from a list that has it once, no reference to it is left. -/
theorem locks_of_erase {w : List Ref} (h : (w.map Ref.settled).count (.location n) ≤ 1)
    (hcx : cx.writeable = w.erase (.location n)) (hn : .location n ∈ w) : cx.Locks n := by
  intro q hq hsettled
  rw [hcx] at hq
  have hsplit : (w.map Ref.settled).Perm (.location n :: (w.erase (.location n)).map Ref.settled) :=
    (perm_cons_erase hn).map Ref.settled
  rw [hsplit.count_eq, count_cons_self] at h
  exact count_eq_zero.1 (by omega) (mem_map.2 ⟨q, hq, hsettled⟩)

theorem settled_ofSlot (slot : Slot) : (Ref.ofSlot slot).settled = .location slot.name := by
  unfold Ref.ofSlot
  split <;> rfl

/-- What sets or spoils a location by its declaration is neither called nor jumped to. -/
theorem Context.Locks.not_declares {ty : Ty} {sig : Signature} (h : cx.Locks n) (hfree : s.isLocal n = false)
    (hty : s.typeOfName target = .ok ty) (hform : ty = .routine sig ∨ ty = .vector (.routine sig))
    (hp : Focus.perform s cx sig = .ok cx') : ¬ s.Declares target n := by
  rintro ⟨ty', sig', hty', hsig, hn⟩
  cases hty.symm.trans hty'
  obtain rfl : sig = sig' := by rcases hform with rfl | rfl <;> exact Ty.routine.inj hsig
  obtain ⟨slot, hslot, rfl⟩ := mem_map.1 hn
  exact h.not_permits hfree (settled_ofSlot slot)
    (permits_of_assert ((perform_ok hp).1 _ (mem_map_of_mem hslot)))

theorem Setting.isStorage_of_byte (hty : s.typeOf (.location n) = .ok .byte) (hfree : s.isLocal n = false) :
    s.isStorage (.location n) = true := by
  have hglobal : s.globalType n = .ok .byte := by
    have hnone : s.symbols.localType? s.routine n = none := by
      simpa [Symbols.localType?, Setting.isLocal, Symbols.hasLocal, Assoc.has] using hfree
    simpa only [typeOf, typeOfName, hnone] using hty
  simp [isStorage, isConstant, hglobal, Except.map, Ty.isRoutine]

/-- After a choice a location that both branches at most take a value from has one only if both have left it one, whether they
have ended in a jump or not. -/
theorem Focus.merge_spares {merged : Context} (h : merge s cx cx1 cx2 = .ok merged) (hr : merged.isMeaningful r = true)
    (h1 : cx1.isMeaningful r = true → cx.isMeaningful r = true) (h2 : cx2.isMeaningful r = true → cx.isMeaningful r = true) :
    cx.isMeaningful r = true ∧ cx1.isMeaningful r = true ∧ cx2.isMeaningful r = true := by
  obtain ⟨both, rfl, -, hjoins⟩ := merge_ok h
  rw [isMeaningful_eq, range?_spoilAll] at hr
  split at hr
  · cases hr
  · next hnot =>
    have hboth : r ∈ cx.meaningful → r ∈ cx1.meaningful.filter cx2.isMeaningful := by simpa using hnot
    have hcx : cx.isMeaningful r = true := by
      cases hjoins with
      | second => exact h2 hr
      | first => exact h1 hr
      | neither _ _ _ _ _ _ hranges =>
        rcases hranges r with heq | ⟨hin, -⟩
        · rw [isMeaningful_eq, ← heq]
          exact hr
        · exact h2 (mem_filter.1 hin).2
    obtain ⟨hin1, hin2⟩ := mem_filter.1 (hboth (isMeaningful_iff_mem.1 hcx))
    exact ⟨hcx, isMeaningful_iff_mem.2 hin1, hin2⟩

end

/-- A byte that is not local and may not be written to, and what is left of its value: one that it has after a piece of code it
had before, and the code does not change it. -/
structure Trail.Spares (n : String) (P : Prop) (t t' : Trail) : Prop where
  before : t'.cx.isMeaningful (.location n) = true → t.cx.isMeaningful (.location n) = true
  unchanged : t'.cx.isMeaningful (.location n) = true → ¬ P

mutual

theorem Instr.walk_spares {n : String} (hty : s.typeOf (.location n) = .ok .byte) (hfree : s.isLocal n = false)
    (i : Instr) {t t' : Trail} (hw : i.walk s t = .ok t') (hlock : t.cx.Locks n) :
    t.Spares n (i.Changes s n t.cx.getAssoc) t' := by
  cases Instr.walked hw with
  | @op _ op _ h =>
    have hvalues := (single_effect h).meaningful (.location n)
    have hsets : .location n ∉ op.settled.sets t.cx.getAssoc := fun hset =>
      hlock.not_permits hfree rfl (single_permits h _ hset)
    refine ⟨fun hr => (hvalues.1 hr).1.resolve_right hsets, fun hr hchange => ?_⟩
    exact (mem_append.1 hchange).elim hsets (hvalues.1 hr).2
  | call h =>
    obtain ⟨ty, sig, cx, hcallee, hform, -, hp, rfl⟩ := call_ok h
    have hsets : .location n ∉ sig.outputs.map Ref.ofSlot := fun hset =>
      hlock.not_permits (q := .location n) hfree rfl
        (permits_of_assert ((perform_ok hp).1 _ (map_append ▸ mem_append_left _ hset)))
    have hvalues := (perform_effect hp).meaningful (.location n)
    exact ⟨fun hr => (hvalues.1 hr).1.resolve_right hsets, fun _ => hlock.not_declares hfree hcallee hform hp⟩
  | @goto _ target _ h =>
    obtain ⟨ty, sig, left, hcallee, hform, -, hp, rfl⟩ := jump_ok h
    have hlock' : (t.cx.meetGotos [.location target]).branch.Locks n := hlock
    exact ⟨id, fun _ => hlock'.not_declares hfree hcallee hform hp⟩
  | @reset _ pointer _ _ h =>
    have hne : pointer ≠ .location n := by
      rintro rfl
      cases hty.symm.trans (reset_ok h).1
    have hvalues := (reset_values h).1.meaningful (.location n)
    exact ⟨fun hr => (hvalues.1 hr).1.resolve_right (by simpa using hne.symm), fun _ => hne⟩
  | ifThen yes h1 hm =>
    have ih := yes.walk_spares hty hfree h1 hlock
    have hsplit := fun hr => merge_spares hm hr ih.before id
    exact ⟨fun hr => (hsplit hr).1, fun hr => ih.unchanged (hsplit hr).2.1⟩
  | ifElse yes no h1 h2 hm =>
    have ih1 := yes.walk_spares hty hfree h1 hlock
    have ih2 := no.walk_spares hty hfree h2 hlock
    have hsplit := fun hr => merge_spares hm hr ih1.before ih2.before
    exact ⟨fun hr => (hsplit hr).1, fun hr hchange =>
      hchange.elim (ih1.unchanged (hsplit hr).2.1) (ih2.unchanged (hsplit hr).2.2)⟩
  | loop body h1 _ _ h2 =>
    have ih1 := body.walk_spares hty hfree h1 hlock
    have ih2 := body.walk_spares hty hfree h2 (hlock.of_orderly (body.walk_orderly s h1))
    exact ⟨fun hr => ih1.before (ih2.before hr), fun hr => ih1.unchanged (ih2.before hr)⟩
  | @count _ d _ _ cx t1 _ cx2 body henter h1 h2 hleave =>
    have hne : .location n ≠ d := by
      rintro rfl
      exact hlock _ (mem_writeable_of_enterCount henter) rfl
    have hlock1 : cx.Locks n := by
      obtain ⟨range, inside, -, -, -, rfl⟩ := enterCount_ok henter
      exact fun q hq => hlock q (mem_of_mem_erase hq)
    have ih1 := body.walk_spares hty hfree h1 hlock1
    have ih2 := body.walk_spares hty hfree h2 (hlock1.of_orderly (body.walk_orderly s h1))
    have hend : cx2.isMeaningful (.location n) = true → t1.cx.isMeaningful (.location n) = true := fun hr =>
      ih2.before ((((leaveCount_values hleave).2 _).1 hr).resolve_right hne)
    refine ⟨fun hr => (((enterCount_values henter).2 _).1 (ih1.before (hend hr))).resolve_right hne, ?_⟩
    rintro hr (heq | hchange)
    · exact hne heq.symm
    · refine ih1.unchanged (hend hr) ?_
      obtain ⟨range, inside, -, -, -, rfl⟩ := enterCount_ok henter
      exact hchange
  | interruptsOff body h => exact body.walk_spares hty hfree h hlock
  | @save _ locations batons cx t1 body hset h1 _ =>
    have hvalues := fun hr : (Focus.restore t1.cx batons locations.head?).isMeaningful (.location n) = true =>
      (isMeaningful_restore hset).1 hr
    by_cases hn : .location n ∈ locations
    · simp only [if_pos hn] at hvalues
      refine ⟨fun hr => (hvalues hr).1, ?_⟩
      rintro hr (⟨hnot, -⟩ | ⟨ha, hfirst⟩)
      · exact hnot hn
      · exact hfirst ((hvalues hr).2 ha)
    · simp only [if_neg hn] at hvalues
      have ih := body.walk_spares hty hfree h1 (hlock.of_setAside hset hn)
      have hsame : cx.isMeaningful (.location n) = t.cx.isMeaningful (.location n) := by
        rw [isMeaningful_eq, isMeaningful_eq, (setAside_ok hset).1]
      refine ⟨fun hr => hsame ▸ ih.before (hvalues hr).1, ?_⟩
      rintro hr (⟨-, hchange⟩ | ⟨ha, hfirst⟩)
      · refine ih.unchanged (hvalues hr).1 ?_
        rw [Trail.withContext, getAssoc_congr (assoc_setAside hset).1]
        exact hchange
      · exact hfirst ((hvalues hr).2 ha)
  | @pointInto _ pointer _ _ t1 body henter h1 _ =>
    obtain ⟨-, -, -, rfl⟩ := enterPoint_ok henter
    have ih := body.walk_spares hty hfree h1 hlock
    have hend : (Focus.leavePoint t1.cx pointer).isMeaningful (.location n) = true → t1.cx.isMeaningful (.location n) = true :=
      fun hr => (isMeaningful_forget.1 hr).1
    refine ⟨fun hr => (isMeaningful_forget.1 (ih.before (hend hr))).1, fun hr hchange => ih.unchanged (hend hr) ?_⟩
    rwa [Instr.Changes, pointInto_env] at hchange

/-- What a walk through code leaves of the value of a byte that may not be written to. -/
theorem Block.walk_spares {n : String} (hty : s.typeOf (.location n) = .ok .byte) (hfree : s.isLocal n = false) :
    ∀ (b : Block) {t t' : Trail}, b.walk s t = .ok t' → t.cx.Locks n → t.Spares n (b.Changes s n t.cx.getAssoc) t'
  | .nil _, t, t', h, hlock => by
    cases h
    exact ⟨id, fun _ => id⟩
  | .cons head tail, t, t', h, hlock => by
    obtain ⟨t1, h1, h2⟩ := bind_eq_ok.1 h
    have ih1 := head.walk_spares hty hfree h1 hlock
    have ih2 := tail.walk_spares hty hfree h2 (hlock.of_orderly (head.walk_orderly s h1))
    rw [(head.walk_keeps s h1).assoc] at ih2
    exact ⟨fun hr => ih1.before (ih2.before hr), fun hr hchange =>
      hchange.elim (ih1.unchanged (ih2.before hr)) (ih2.unchanged hr)⟩

end

/-- While the body of an accepted counting loop over a byte that is not local runs, nothing in it changes the byte, be it by
giving it a value, by taking its value away or through a routine that is called, unless the byte is set aside there. Among what may
be written to, the byte is listed at most once, as in a set. -/
theorem Instr.count_body_keeps_counter {s : Setting} {t t' : Trail} {line : Nat} {n : String} {dir : Direction} {final : Const}
    {body : Block} (h : (Instr.count line (.location n) dir final body).walk s t = .ok t')
    (hty : s.typeOf (.location n) = .ok .byte) (hfree : s.isLocal n = false)
    (honce : (t.cx.writeable.map Ref.settled).count (.location n) ≤ 1) : ¬ body.Changes s n t.cx.getAssoc := by
  simp only [Instr.walk, bind_eq_ok, map_eq_ok] at h
  obtain ⟨cx, henter, t₁, h₁, t₂, h₂, cx₂, hleave, -⟩ := h
  have hn := mem_writeable_of_enterCount henter
  obtain ⟨range, inside, -, -, -, rfl⟩ := enterCount_ok henter
  have hlock : Locks { t.cx.putRange (.location n) inside with writeable := t.cx.writeable.erase (.location n) } n :=
    locks_of_erase honce rfl hn
  have hvalue : t₂.cx.isMeaningful (.location n) = true :=
    (leaveCount_values hleave).1 _ (by simp [Ref.leaves]) (Setting.isStorage_of_byte hty hfree)
  have ih₁ := body.walk_spares hty hfree h₁ hlock
  have ih₂ := body.walk_spares hty hfree h₂ (hlock.of_orderly (body.walk_orderly s h₁))
  exact ih₁.unchanged (ih₂.before hvalue)

/-- A routine that spoils the accumulator, and the main routine. -/
def fencedSetting : Setting :=
  ⟨(Symbols.initial.declare "bar" ⟨.builtin, .routine { trashes := [⟨"a", none⟩] }⟩).declare "main" ⟨.builtin, .routine {}⟩, "main", 0⟩

/-- Gives `x` another value. -/
def fencedLoad : Block := .cons (.op 0 (.ld .x (.constant ⟨.byte, 9⟩))) (.nil 0)

/-- Gives `x` another value while it is set aside, and calls the routine if the carry is set. -/
def fenced : Block := .cons (.save 0 [.x] fencedLoad) (.cons (.ifThen 0 .c false (.cons (.call 0 "bar") (.nil 0))) (.nil 0))

/-- The carry has a value, and `x` is zero. -/
def fencedStart : Trail :=
  ⟨{ ranges := ⟨[(.c, .ofInts (0, 1)), (.x, .ofInts (0, 0))]⟩, writeable := [.a, .x, .z, .n] }, [], []⟩

theorem fenced_keeps_counter :
    ((Instr.count 0 .x .up ⟨.byte, 3⟩ fenced).walk fencedSetting fencedStart).isOk = true
      ∧ fencedLoad.Changes fencedSetting "x" fencedStart.cx.getAssoc
      ∧ ¬ fenced.Changes fencedSetting "x" fencedStart.cx.getAssoc := by
  have hruns : ((Instr.count 0 .x .up ⟨.byte, 3⟩ fenced).walk fencedSetting fencedStart).isOk = true := by decide +kernel
  obtain ⟨t', h⟩ := isOk_iff.1 hruns
  refine ⟨hruns, .inl ?_, Instr.count_body_keeps_counter h rfl rfl (by decide)⟩
  simp [Instr.Changes, Op.settled, Op.mapRefs, Op.sets, Ref.settled, Ref.x]

end CheckedAsm
