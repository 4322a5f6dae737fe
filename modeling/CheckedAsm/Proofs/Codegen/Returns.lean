import CheckedAsm.Proofs.Codegen.Changes
import CheckedAsm.Proofs.Values.Programs
/-! # What routines change

The code of a routine runs as that of its body, but for its end: there is a return after it, or the call that comes last is a
jump, so that the routine that is called returns in its place. When control is back at the caller, only what the routine
declares has changed, and what changes unnoticed. -/

namespace CheckedAsm

open Codegen List

variable {ks : List Code} {σ σ' : Cpu} {s : Status} {cs : CodeSetting} {id : LabelId} {e : Emitter} {symbols : Symbols}
  {r : Routine} {body : Block} {sig : Signature} {t : Trail} {p : Program} {roster : Option (List (List String))} {L : Layout}
  {labels : LabelMap} {next : Option String} {st st' : CodeState}

/-- The state when control is back at the caller: after a return, or when the routine returns that was jumped to. -/
def Status.back? (h : Host) : Status → Option Cpu
  | here _ _ => none
  | left target σ => h.callee target σ
  | returned σ => some σ

section

variable {T T0 : Text} {h : Host} {pc q : Int} {ks' : List Code} {pre : List Item}

/-! ### The end of a routine -/

theorem fetchFrom_concat (p pc : Int) (xs : List Code) (k : Code) :
    fetchFrom p ((xs ++ [k]).map Code.item) pc
      = if pc = p + Code.room xs then some k.item else fetchFrom p (xs.map Code.item) pc := by
  induction xs generalizing p with
  | nil => simp [fetchFrom]
  | cons d xs ih =>
    have hd := d.size_pos
    have hx := Code.room_nonneg xs
    rw [cons_append, map_cons, fetchFrom, map_cons, fetchFrom, Item.width_item, Code.room_cons]
    by_cases hpc : pc = p
    · rw [if_pos hpc, if_neg (by omega), if_pos hpc]
    · rw [if_neg hpc, if_neg hpc, ih, Int.add_assoc]

/-- The first text is the second but for its end, at the given address: what comes there is a return, or what came last
has become a jump or is left out. -/
structure Text.Ends (T T0 : Text) (q : Int) : Prop where
  start : T.start = T0.start
  inner : T.inner = T0.inner
  ended : T0.fetch q = none
  fetch : ∀ pc, T.fetch pc = T0.fetch pc ∨ (pc = q ∧ T.fetch pc = some (Code.item ⟨.rts, .implied⟩))
    ∨ ∃ k : Code, T0.fetch pc = some k.item ∧ k.mnemonic.isTransfer = true ∧ pc + k.size = q
      ∧ (T.fetch pc = none ∨ (k.mnemonic = .jsr ∧ T.fetch pc = some (Code.item ⟨.jmp, k.operand⟩)))

theorem Text.ends_of_endsAs (hstart : T.start = T0.start) (hinner : T.inner = T0.inner) (hbody : T0.items = ks.map Code.item)
    (hitems : T.items = ks'.map Code.item) (h : EndsAs next pre ks ks') : T.Ends T0 (T0.start + Code.room ks) := by
  refine ⟨hstart, hinner, ?_, fun pc => ?_⟩
  · rw [fetch, hbody]
    exact fetchFrom_past _ _ _ (le_rfl)
  · unfold fetch
    rw [hstart, hitems, hbody]
    have hroom : ∀ (xs : List Code) (k : Code), T0.start + Code.room xs + k.size = T0.start + Code.room (xs ++ [k]) := by
      intro xs k
      rw [Code.room_append, Code.room_cons, Code.room_nil, Int.add_zero, Int.add_assoc]
    cases h with
    | returning =>
      rw [fetchFrom_concat]
      split
      case isTrue hpc => exact .inr (.inl ⟨hpc, rfl⟩)
      case isFalse => exact .inl rfl
    | nothing hks => exact .inl (by rw [hks])
    | @jumping xs k hks hk =>
      rw [hks, fetchFrom_concat, fetchFrom_concat]
      split
      case isTrue hpc =>
        obtain ⟨m, o⟩ := k
        obtain rfl | rfl := Mnemonic.isTransfer_cases hk
        · exact .inl rfl
        · exact .inr (.inr ⟨⟨.jsr, o⟩, rfl, hk, hpc ▸ hroom xs _, .inr ⟨rfl, rfl⟩⟩)
      case isFalse => exact .inl rfl
    | @falling _ k hks hk =>
      rw [hks, fetchFrom_concat]
      split
      case isTrue hpc =>
        exact .inr (.inr ⟨k, rfl, hk, hpc ▸ hroom ks' k, .inl (fetchFrom_past _ _ _ (Int.le_of_eq hpc.symm))⟩)
      case isFalse => exact .inl rfl

theorem mem_of_fetchFrom {p : Int} {k : Code} (h : fetchFrom p (ks.map Code.item) pc = some k.item) : k ∈ ks := by
  induction ks generalizing p with
  | nil => cases h
  | cons d ks ih =>
    rw [map_cons, fetchFrom] at h
    split at h
    · obtain rfl := Code.item_inj (Option.some.inj h)
      exact mem_cons_self
    · exact mem_cons_of_mem d (ih h)

theorem Text.step_congr (hinner : T.inner = T0.inner) (hfetch : T.fetch pc = T0.fetch pc) :
    T.step h (.here pc σ) = T0.step h (.here pc σ) := by
  simp only [step, perform, jump, hfetch, hinner]

/-- A routine comes back where its body comes to its end, or where the body is left and the routine it is left for comes back;
or where the body itself returns. -/
theorem Text.back_of_ends (hends : T.Ends T0 q)
    (hcalls : ∀ pc o, T0.fetch pc = some (Code.item ⟨.jsr, o⟩) → ∃ id, o = .wide id ∧ T0.inner id = false)
    (hr : T.Reaches h (.here pc σ) s) (hback : s.back? h = some σ') :
    (∃ out : Outcome, T0.Reaches h (.here pc σ) (out.status q) ∧ out.back? h = some σ')
      ∨ T0.Reaches h (.here pc σ) (.returned σ') := by
  obtain ⟨n, rfl⟩ := hr
  induction n generalizing pc σ with
  | zero => cases hback
  | succ n ih =>
    rcases hends.fetch pc with hsame | ⟨rfl, hrts⟩ | ⟨k, hk, -, hpc, hnone | ⟨hj, hjmp⟩⟩
    · rw [run, step_congr hends.inner hsame] at hback
      cases hs : T0.step h (.here pc σ) with
      | here pc' τ =>
        rw [hs] at hback
        rcases ih hback with ⟨out, hreach, hout⟩ | hreach
        · exact .inl ⟨out, .step hs hreach, hout⟩
        · exact .inr (.step hs hreach)
      | left o τ =>
        rw [hs, run_of_not_inside (by rintro ⟨_, _, hin, -⟩; cases hin)] at hback
        exact .inl ⟨.left o τ, .step hs (.refl _), hback⟩
      | returned τ =>
        rw [hs, run_of_not_inside (by rintro ⟨_, _, hin, -⟩; cases hin)] at hback
        cases hback
        exact .inr (.step hs (.refl _))
    · have hreturn : T.step h (.here pc σ) = .returned σ := by
        rw [step_of_fetch (c := ⟨.rts, .implied⟩) hrts]
        rfl
      rw [run, hreturn, run_of_not_inside (by rintro ⟨_, _, hin, -⟩; cases hin)] at hback
      cases hback
      exact .inl ⟨.done σ', .refl _, rfl⟩
    · -- past its end a routine does nothing
      rw [run_of_not_inside] at hback
      · cases hback
      · rintro ⟨_, _, hin, hf⟩
        cases hin
        cases hnone ▸ hf
    · -- the routine that is called comes back to the caller, and in the body to the end
      obtain ⟨m, o⟩ := k
      obtain rfl : m = .jsr := hj
      obtain ⟨id, rfl, hid⟩ := hcalls pc o hk
      have hjump : T.step h (.here pc σ) = .left (.wide id) σ := by
        rw [step_of_fetch (c := ⟨.jmp, .wide id⟩) hjmp]
        simp [perform, Mnemonic.taken?, jump, Operand.wide, hends.inner, hid]
      rw [run, hjump, run_of_not_inside (by rintro ⟨_, _, hin, -⟩; cases hin)] at hback
      have hcallee : h.callee (.wide id) σ = some σ' := hback
      have hcall : T0.step h (.here pc σ) = .here q σ' := by
        rw [step_of_fetch (c := ⟨.jsr, .wide id⟩) hk, ← hpc]
        simp only [perform, Mnemonic.taken?]
        rw [hcallee]
      exact .inl ⟨.done σ', .step hcall (.refl _), rfl⟩

/-- Where the code of a body does what a meaning says, a routine comes back only as the meaning ends. -/
theorem Text.ends_of_back {M : Meaning} (hends : T.Ends T0 q)
    (hcalls : ∀ pc o, T0.fetch pc = some (Code.item ⟨.jsr, o⟩) → ∃ id, o = .wide id ∧ T0.inner id = false)
    (hM : T0.Realises h T0.start q M) (hr : T.Reaches h (.here T0.start σ) s)
    (hback : s.back? h = some σ') : ∃ out : Outcome, M.ends σ out ∧ out.back? h = some σ' := by
  have hq : ∀ τ, ¬ T0.Inside (.here q τ) := by
    rintro τ ⟨pc, τ', hs, hf⟩
    cases hs
    cases hends.ended ▸ hf
  have hexact := hM.exact hq σ
  rcases back_of_ends hends hcalls hr hback with ⟨out, hreach, hout⟩ | hreach
  · exact ⟨out, (hexact.1 out).1 hreach, hout⟩
  · -- the code of a body has no returns
    have hstop : ¬ T0.Inside (.returned σ') := by
      rintro ⟨pc, τ, hs, -⟩
      cases hs
    rcases hM.total σ with ⟨out, hend⟩ | hdiverges
    · have hsame := hreach.unique (hM.ends σ out hend) hstop ?_
      · cases out <;> cases hsame
      · cases out with
        | done τ => exact hq τ
        | left o τ =>
          rintro ⟨pc, τ, hs, -⟩
          cases hs
    · exact (not_lasts_of_reaches hreach hstop (hM.lasts σ hdiverges)).elim

end

/-- The code of a routine is that of its body but for the end. -/
theorem Codegen.routine_ends (hbody : r.body = some body) (h : routine symbols labels st r next = .ok st') :
    ∃ id st1 e, CodeSetting.label ⟨symbols, labels, some r.name⟩ r.name = .ok id
      ∧ body.compile ⟨symbols, labels, some r.name⟩ (st.resolve id) = .ok st1
      ∧ st' = st1.withEmitter e ∧ e.labels = st1.emitter.labels
      ∧ (Text.between st.emitter st'.emitter).Ends (Text.between (st.resolve id).emitter st1.emitter) st1.emitter.addr := by
  obtain ⟨id, st1, e, hid, hc, hf, rfl⟩ := routine_code hbody h
  have hlabels : e.labels = st1.emitter.labels := finish_labels hf
  obtain ⟨ks, hs, -⟩ := body.spans _ _ hc
  obtain ⟨ks', hitems, hends⟩ := routine_endsAs hs hf
  have hinner : (Text.between st.emitter e).inner = (Text.between (st.resolve id).emitter st1.emitter).inner := by
    have hsize : (st.resolve id).emitter.labels.size = st.emitter.labels.size := Emitter.size_resolve
    simp only [Text.between, hlabels, hsize]
  refine ⟨id, st1, e, hid, hc, rfl, hlabels, ?_⟩
  rw [hs.adds.addr_eq hs.items]
  exact Text.ends_of_endsAs rfl hinner (Text.between_items hs.items) hitems hends

theorem CodeSetting.entry_wide {trampolines : Assoc String LabelId} {target : String}
    (h : cs.entry trampolines target = some (.wide id)) : cs.label target = .ok id ∨ trampolines.get? target = some id := by
  unfold entry at h
  split at h
  · next hlabel _ =>
    cases h
    exact .inl hlabel
  · obtain ⟨id', hid, heq⟩ := Option.map_eq_some_iff.1 h
    cases heq
    exact .inr hid
  · cases h

/-- A routine that is laid out has the code of its body but for the end. The labels in it are where they are in the end, those of
routines stand elsewhere, and calls go elsewhere. -/
theorem Program.Lays.of_body (hlays : p.Lays symbols (roster.getD (defaultRoster p.routines)) e r next st st')
    (hL : p.layOut symbols roster e = .ok L) (hbody : r.body = some body) :
    let cs : CodeSetting := ⟨symbols, L.labels, some r.name⟩
    ∃ id st1 e', cs.label r.name = .ok id ∧ body.compile cs (st.resolve id) = .ok st1 ∧ st' = st1.withEmitter e'
      ∧ let T0 := Text.between (st.resolve id).emitter st1.emitter
        (Text.between st.emitter st'.emitter).Ends T0 st1.emitter.addr
          ∧ (∀ callee, Host.Completes ⟨L.emitter.labels, st1.trampolines, callee⟩ (st.resolve id) st1)
          ∧ (∀ name id', cs.label name = .ok id' → T0.inner id' = false)
          ∧ ∀ pc o, T0.fetch pc = some (Code.item ⟨.jsr, o⟩) → ∃ id', o = .wide id' ∧ T0.inner id' = false := by
  obtain ⟨n, hbelow, hst, hst', hsettles, hroutine⟩ := hlays.settles hL
  obtain ⟨id, st1, e', hid, hc, rfl, hlabels, hends⟩ := routine_ends hbody hroutine
  obtain ⟨ks, hs, -⟩ := body.spans _ _ hc
  have hsize : (st.resolve id).emitter.labels.size = st.emitter.labels.size := Emitter.size_resolve
  have hout : ∀ name id', CodeSetting.label ⟨symbols, L.labels, some r.name⟩ name = .ok id' →
      (Text.between (st.resolve id).emitter st1.emitter).inner id' = false := by
    intro name id' hid'
    simp [Text.between, hsize, Nat.not_le_of_lt ((hbelow.label hid').trans_le hst.size)]
  refine ⟨id, st1, e', hid, hc, rfl, hends, fun callee => ⟨fun id' a hid' ha => ?_, fun v id' hv => hv⟩, hout, fun pc o ho => ?_⟩
  · rw [hsize] at hid'
    exact hsettles id' a (hst.size.trans hid') (by rwa [← hlabels] at ha)
  · rw [Text.fetch, Text.between_items hs.items] at ho
    obtain ⟨target, id', rfl, hentry⟩ := (hs.leads _ (mem_of_fetchFrom ho)).call rfl
    refine ⟨id', rfl, ?_⟩
    rcases CodeSetting.entry_wide hentry with hlabel | htrampoline
    · exact hout target id' hlabel
    · -- a trampoline has no address yet
      obtain ⟨-, -, hnone⟩ := hst'.trampolines target id' (Assoc.mem_of_get? htrampoline)
      have hunplaced : (e'.labels.entry id').addr = none := hnone
      rw [hlabels] at hunplaced
      simp [Text.between, hunplaced]

/-- A routine that is laid out by itself comes back only as the meaning of its body ends. -/
theorem Program.Lays.ends_of_back {callee : Operand → Cpu → Option Cpu}
    (hlays : p.Lays symbols (roster.getD (defaultRoster p.routines)) e r none st st') (hL : p.layOut symbols roster e = .ok L)
    (hbody : r.body = some body)
    (hr : (Text.between st.emitter st'.emitter).Reaches ⟨L.emitter.labels, st'.trampolines, callee⟩ (.here st.emitter.addr σ) s)
    (hback : s.back? ⟨L.emitter.labels, st'.trampolines, callee⟩ = some σ') :
    ∃ out : Outcome,
      (body.meaning ⟨symbols, L.labels, some r.name⟩ ⟨L.emitter.labels, st'.trampolines, callee⟩ st.pointers).ends σ out
        ∧ out.back? ⟨L.emitter.labels, st'.trampolines, callee⟩ = some σ' := by
  obtain ⟨id, st1, e', -, hc, rfl, hends, hcompletes, hout, hcalls⟩ := hlays.of_body hL hbody
  have hM := body.realises hout _ _ _ hc (fun _ _ hp => hp) (Text.hosts_between (hcompletes callee))
  exact Text.ends_of_back hends hcalls hM hr hback

/-! ### What routines change -/

/-- Where control comes to the end of the body of a routine with jumps, only what is declared was touched. The analysis does
not look at this end. -/
def Routine.EndsDeclared (symbols : Symbols) (r : Routine) (sig : Signature) : Prop :=
  ∀ exits, (r.analyse symbols).1 = some exits → exits.jumps ≠ [] → exits.last.terminated = false →
    ∀ q ∈ exits.last.touched, sig.Allows (r.setting symbols) q

/-- The walk through a routine starts with its outputs and what it trashes to write to. -/
theorem Routine.walk_rights {s : Setting} (h : Routine.walk s sig body = .ok t) :
    ∃ cx : Context, body.walk s { cx } = .ok t ∧ cx.terminated = false ∧ cx.getAssoc = (fun _ => none) ∧ cx.writeable.Nodup
      ∧ ∀ r ∈ cx.writeable, sig.Allows s r := by
  simp only [Routine.walk, bind_eq_ok] at h
  obtain ⟨cx0, hstart, cx, hstatics, hwalk⟩ := h
  obtain ⟨-, -, hgo, -, hassoc, -⟩ := Context.start_values hstart
  obtain ⟨hnodup, hwriteable⟩ := Context.start_writeable hstart
  obtain ⟨same, -⟩ := startStatics_values hstatics
  refine ⟨cx, hwalk, same.terminated.trans hgo, ?_, same.writeable ▸ hnodup, fun r hr => ?_⟩
  · exact (Context.getAssoc_congr (same.assoc.trans hassoc) : _ = Context.getAssoc { assoc := ⟨[]⟩ })
  · rw [same.writeable] at hr
    exact (hwriteable r hr).imp id .inl

/-- Every path through an accepted routine touches only what is declared or local. -/
theorem Routine.touched_declared {cx cx' : Context} {log : Log} {live : Set Ref} {o : Ending (Set Ref)}
    (hends : r.EndsDeclared symbols sig) (hexits : (r.analyse symbols).1 = some ⟨r.setting symbols, t.cx, t.exits⟩)
    (hwalk : Routine.walk (r.setting symbols) sig body = .ok t) (hcheck : Routine.check (r.setting symbols) sig t = .ok cx')
    (hbody : body.walk (r.setting symbols) { cx } = .ok t) (hgo : cx.terminated = false)
    (hlive : cx.HeldIn live) (hpath : body.Paths (r.setting symbols) cx.getAssoc live log o) : ∀ q ∈ log.touched, sig.Allows (r.setting symbols) q := by
  obtain ⟨hjumps, hend⟩ := Routine.exits_honoured hwalk hcheck
  intro q hq
  rcases (body.covers _ hbody hgo hlive hpath).2.2.2 q hq with ⟨hgo', hq⟩ | ⟨cx1, hcx1, hq⟩
  · by_cases hnone : t.exits = []
    · exact (hend hnone).touched q hq
    · exact hends _ hexits hnone hgo' q hq
  · exact (hjumps cx1 hcx1).touched q hq

/-- Every routine with a body is laid out by itself, unless a roster says otherwise. Run the code of a routine after which nothing
follows in its chain from its first instruction on. When control is back at the caller, at most these registers, flags and bytes
are different: what the routine declares to set or to trash, its own locations, what called routines keep for themselves, and the
registers and flags that change unnoticed at the end of a counting loop, where bytes are set aside and where a pointer is set.
Interrupts are held off as before, unless the routine or a called one holds them off.

Called routines have to respect what they declare, stores by an index and through a pointer have to stay inside the table, and a
routine with jumps has to touch only what it declares also where it does not jump. -/
theorem Program.writes_declared (symbols : Symbols) (p : Program) (all : List Analysed) (roster : Option (List (List String)))
    (e : Emitter) (L : Layout) (haccepted : (p.analyse symbols).2 = .ok all) (hL : p.layOut symbols roster e = .ok L)
    (hspares : ∀ name ∈ Symbols.builtins.map Prod.fst, p.Spares name) (r : Routine)
    (hr : findRoutine p.routines r.name = .ok r) (body : Block) (hbody : r.body = some body) (sig : Signature)
    (hsig : symbols.routine? r.name = some sig) (hends : r.EndsDeclared symbols sig) :
    (roster = none → ∃ st st', p.Lays symbols (defaultRoster p.routines) e r none st st')
      ∧ ∀ st st', p.Lays symbols (roster.getD (defaultRoster p.routines)) e r none st st' →
        ∀ (callee : Operand → Cpu → Option Cpu) (kept : Set Int) (I : Prop),
          let cs : CodeSetting := ⟨symbols, L.labels, some r.name⟩
          let h : Host := ⟨L.emitter.labels, st'.trampolines, callee⟩
          h.Respects cs (r.setting symbols) kept I → ∀ σ, body.Bounded cs h (fun _ => none) st.pointers σ →
            ∀ s σ', (Text.between st.emitter st'.emitter).Reaches h (.here st.emitter.addr σ) s → s.back? h = some σ' →
              σ.Keeps {q | sig.Allows (r.setting symbols) q ∨ q ∈ body.hidden}
                (cs.footprint h.labels {q | sig.Allows (r.setting symbols) q} ∪ kept) (I ∨ body.masks = true) σ' := by
  refine ⟨fun hdefault => Program.exists_lays (hdefault ▸ hL) hr, ?_⟩
  intro st st' hlays callee kept I cs h hrespects σ hbounded s σ' hreach hback
  obtain ⟨out, hend, hout⟩ := hlays.ends_of_back hL hbody hreach hback
  obtain ⟨facts, hfacts⟩ := Program.analyse_ok haccepted (findRoutine_name hr).2
  obtain ⟨t, cx', hwalk, hcheck, hexits⟩ := Routine.accepted_walk hfacts hbody hsig
  obtain ⟨cx, hwalked, hgo, hassoc, hnodup, hwriteable⟩ := Routine.walk_rights hwalk
  have hagrees : cs.Agrees (r.setting symbols) := fun _ => rfl
  have hnames : cs.Unlabelled := by
    obtain ⟨e₁, ps, stend, hplaced, -⟩ := Program.layOut_stages hL
    intro q hq id
    obtain ⟨entry, hentry, rfl⟩ := mem_map.1 hq
    exact (hspares entry.1 (mem_map_of_mem hentry)).unlabelled hplaced id
  have hfollows := body.runs_along hagrees hnames hrespects st.pointers hwalked hgo hnodup
  obtain ⟨log, after, hpath, hconfines⟩ := hfollows σ out (by rw [hassoc]; exact hbounded) hend {q | cx.isMeaningful q = true}
  have htouched := Routine.touched_declared hends hexits hwalk hcheck hwalked hgo (fun _ hq => hq) hpath
  have hkeeps : cs.Confines h.labels kept (I ∨ body.masks = true)
      {q | sig.Allows (r.setting symbols) q ∨ q ∈ body.hidden} σ σ' := by
    refine (hconfines σ' hout).mono ?_
    rintro q (hq | hq | hq)
    · exact .inl (htouched q hq)
    · exact .inl (hwriteable q hq)
    · exact .inr hq
  refine Cpu.Keeps.mono hkeeps (fun _ hq => hq) (Set.union_subset_union_left kept ?_) id
  -- what changes unnoticed has no bytes
  rintro q ⟨r', hr' | hr', hq⟩
  · exact ⟨r', hr', hq⟩
  · obtain ⟨id, -, hid, -⟩ := hq
    exact (hnames r' (body.hidden_registers r' hr') id hid).elim

/-! ### Counting loops -/

/-- A processor in which all is zero and off, but for the first index register. -/
def restingCpu : Cpu := ⟨0, 7, 0, false, false, false, false, false, [], fun _ => 0⟩

/-- Sets `x` aside, counts with it, and at last calls a routine. -/
def countAside : Block :=
  .cons (.save 0 [.x] (.cons (.op 0 (.ld .x (.constant ⟨.byte, 0⟩)))
      (.cons (.count 0 .x .up ⟨.byte, 2⟩ (.nil 0)) (.nil 0))))
    (.cons (.call 0 "foo") (.nil 0))

/-- The index register that was set aside is as it was, also when the routine called last has returned; so are the other index
register and the overflow flag, and interrupts are held off as before. -/
theorem countAside_writes_declared :
    ((spoilingProgram countAside).analyse spoilingSymbols).2.isOk = true
      ∧ ∃ L, (spoilingProgram countAside).layOut spoilingSymbols none (.startingAt 0) = .ok L
        ∧ ∃ st st', (spoilingProgram countAside).Lays spoilingSymbols [["main"], ["foo"]] (.startingAt 0)
          ⟨0, "main", none, [], some countAside, false⟩ none st st'
          ∧ ∃ s σ', (Text.between st.emitter st'.emitter).Reaches ⟨L.emitter.labels, st'.trampolines, fun _ => some⟩
              (.here st.emitter.addr restingCpu) s
            ∧ s.back? ⟨L.emitter.labels, st'.trampolines, fun _ => some⟩ = some σ'
            ∧ σ'.x = restingCpu.x ∧ σ'.y = restingCpu.y ∧ σ'.v = restingCpu.v ∧ σ'.masked = restingCpu.masked := by
  have hspares : ∀ name ∈ Symbols.builtins.map Prod.fst, (spoilingProgram countAside).Spares name := by
    simp [Symbols.builtins, Program.Spares, spoilingProgram]
  have hends : Routine.EndsDeclared spoilingSymbols ⟨0, "main", none, [], some countAside, false⟩
      { spoiling with inputs := [⟨"c", none⟩] } := by
    intro exits hexits hjumps
    cases hexits
    exact (hjumps rfl).elim
  have hdirect : ∀ op ∈ countAside.ops, ∀ d, op.dest? = some d → d.reach = [] := by
    simp [countAside, Block.ops, Instr.ops, Op.settled, Op.mapRefs, Op.dest?, Ref.reach, Ref.settled, Ref.x]
  have hnot : ∀ q ∈ [Ref.x, .y, .v], ¬ (Signature.Allows ⟨spoilingSymbols, "main", 0⟩
      { spoiling with inputs := [⟨"c", none⟩] } q ∨ q ∈ countAside.hidden) := by
    unfold Signature.Allows
    decide
  refine ⟨rfl, _, rfl, _, _, ⟨_, _, _, [], [("foo", none)], rfl, rfl, rfl, rfl, rfl⟩, _, _, ⟨15, rfl⟩, rfl, ?_⟩
  have hkeeps := (Program.writes_declared spoilingSymbols (spoilingProgram countAside) _ none (.startingAt 0) _ rfl rfl hspares
    ⟨0, "main", none, [], some countAside, false⟩ rfl countAside rfl _ rfl hends).2 _ _
    ⟨_, _, _, [], [("foo", none)], rfl, rfl, rfl, rfl, rfl⟩ (fun _ => some) ∅ False (fun _ _ _ _ σ _ _ _ _ hcallee => by
      cases hcallee
      exact Cpu.Keeps.refl σ)
    restingCpu (countAside.bounded_of_direct _ _ _ hdirect) _ _ ⟨15, rfl⟩ rfl
  exact ⟨hkeeps.x (hnot _ (by decide)), hkeeps.y (hnot _ (by decide)), hkeeps.v (hnot _ (by decide)),
    hkeeps.masked (by decide)⟩

/-- Counts with `x`. -/
def countUp : Block :=
  .cons (.op 0 (.ld .x (.constant ⟨.byte, 0⟩))) (.cons (.count 0 .x .up ⟨.byte, 1⟩ (.nil 0)) (.nil 0))

/-- A main routine that sets `x`. -/
def countingSymbols : Symbols := Symbols.initial.declare "main" ⟨.builtin, .routine settingSignature⟩

/-- The main routine that counts. -/
def counting : Routine := ⟨0, "main", none, [], some countUp, false⟩

/-- A routine that counts with `x` is accepted without the carry being declared, although the comparison at the end of the loop
changes it. -/
theorem countUp_changes_carry :
    (Program.analyse countingSymbols { routines := [counting] }).2.isOk = true
      ∧ ∃ L, Program.layOut countingSymbols { routines := [counting] } none (.startingAt 0) = .ok L
        ∧ ∃ st st', Program.Lays countingSymbols { routines := [counting] } [["main"]] (.startingAt 0) counting none st st'
          ∧ ∃ σ', (Text.between st.emitter st'.emitter).Reaches ⟨L.emitter.labels, st'.trampolines, fun _ _ => none⟩
              (.here st.emitter.addr restingCpu) (.returned σ')
            ∧ σ'.c ≠ restingCpu.c ∧ ¬ settingSignature.Allows (counting.setting countingSymbols) .c := by
  refine ⟨rfl, _, rfl, _, _, ⟨_, _, _, [], [], rfl, rfl, rfl, rfl, rfl⟩, _, ⟨8, rfl⟩, by decide, ?_⟩
  unfold Signature.Allows
  decide

end CheckedAsm
