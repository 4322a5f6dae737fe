import CheckedAsm.Proofs.Values.CodeTypes
import CheckedAsm.Proofs.Values.Routines
/-! # Values in whole programs

In an accepted program that starts with values in the inputs of its main routine, in all static locations and in the
definitions with initial values, every use that the analysis looks at is of a value, in whatever routine it comes to
pass. The analysis promises this routine by routine; what it leaves open is stated as a condition. A routine with jumps
has to honour its declaration also where control comes to its end. Static locations have to hold values again when
their routine is left. A routine that is copied into a vector has to set all that the vector promises. Names of
locations of a routine's own must not appear in types. And no routine with such locations may be entered while it
waits. -/

namespace CheckedAsm

open Context List Routine Setting

variable {sig : Signature} {name : String} {r : Routine} {facts : Facts} {body : Block} {st : Storage} {p : Program}

variable {symbols : Symbols} {s : Setting} {active : List String}

/-! ### One routine -/

/-- What the analysis of a routine leaves open. -/
structure Routine.Regular (symbols : Symbols) (r : Routine) : Prop where
  ends : ∀ exits sig, (r.analyse symbols).1 = some exits → symbols.routine? r.name = some sig →
    exits.last.terminated = false → exits.last.Honours (r.setting symbols) sig
  statics : ∀ exits, (r.analyse symbols).1 = some exits → ∀ q ∈ symbols.statics r.name,
    (∀ cx ∈ exits.jumps, cx.isMeaningful q = true)
      ∧ (exits.last.terminated = false → exits.last.isMeaningful q = true)
  delivers : ∀ body, r.body = some body → ∀ op ∈ body.ops, (r.setting symbols).Delivers op

theorem Symbols.globalType?_of_routine? (h : symbols.routine? name = some sig) :
    symbols.globalType? name = some (.routine sig) := by
  unfold routine? at h
  split at h
  · next heq => rw [heq, Option.some.inj h]
  · cases h

/-- What the type of a routine mentions is not local. -/
theorem Symbols.Apart.routine_not_local {o : Slot} (hapart : s.symbols.Apart)
    (hsig : s.symbols.routine? name = some sig) (ho : o ∈ sig.inputs ++ sig.outputs ++ sig.trashes) :
    s.isLocal (Ref.ofSlot o).name = false := by
  rw [Ref.name_ofSlot]
  cases hlocal : s.isLocal o.name with
  | false => rfl
  | true =>
    have hty := Symbols.globalType?_of_routine? hsig
    exact absurd (mem_map_of_mem ho) ((hapart s.routine o.name hlocal).1 name _ hty)

/-- The walk through an accepted routine, and the exits it has recorded. -/
theorem Routine.accepted_walk (haccepted : (r.analyse symbols).2 = .ok facts) (hbody : r.body = some body)
    (hsig : symbols.routine? r.name = some sig) :
    ∃ t cx, Routine.walk (r.setting symbols) sig body = .ok t ∧ Routine.check (r.setting symbols) sig t = .ok cx
      ∧ (r.analyse symbols).1 = some ⟨r.setting symbols, t.cx, t.exits⟩ := by
  obtain ⟨sig', t, hsig', hwalk, cx, hcheck⟩ := analyse_ok haccepted hbody
  obtain rfl : sig' = sig := by
    simpa [Setting.globalType, Routine.setting, Symbols.globalType?_of_routine? hsig, eq_comm] using hsig'
  refine ⟨t, cx, hwalk, hcheck, ?_⟩
  simp only [Routine.analyse, hbody, hsig', hwalk]

/-- A routine without jumps and without static locations is regular, as far as its copies deliver. -/
theorem Routine.regular_of_jumpFree
    (haccepted : (r.analyse symbols).2 = .ok facts) (hbody : r.body = some body) (hfree : body.isJumpFree = true)
    (hstatics : symbols.statics r.name = ∅) (hdelivers : ∀ op ∈ body.ops, (r.setting symbols).Delivers op) :
    r.Regular symbols := by
  refine ⟨fun exits sig hexits hsig _ => ?_, fun _ _ q hq => ?_, fun b hb op hop => ?_⟩
  · obtain ⟨t, cx, hwalk, hcheck, hexits'⟩ := accepted_walk haccepted hbody hsig
    obtain rfl := Option.some.inj (hexits'.symm.trans hexits)
    obtain ⟨-, hend⟩ := exits_honoured hwalk hcheck
    obtain ⟨cx0, hwalk, -⟩ := walk_start hwalk
    exact hend (body.walk_jumpFree _ hwalk hfree).exits
  · rw [hstatics] at hq
    cases hq
  · obtain rfl := Option.some.inj (hb.symm.trans hbody)
    exact hdelivers op hop

/-- Along every path through a routine, what is used holds a value, the outputs and the static locations hold values
where it is left, and only what is declared or local is touched. -/
theorem Routine.Regular.paths_declared
    (hregular : r.Regular symbols) (haccepted : (r.analyse symbols).2 = .ok facts) (hbody : r.body = some body)
    (hsig : symbols.routine? r.name = some sig) {log : Log} {o : Ending (Set Ref)}
    (hpath : body.Paths (r.setting symbols) (fun _ => none) ((r.setting symbols).entryValues sig) log o) :
    log.Held
      ∧ (∀ after, o = .done after ∨ o = .left after →
        (∀ out ∈ sig.outputs, Ref.ofSlot out ∈ after) ∧ (r.setting symbols).statics ⊆ after)
      ∧ ∀ q ∈ log.touched, sig.Allows (r.setting symbols) q := by
  obtain ⟨t, cx', hwalk, hcheck, hexits⟩ := accepted_walk haccepted hbody hsig
  have hstatics := hregular.statics _ hexits
  have hend := hregular.ends _ sig hexits hsig
  obtain ⟨hjumps, -⟩ := exits_honoured hwalk hcheck
  obtain ⟨cx, hwalk, hgo, -, hassoc, hvalues, -⟩ := walk_start hwalk
  rw [← hassoc] at hpath
  obtain ⟨huses, hdone, hleft, htouched⟩ := body.covers _ hwalk hgo (fun q hq => (hvalues q).1 hq) hpath
  refine ⟨huses, ?_, fun q hq => ?_⟩
  · rintro after (ho | ho)
    · obtain ⟨hgo', hheld⟩ := hdone after ho
      exact ⟨fun out hout => hheld _ ((hend hgo').outputs out hout), fun q hq => hheld q ((hstatics q hq).2 hgo')⟩
    · obtain ⟨-, cx1, hcx1, hheld⟩ := hleft after ho
      exact ⟨fun out hout => hheld _ ((hjumps cx1 hcx1).outputs out hout),
        fun q hq => hheld q ((hstatics q hq).1 cx1 hcx1)⟩
  · rcases htouched q hq with ⟨hgo', hq⟩ | ⟨cx1, hcx1, hq⟩
    · exact (hend hgo').touched q hq
    · exact (hjumps cx1 hcx1).touched q hq

/-! ### Leaving a routine -/

section Leaving

variable {st' : Storage} {values : Set Ref} {touched : List Ref}

/-- Once a routine has come to its end it does not wait any more. -/
theorem Setting.Lands.leave (h : s.Lands (s.routine :: active) values touched st st') (hstatics : s.statics ⊆ values) :
    s.Lands active values touched st st' := by
  have hsub := subset_cons_self s.routine active
  refine ⟨fun r hr hg => h.values r hr (hg.mono hsub), h.typed, fun q hq r hr => ?_, h.kept.mono hsub (List.Subset.refl _)⟩
  by_cases hq' : q = s.routine
  · subst hq'
    exact holder_of_mem_statics hr ▸ h.view (hstatics hr)
  · exact h.ready q (by simp [hq, hq']) r hr

/-- A routine that is left with values in its outputs and has touched only what it may has kept to its signature. -/
theorem Setting.Lands.met (h : s.Lands active values touched st st') (hapart : s.symbols.Apart)
    (hsig : s.symbols.routine? name = some sig) (hfresh : s.routine ∈ active → ∀ name, s.isLocal name = false)
    (houtputs : ∀ out ∈ sig.outputs, Ref.ofSlot out ∈ values) (htouched : ∀ r ∈ touched, sig.Allows s r) :
    sig.Met s.symbols active st st' := by
  have hglobal : ∀ o ∈ sig.outputs ++ sig.trashes, s.holder (.ofSlot o) = .global (.ofSlot o) := by
    intro o ho
    refine holder_of_not_local (hapart.routine_not_local hsig ?_)
    rw [append_assoc]
    exact mem_append_right _ ho
  refine ⟨h.typed, h.ready, fun r hr _ => ?_, fun k hg hnot hk => h.kept k hg (fun hmem => ?_) hk⟩
  · obtain ⟨o, ho, rfl⟩ := mem_map.1 hr
    have hlocal := hglobal o (mem_append_left _ ho)
    rw [← hlocal]
    exact h.values _ (houtputs o ho) (.inl (by rw [hlocal]; rfl))
  · obtain ⟨r, hr, rfl⟩ := mem_map.1 hmem
    have hdeclared : ∀ o ∈ sig.outputs ++ sig.trashes, r ≠ .ofSlot o := by
      rintro o ho rfl
      refine hnot ?_
      rw [hglobal o ho]
      exact mem_map_of_mem (mem_map_of_mem ho)
    rcases htouched r hr with hout | htrash | hlocal
    · obtain ⟨o, ho, rfl⟩ := mem_map.1 hout
      exact hdeclared o (mem_append_left _ ho) rfl
    · obtain ⟨o, ho, rfl⟩ := mem_map.1 htrash
      exact hdeclared o (mem_append_right _ ho) rfl
    · -- A location of the routine's own is out of reach, unless the routine waits for itself.
      rcases hg with hscope | ⟨q, hq, hscope, -⟩
      · simp [Setting.holder, hlocal] at hscope
      · rw [holder_scope hscope] at hq
        rw [hfresh hq] at hlocal
        cases hlocal

end Leaving

/-- A routine is entered with values where its analysis takes them to be. -/
theorem Setting.entryValues_subset (hapart : s.symbols.Apart)
    (hsig : s.symbols.routine? name = some sig) (hfresh : s.routine ∈ active → ∀ name, s.isLocal name = false)
    (hready : st.Ready s.symbols active) (hsupplied : sig.Supplied s.symbols st)
    (hconstant : ∀ r ∈ sig.inputs.map Ref.ofSlot, s.isConstant r = .ok false) : s.entryValues sig ⊆ st.view s := by
  rintro r (hr | hr)
  · obtain ⟨o, ho, rfl⟩ := mem_map.1 hr
    have hlocal := hapart.routine_not_local hsig (mem_append_left _ (mem_append_left _ ho))
    have hnot : Setting.isConstant ⟨s.symbols, "", 0⟩ (.ofSlot o) ≠ .ok true := by
      intro htrue
      cases htrue.symm.trans (hconstant _ hr : Setting.isConstant ⟨s.symbols, "", 0⟩ (.ofSlot o) = .ok false)
    change s.holder _ ∈ st.live
    rw [holder_of_not_local hlocal]
    exact hsupplied _ hr hnot
  · have hq : s.routine ∉ active := by
      intro hq
      have hlocal := isLocal_of_mem_statics hr
      rw [hfresh hq] at hlocal
      cases hlocal
    change s.holder r ∈ st.live
    rw [holder_of_mem_statics hr]
    exact hready s.routine hq r hr

/-- An accepted routine keeps to its signature if all code does that it may give control to. -/
theorem Routine.Regular.met {call jump : Executable → Run}
    {inner : Log} {o : Ending Storage} (hregular : r.Regular symbols) (hapart : symbols.Apart)
    (haccepted : (r.analyse symbols).2 = .ok facts) (hbody : r.body = some body)
    (hsig : symbols.routine? r.name = some sig) (hserved : (r.setting symbols).Served active call jump)
    (htyped : st.Typed symbols) (hready : st.Ready symbols active) (hsupplied : sig.Supplied symbols st)
    (hexec : body.Exec (r.setting symbols) call jump (fun _ => none) st inner o)
    (hfresh : ({ inner with entered := (r.name, active) :: inner.entered } : Log).Fresh symbols) :
    inner.Held ∧ ∀ st', o.back? = some st' → sig.Met symbols active st st' := by
  obtain ⟨t, cx, hwalk, -⟩ := accepted_walk haccepted hbody hsig
  obtain ⟨cx0, hwalk, -, -, -, -, hconstant⟩ := walk_start hwalk
  have hown : r.name ∈ active → ∀ name, (r.setting symbols).isLocal name = false :=
    hfresh (r.name, active) mem_cons_self
  have hfresh' : inner.Fresh symbols := fun e he => hfresh e (mem_cons_of_mem _ he)
  have hready' : st.Ready symbols (r.name :: active) := fun q hq => hready q fun h => hq (mem_cons_of_mem _ h)
  have hops : ∀ op ∈ body.ops, (r.setting symbols).KeepsTyped op := by
    intro op hop
    obtain ⟨f, hf, cx, cx', hsingle⟩ := body.walk_ops _ hwalk op hop
    rw [← hf]
    exact Focus.single_keepsTyped hsingle (hf ▸ hregular.delivers body hbody op hop)
  have hgood : (r.setting symbols).Good (body.Paths (r.setting symbols) fun _ => none)
      ((r.setting symbols).entryValues sig) := by
    intro log o hpath
    obtain ⟨hheld, hafter, -⟩ := hregular.paths_declared haccepted hbody hsig hpath
    exact ⟨hheld, fun after ho => (hafter after (.inr ho)).2⟩
  have hsub : (r.setting symbols).entryValues sig ⊆ st.view (r.setting symbols) :=
    entryValues_subset hapart hsig hown hready hsupplied hconstant
  obtain ⟨hheld, hdone, hleft⟩ := body.follows hserved _ hops htyped hready' hsub hgood hfresh' hexec
  refine ⟨hheld, fun st' ho => ?_⟩
  cases o with
  | cut => cases ho
  | done after =>
    cases ho
    obtain ⟨along, values', hpath, htouched, hlands⟩ := hdone st' rfl
    obtain ⟨-, hafter, hallowed⟩ := hregular.paths_declared haccepted hbody hsig hpath
    obtain ⟨houtputs, hstatics⟩ := hafter values' (.inl rfl)
    exact (hlands.leave hstatics).met hapart hsig hown houtputs (htouched ▸ hallowed)
  | left after =>
    cases ho
    obtain ⟨along, values', hpath, htouched, hlands⟩ := hleft st' rfl
    obtain ⟨-, hafter, hallowed⟩ := hregular.paths_declared haccepted hbody hsig hpath
    exact hlands.met hapart hsig hown (hafter values' (.inr rfl)).1 (htouched ▸ hallowed)

/-! ### Programs -/

/-- What the analysis of a program leaves open. -/
structure Program.Regular (symbols : Symbols) (p : Program) : Prop where
  apart : symbols.Apart
  routines : ∀ r ∈ p.routines, r.Regular symbols

theorem Program.body?_eq_some {e : Executable}
    (h : p.body? e = some (r, body)) : e = .routine r.name ∧ r ∈ p.routines ∧ r.body = some body := by
  cases e with
  | foreign => cases h
  | routine name =>
    obtain ⟨r', hr', h⟩ := Option.bind_eq_some_iff.1 h
    obtain ⟨body', hbody, h⟩ := Option.map_eq_some_iff.1 h
    cases h
    have hname : r.name = name := by simpa using find?_some hr'
    exact ⟨by rw [hname], mem_of_find?_eq_some hr', hbody⟩

/-- All code that gets control keeps to its signature, by induction on how deep calls and jumps are nested. -/
theorem Program.enters_met {all : List Analysed} (haccepted : (p.analyse symbols).2 = .ok all)
    (hregular : p.Regular symbols) (depth : Nat) : ∀ (active : List String) (e : Executable) (sig : Signature),
    symbols.signature? e = some sig → sig.MetBy symbols active (p.Enters symbols depth active e) := by
  induction depth with
  | zero =>
    rintro active e sig - st _ _ - - - - ⟨rfl, rfl⟩
    exact ⟨by simp [Log.Held], by simp⟩
  | succ depth ih =>
    intro active e sig hsig st log o htyped hready hsupplied hfresh hrun
    simp only [Program.Enters] at hrun
    split at hrun
    · next r body hbody =>
      obtain ⟨rfl, hr, hbody⟩ := Program.body?_eq_some hbody
      obtain ⟨inner, o', hexec, rfl, rfl⟩ := hrun
      obtain ⟨facts, hfacts⟩ := Program.analyse_ok haccepted hr
      have hserved : (r.setting symbols).Served active (p.Enters symbols depth (r.name :: active))
          (p.Enters symbols depth active) := ⟨hregular.apart, ih _, ih _⟩
      exact ((hregular.routines r hr).met hregular.apart hfacts hbody hsig hserved htyped hready hsupplied hexec hfresh :)
    · obtain ⟨sig', hsig', hperforms⟩ := hrun
      obtain rfl : sig = sig' := Option.some.inj (hsig.symm.trans hsig')
      exact sig.metBy_performs htyped hready hsupplied hfresh hperforms

/-- What holds values when a program starts: the inputs of its main routine, all static locations, and the definitions
with initial values. -/
def Program.startValues (symbols : Symbols) (p : Program) (sig : Signature) : Set Holder :=
  {h | h ∈ (sig.inputs.map Ref.ofSlot).map Holder.global
    ∨ (∃ q, ∃ r ∈ symbols.statics q, h = ⟨some q, r⟩)
    ∨ ∃ d ∈ p.defns, d.initial.isSome ∧ h = .global (.location d.name)}

/-- Every use that the analysis looks at is of a value, in every execution of an accepted program. -/
theorem Program.uses_hold_values (symbols : Symbols) (p : Program) (all : List Analysed)
    (haccepted : (p.analyse symbols).2 = .ok all) (hregular : p.Regular symbols) (sig : Signature)
    (hmain : symbols.routine? "main" = some sig) (st : Storage) (hstart : p.startValues symbols sig ⊆ st.live)
    (hcode : st.Typed symbols) (depth : Nat) (log : Log) (o : Option Storage)
    (hrun : p.Enters symbols depth [] (.routine "main") st log o) (hfresh : log.Fresh symbols) :
    ∀ u ∈ log.uses, u.purpose.isChecked = true → u.held := by
  have hready : st.Ready symbols [] := fun q _ r hr => hstart (.inr (.inl ⟨q, r, hr, rfl⟩))
  have hsupplied : sig.Supplied symbols st := fun r hr _ => hstart (.inl (mem_map_of_mem hr))
  exact (p.enters_met haccepted hregular depth [] (.routine "main") sig hmain hcode hready hsupplied hfresh hrun).1

/-! ### A call through a vector, and a choice without a value -/

/-- A routine that sets `x`. -/
def settingSignature : Signature :=
  { outputs := [⟨"x", none⟩], trashes := [⟨"n", none⟩, ⟨"z", none⟩] }

/-- A main routine that sets a vector and spoils the registers and flags. -/
def vectoredSignature : Signature :=
  { outputs := [⟨"vec", none⟩], trashes := [⟨"a", none⟩, ⟨"n", none⟩, ⟨"x", none⟩, ⟨"z", none⟩] }

/-- A vector, a routine that it can hold, and the main routine. -/
def vectoredSymbols : Symbols :=
  ((Symbols.initial.declare "vec" ⟨.builtin, .vector (.routine settingSignature)⟩).declare "foo"
    ⟨.builtin, .routine settingSignature⟩).declare "main" ⟨.builtin, .routine vectoredSignature⟩

/-- The body of the routine that is called. -/
def setX : Block := .cons (.op 0 (.ld .x (.constant ⟨.byte, 1⟩))) (.nil 0)

/-- Copies the routine into the vector, calls the vector, and reads what the routine has set. -/
def throughVector : Block :=
  .cons (.op 0 (.copy (.location "foo") (.location "vec")))
    (.cons (.call 0 "vec") (.cons (.op 0 (.ld .a .x)) (.nil 0)))

/-- The program of the two routines. -/
def vectored : Program :=
  { routines := [⟨0, "foo", none, [], some setX, false⟩, ⟨0, "main", none, [], some throughVector, false⟩] }

/-- Storage in which only the given holders have values, and no vector holds code. -/
def Storage.ofValues (live : Set Holder) : Storage := ⟨live, fun _ _ => False⟩

theorem Symbols.statics_of_noLocals (h : symbols.locals = ⟨[]⟩) : symbols.statics name = ∅ := by
  simp [Symbols.statics, Setting.statics, Symbols.localsOf, h, Assoc.get?]

theorem Program.startValues_of_none (hinputs : sig.inputs = [])
    (hlocals : symbols.locals = ⟨[]⟩) (hdefns : p.defns = []) : p.startValues symbols sig = ∅ := by
  simp [Program.startValues, hinputs, Symbols.statics_of_noLocals hlocals, hdefns]

theorem vectored_regular : vectored.Regular vectoredSymbols := by
  have hnone : ∀ name, vectoredSymbols.statics name = ∅ := fun _ => Symbols.statics_of_noLocals rfl
  have hapart : vectoredSymbols.Apart := by
    intro q name h
    cases h
  refine ⟨hapart, ?_⟩
  simp only [vectored, forall_mem_cons, not_mem_nil, false_imp_iff, implies_true, and_true]
  refine ⟨regular_of_jumpFree rfl rfl rfl (hnone _) ?_, regular_of_jumpFree rfl rfl rfl (hnone _) ?_⟩
  · simp [setX, Block.ops, Instr.ops, Op.settled, Op.mapRefs, Setting.Delivers]
  · simp only [throughVector, Block.ops, Instr.ops, cons_append, nil_append, forall_mem_cons]
    refine ⟨?_, trivial, by simp⟩
    rintro sig limit ⟨⟩ ⟨⟩
    exact List.Subset.refl _

/-- The setting of the main routine. -/
def vectoredSetting : Setting := ⟨vectoredSymbols, "main", 0⟩

/-- The routine sets `x` from wherever it is entered. -/
theorem foo_runs (st : Storage) : vectored.Enters vectoredSymbols 1 ["main"] (.routine "foo") st
    { touched := [.x, .z, .n], entered := [("foo", ["main"])] }
    (some (st.operate ⟨vectoredSymbols, "foo", 0⟩ (fun _ => none) (.ld .x (.constant ⟨.byte, 1⟩)))) :=
  ⟨_, .done _, .inr (.inr ⟨_, _, _, ⟨rfl, .inr rfl⟩, ⟨rfl, .inr rfl⟩, rfl⟩), rfl, rfl⟩

/-- After the copy the vector holds the routine. -/
theorem vec_holds_foo (st : Storage) :
    (st.operate vectoredSetting (fun _ => none) (.copy (.location "foo") (.location "vec"))).codes vectoredSetting
      (.location "vec") (.routine "foo") := by
  have hvec : vectoredSetting.typeOfName "vec" = .ok (.vector (.routine settingSignature)) := rfl
  have hfoo : vectoredSetting.typeOfName "foo" = .ok (.routine settingSignature) := rfl
  simp only [Storage.codes, hvec, Storage.operate, Storage.copied, ↓reduceIte, hfoo]
  rfl

/-- The program runs to its end: it calls the routine that the vector has come to hold, and then reads `x`. -/
theorem vectored_runs : ∃ log st, vectored.Enters vectoredSymbols 2 [] (.routine "main") (.ofValues ∅) log (some st)
    ∧ log.Fresh vectoredSymbols ∧ log.entered.map Prod.fst = ["main", "foo"]
    ∧ log.uses.map (fun u => (u.purpose, u.location)) = [(.vector, .location "vec"), (.operand, .x)] := by
  let st1 := (Storage.ofValues ∅).operate vectoredSetting (fun _ => none) (.copy (.location "foo") (.location "vec"))
  have hcall : vectoredSetting.Transfers (vectored.Enters vectoredSymbols 1 ["main"]) .done "vec" st1 _ _ :=
    ⟨_, _, _, rfl, rfl, rfl, .inr ⟨.routine "foo", _, vec_holds_foo _, foo_runs st1, rfl⟩⟩
  refine ⟨_, _, ⟨_, .done _, .inr (.inr ⟨st1, _, _, ⟨rfl, .inr rfl⟩, .inr (.inr ⟨_, _, _, hcall,
    .inr (.inr ⟨_, _, _, ⟨rfl, .inr rfl⟩, ⟨rfl, .inr rfl⟩, rfl⟩), rfl⟩), rfl⟩), rfl, rfl⟩, ?_, rfl, rfl⟩
  intro e _ _ name
  rfl

/-- The use of `x` after the call is of a value. -/
theorem vectored_uses_hold_values :
    (vectored.analyse vectoredSymbols).2.isOk = true ∧ vectored.Regular vectoredSymbols
      ∧ ∃ log st, vectored.Enters vectoredSymbols 2 [] (.routine "main") (.ofValues ∅) log (some st)
        ∧ log.entered.map Prod.fst = ["main", "foo"]
        ∧ log.uses.map (fun u => (u.purpose, u.location)) = [(.vector, .location "vec"), (.operand, .x)]
        ∧ ∀ u ∈ log.uses, u.purpose.isChecked = true → u.held := by
  obtain ⟨log, st, hrun, hfresh, hentered, huses⟩ := vectored_runs
  refine ⟨rfl, vectored_regular, log, st, hrun, hentered, huses, ?_⟩
  refine Program.uses_hold_values vectoredSymbols vectored _ rfl vectored_regular vectoredSignature rfl (.ofValues ∅)
    (Program.startValues_of_none rfl rfl rfl).subset ?_ 2 log (some st) hrun hfresh
  rintro h e ⟨⟩

/-- The main routine alone, which sets `x`. -/
def choosingSymbols : Symbols := Symbols.initial.declare "main" ⟨.builtin, .routine settingSignature⟩

/-- Sets `x` on either side of a choice by the carry. -/
def choosing : Program :=
  { routines := [⟨0, "main", none, [], some (.cons (.ifElse 0 .c false setX setX) (.nil 0)), false⟩] }

theorem choosing_regular : choosing.Regular choosingSymbols := by
  have hapart : choosingSymbols.Apart := by
    intro q name h
    cases h
  refine ⟨hapart, ?_⟩
  simp only [choosing, forall_mem_cons, not_mem_nil, false_imp_iff, implies_true, and_true]
  refine regular_of_jumpFree rfl rfl rfl (Symbols.statics_of_noLocals rfl) ?_
  simp [setX, Block.ops, Instr.ops, Op.settled, Op.mapRefs, Setting.Delivers]

/-- The condition of a choice is not looked at: the program is accepted, and starts by asking for the carry, which has
no value. -/
theorem choice_without_value :
    (choosing.analyse choosingSymbols).2.isOk = true ∧ choosing.Regular choosingSymbols
      ∧ choosing.startValues choosingSymbols settingSignature ⊆ (Storage.ofValues ∅).live
      ∧ ∃ log st, choosing.Enters choosingSymbols 1 [] (.routine "main") (.ofValues ∅) log (some st)
        ∧ log.Fresh choosingSymbols ∧ ∃ u ∈ log.uses, u.location = .c ∧ ¬ u.held := by
  refine ⟨rfl, choosing_regular, (Program.startValues_of_none rfl rfl rfl).subset, ?_⟩
  have hset : setX.Exec ⟨choosingSymbols, "main", 0⟩ (choosing.Enters choosingSymbols 0 ["main"])
      (choosing.Enters choosingSymbols 0 []) (fun _ => none) (.ofValues ∅) _ _ :=
    .inr (.inr ⟨_, _, _, ⟨rfl, .inr rfl⟩, ⟨rfl, .inr rfl⟩, rfl⟩)
  refine ⟨_, _, ⟨_, .done _, .inr (.inr ⟨_, _, _, ⟨_, .inl hset, rfl⟩, ⟨rfl, .inr rfl⟩, rfl⟩), rfl, rfl⟩, ?_,
    ⟨.choice, .c, _⟩, mem_singleton.2 rfl, rfl, id⟩
  intro e _ _ name
  rfl

end CheckedAsm
