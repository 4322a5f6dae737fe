import CheckedAsm.Proofs.Values.Frames
/-! # Executions follow paths

If all code that a block calls or jumps to keeps to its signature, every execution of the block goes along one of its
paths. The code that a vector holds fits the type of the vector, so it keeps to the signature that the caller
expects. -/

namespace CheckedAsm

open List Setting

variable {ty : Ty} {target : String} {sig : Signature} {r : Ref} {values' : Set Ref} {sets spoils touched : List Ref}

variable {symbols : Symbols} {s : Setting} {active waiting : List String} {st st' : Storage} {values : Set Ref}

/-! ### What names stand for -/

theorem Signature.Fits.refl (sig : Signature) : sig.Fits sig :=
  ⟨List.Subset.refl _, fun _ => Iff.rfl, List.Subset.refl _⟩

theorem Setting.isLocal_eq (s : Setting) (name : String) :
    s.isLocal name = (s.symbols.localType? s.routine name).isSome := by
  simp [isLocal, Symbols.hasLocal, Symbols.localType?, Assoc.has]

theorem Setting.typeOf?_holder {name : String} (h : s.typeOfName name = .ok ty) :
    s.symbols.typeOf? (s.holder (.location name)) = some ty := by
  simp only [Symbols.typeOf?, holder, Ref.name, s.isLocal_eq]
  rcases s.typeOfName_cases h with hlocal | ⟨hlocal, hglobal⟩
  · simp [hlocal]
  · simp [hlocal, hglobal]

/-- The code that a name stands for fits what its type says. -/
theorem Storage.Typed.codes_fit {e : Executable}
    (htyped : st.Typed s.symbols) (hty : s.typeOfName target = .ok ty) (hsig : ty.target = .routine sig)
    (hcode : st.codes s (.location target) e) : ∃ actual, s.symbols.signature? e = some actual ∧ actual.Fits sig := by
  cases ty with
  | routine own =>
    obtain rfl : own = sig := by simpa [Ty.target] using hsig
    simp only [codes, hty] at hcode
    refine ⟨own, ?_, .refl own⟩
    subst hcode
    rcases s.typeOfName_cases hty with hlocal | ⟨hlocal, hglobal⟩
    · simp [s.isLocal_eq, hlocal, Symbols.signature?]
    · simp [s.isLocal_eq, hlocal, Symbols.signature?, Symbols.routine?, hglobal]
  | vector of =>
    obtain rfl : of = .routine sig := hsig
    simp only [codes, hty] at hcode
    exact htyped _ e hcode _ sig (s.typeOf?_holder hty) rfl
  | _ => cases hsig

theorem Setting.isLocal_of_mem_statics (h : r ∈ s.statics) : s.isLocal r.name = true := by
  obtain ⟨e, he, rfl, -⟩ := h
  simp only [isLocal, Symbols.hasLocal, Ref.name, Assoc.has, Assoc.get?, Option.isSome_map, find?_isSome]
  exact ⟨e, he, by simp⟩

theorem Setting.holder_of_mem_statics (h : r ∈ s.statics) : s.holder r = ⟨some s.routine, r⟩ := by
  rw [holder, if_pos (isLocal_of_mem_statics h)]

/-! ### Calls and jumps -/

section Transfers

variable (hapart : s.symbols.Apart) (hty : s.typeOfName target = .ok ty) (hsig : ty.target = .routine sig)

include hapart hty hsig

/-- What a call names is global. -/
theorem Signature.declared_eq : sig.declared = ((sig.outputs ++ sig.trashes).map Ref.ofSlot).map s.holder := by
  simp only [declared, map_map]
  refine map_congr_left fun o ho => ?_
  refine (holder_of_not_local (hapart.not_local hty hsig ?_)).symm
  rw [append_assoc]
  exact mem_append_right _ ho

/-- Where the values are that a call needs, its inputs are supplied. -/
theorem Signature.supplied_of_held (hsub : values ⊆ st.view s)
    (hheld : ∀ u ∈ s.callUses values target ty sig, u.purpose.isChecked = true → u.held) :
    sig.Supplied s.symbols st := by
  intro r hr hnot
  obtain ⟨o, ho, rfl⟩ := mem_map.1 hr
  have hlocal : s.isLocal (Ref.ofSlot o).name = false :=
    hapart.not_local hty hsig (by simp [ho])
  have hstorage : s.isStorage (.ofSlot o) = true := by
    obtain ⟨name, _ | site⟩ := o
    · simp only [Ref.ofSlot, Ref.name] at hlocal hnot
      simp only [Ref.ofSlot, Setting.isStorage, hlocal, Bool.false_or]
      split
      · next heq => exact absurd heq hnot
      · rfl
    · rfl
  have hvalue : Ref.ofSlot o ∈ values :=
    hheld ⟨.input, _, _⟩ (mem_append_right _ (mem_map.2 ⟨_, mem_filter.2 ⟨hr, hstorage⟩, rfl⟩)) rfl
  rw [← holder_of_not_local hlocal]
  exact hsub hvalue

/-- Where code comes back that keeps to its signature, what the caller expects holds. -/
theorem Signature.Met.lands (hmet : sig.Met s.symbols waiting st st') (hsub : values ⊆ st.view s) :
    s.Lands waiting (valuesAfter (sig.outputs.map .ofSlot) (sig.trashes.map .ofSlot) values)
      ((sig.outputs ++ sig.trashes).map .ofSlot) st st' := by
  have hdeclared := Signature.declared_eq hapart hty hsig
  refine ⟨fun r hr hg => ?_, hmet.typed, hmet.ready, hdeclared ▸ hmet.kept⟩
  obtain ⟨hor, hnot⟩ := hr
  by_cases hout : r ∈ sig.outputs.map Ref.ofSlot
  · obtain ⟨o, ho, rfl⟩ := mem_map.1 hout
    rw [holder_of_not_local (hapart.not_local hty hsig (by simp [ho]))]
    exact hmet.outputs _ hout hnot
  · refine hmet.kept _ hg ?_ (hsub (hor.resolve_right hout))
    rw [hdeclared, mem_map_of_injective s.holder_injective, map_append, mem_append, not_or]
    exact ⟨hout, hnot⟩

end Transfers

theorem Setting.callUses_mono (hsub : values ⊆ values')
    (h : ∀ u ∈ s.callUses values target ty sig, u.purpose.isChecked = true → u.held) :
    ∀ u ∈ s.callUses values' target ty sig, u.purpose.isChecked = true → u.held := by
  obtain ⟨hvector, hinputs⟩ := forall_mem_append.1 h
  exact forall_mem_append.2 ⟨held_mono hsub hvector, held_mono hsub hinputs⟩

namespace Setting

variable {go : Executable → Run}

/-- What a call or a jump does to storage, given what the code does that gets control. -/
theorem Transfers.met {comesBack : Storage → Ending Storage} {log : Log} {o : Ending Storage}
    (hapart : s.symbols.Apart)
    (hgo : ∀ e sig, s.symbols.signature? e = some sig → sig.MetBy s.symbols waiting (go e))
    (htyped : st.Typed s.symbols) (hready : st.Ready s.symbols waiting) (hsub : values ⊆ st.view s)
    (huses : ∀ ty sig, s.typeOfName target = .ok ty → ty.target = .routine sig →
      ∀ u ∈ s.callUses values target ty sig, u.purpose.isChecked = true → u.held)
    (hfresh : log.Fresh s.symbols) (hrun : s.Transfers go comesBack target st log o) :
    log.Held ∧ (o = .cut ∨ ∃ ty sig st', s.typeOfName target = .ok ty ∧ ty.target = .routine sig
      ∧ log.touched = (sig.outputs ++ sig.trashes).map .ofSlot ∧ o = comesBack st'
      ∧ s.Lands waiting (valuesAfter (sig.outputs.map .ofSlot) (sig.trashes.map .ofSlot) values) log.touched st st') := by
  obtain ⟨ty, sig, rest, hty, hsig, rfl, hrun⟩ := hrun
  have huses1 := huses ty sig hty hsig
  have huses2 := callUses_mono hsub huses1
  rcases hrun with ⟨rfl, rfl⟩ | ⟨e, back, hcode, hrun, rfl⟩
  · exact ⟨forall_mem_append.2 ⟨huses2, by simp⟩, .inl rfl⟩
  · obtain ⟨actual, hactual, hfits⟩ := htyped.codes_fit hty hsig hcode
    have hsupplied := Signature.supplied_of_held hapart hty hsig hsub huses1
    have hfresh' : rest.Fresh s.symbols := hfresh
    obtain ⟨hheld, hback⟩ := (hgo e actual hactual).of_fits hfits htyped hready hsupplied hfresh' hrun
    refine ⟨forall_mem_append.2 ⟨huses2, hheld⟩, ?_⟩
    cases back with
    | none => exact .inl rfl
    | some st' => exact .inr ⟨ty, sig, st', hty, hsig, rfl, rfl, (hback st' rfl).lands hapart hty hsig hsub⟩

/-- A call of code that keeps to its signature. -/
theorem follows_call (hapart : s.symbols.Apart)
    (hgo : ∀ e sig, s.symbols.signature? e = some sig → sig.MetBy s.symbols (s.routine :: active) (go e)) :
    s.Follows active (s.Transfers go .done target)
      (fun live log o => ∃ after, s.Calls target live log after ∧ (o = .cut ∨ o = .done after)) := by
  intro st log o values htyped hready hsub hgood hfresh hrun
  have huses := fun ty sig (hty : s.typeOfName target = .ok ty) (hsig : ty.target = .routine sig) =>
    (hgood ⟨_, ⟨ty, sig, hty, hsig, rfl, rfl⟩, .inl rfl⟩).1
  obtain ⟨hheld, rfl | ⟨ty, sig, st1, hty, hsig, htouched, rfl, hlands⟩⟩ :=
    Transfers.met hapart hgo htyped hready hsub huses hfresh hrun
  · exact ⟨hheld, by simp, by simp⟩
  · refine ⟨hheld, ?_, by simp⟩
    rintro _ ⟨⟩
    exact ⟨_, _, ⟨_, ⟨ty, sig, hty, hsig, rfl, rfl⟩, .inr rfl⟩, htouched.symm, hlands⟩

/-- A jump to code that keeps to its signature. The routine does not wait for it, so its static locations must hold
values. -/
theorem follows_goto (hapart : s.symbols.Apart)
    (hgo : ∀ e sig, s.symbols.signature? e = some sig → sig.MetBy s.symbols active (go e)) :
    s.Follows active (s.Transfers go .left target)
      (fun live log o => ∃ after, s.Calls target live log after ∧ (o = .cut ∨ o = .left after)) := by
  intro st log o values htyped hready hsub hgood hfresh hrun
  have huses := fun ty sig (hty : s.typeOfName target = .ok ty) (hsig : ty.target = .routine sig) =>
    (hgood ⟨_, ⟨ty, sig, hty, hsig, rfl, rfl⟩, .inl rfl⟩).1
  have hready' : st.Ready s.symbols active := by
    obtain ⟨ty, sig, -, hty, hsig, -, -⟩ := hrun
    intro q hq r hr
    by_cases hq' : q = s.routine
    · subst hq'
      have hlocal : s.isLocal r.name = true := isLocal_of_mem_statics hr
      have hafter := (hgood ⟨_, ⟨ty, sig, hty, hsig, rfl, rfl⟩, .inr rfl⟩).2 _ rfl hr
      have hvalue : r ∈ values := by
        refine hafter.1.resolve_right fun hout => ?_
        obtain ⟨o, ho, rfl⟩ := mem_map.1 hout
        rw [hapart.not_local hty hsig (by simp [ho])] at hlocal
        cases hlocal
      exact holder_of_mem_statics hr ▸ hsub hvalue
    · exact hready q (by simp [hq, hq']) r hr
  obtain ⟨hheld, rfl | ⟨ty, sig, st1, hty, hsig, htouched, rfl, hlands⟩⟩ :=
    Transfers.met hapart hgo htyped hready' hsub huses hfresh hrun
  · exact ⟨hheld, by simp, by simp⟩
  · refine ⟨hheld, by simp, ?_⟩
    rintro _ ⟨⟩
    exact ⟨_, _, ⟨_, ⟨ty, sig, hty, hsig, rfl, rfl⟩, .inr rfl⟩, htouched.symm, hlands⟩

/-! ### Single steps -/

theorem valuesAfter_mono (h : values ⊆ values') : valuesAfter sets spoils values ⊆ valuesAfter sets spoils values' :=
  fun _ hr => ⟨hr.1.imp (@h _) id, hr.2⟩

theorem mem_live_after {h : Holder} (hh : h ∈ st.live)
    (hnot : h ∉ (sets ++ spoils).map s.holder) : h ∈ (st.after s sets spoils).live := by
  rw [map_append, mem_append, not_or] at hnot
  exact ⟨.inl hh, hnot.2⟩

/-- The code that an operation moves fits where it is put. -/
def KeepsTyped (s : Setting) (op : Op) : Prop :=
  ∀ (st : Storage) (env : Pointees), st.Typed s.symbols → (st.operate s env op).Typed s.symbols

theorem follows_op {env : Pointees} {op : Op} (hop : s.KeepsTyped op) :
    s.Follows active (.acts (fun st => op.log s env (st.view s)) (·.operate s env op))
      (.acts (op.log s env) (valuesAfter (op.sets env) (op.spoils s))) :=
  Follows.acts (fun _ _ hsub => held_mono hsub) (fun _ _ => rfl)
    (fun st _ hsub => (st.view_operate s env op).symm ▸ valuesAfter_mono hsub) (fun st => hop st env)
    fun _ _ => mem_live_after

/-- Setting a location after some uses. -/
theorem follows_set {purpose : Purpose} {rs : List Ref} {d : Ref} :
    s.Follows active (.acts (fun st => { uses := s.uses (st.view s) purpose rs, touched }) (·.after s [d] []))
      (.acts (fun live => { uses := s.uses live purpose rs, touched }) (valuesAfter [d] [])) :=
  Follows.acts (fun _ _ hsub => held_mono hsub) (fun _ _ => rfl)
    (fun st _ hsub => (st.view_after s [d] []).symm ▸ valuesAfter_mono hsub) (fun _ h => h)
    fun _ _ hh _ => ⟨.inl hh, by simp⟩

/-! ### Blocks with something set aside or associated -/

theorem holder_scope {q : String} (h : (s.holder r).scope = some q) : q = s.routine := by
  unfold holder at h
  split at h
  · exact (Option.some.inj h).symm
  · cases h

theorem Lands.restored {locations : List Ref} {inside : Storage}
    (hsub : values ⊆ st.view s) (h : s.Lands (s.routine :: active) values' touched st inside) :
    s.Lands (s.routine :: active) (valuesRestored locations values values')
      (touchedSaving locations touched (.done inside)) st (st.restored s locations inside) := by
  refine ⟨fun r hr _ => ?_, h.typed, fun q hq r hr => ?_, fun k hg hnot hk => ?_⟩
  · change r ∈ (st.restored s locations inside).view s
    rw [Storage.view_restored]
    refine ⟨?_, hr.2⟩
    have hvalue := hr.1
    by_cases hmem : r ∈ locations
    · rw [if_pos hmem] at hvalue ⊢
      exact hsub hvalue
    · rw [if_neg hmem] at hvalue ⊢
      exact h.view hvalue
  · have hother : ∀ r', s.holder r' ≠ ⟨some q, r⟩ := fun r' heq =>
      hq (holder_scope (congrArg Holder.scope heq) ▸ mem_cons_self)
    refine ⟨?_, fun heq => absurd heq.symm (hother .a)⟩
    rw [if_neg (by simpa using fun r' _ => hother r')]
    exact h.ready q hq r hr
  · simp only [touchedSaving, map_append, mem_append, not_or] at hnot
    refine ⟨?_, fun heq => ?_⟩
    · by_cases hmem : k ∈ locations.map s.holder
      · rw [if_pos hmem]
        exact hk
      · rw [if_neg hmem]
        refine h.kept k hg (fun htouched => hnot.1 ?_) hk
        obtain ⟨r, hr, rfl⟩ := mem_map.1 htouched
        rw [mem_map_of_injective s.holder_injective] at hmem
        exact mem_map_of_mem (mem_filter.2 ⟨hr, by simpa using hmem⟩)
    · by_contra hfirst
      refine hnot.2 ?_
      simp [if_neg hfirst, heq]

end Setting

/-! ### Blocks -/

mutual

/-- The single operations in an instruction. -/
def Instr.ops : Instr → List Op
  | .op _ op => [op.settled]
  | .call .. | .goto .. | .reset .. => []
  | .ifThen _ _ _ yes => yes.ops
  | .ifElse _ _ _ yes no => yes.ops ++ no.ops
  | .loop _ _ _ body | .count _ _ _ _ body | .interruptsOff _ body | .save _ _ body | .pointInto _ _ _ body => body.ops

/-- The single operations in a block. -/
def Block.ops : Block → List Op
  | .nil _ => []
  | .cons head tail => head.ops ++ tail.ops

end

/-- All code that a routine may give control to keeps to its signature. -/
structure Setting.Served (s : Setting) (active : List String) (call jump : Executable → Run) : Prop where
  apart : s.symbols.Apart
  calls : ∀ e sig, s.symbols.signature? e = some sig → sig.MetBy s.symbols (s.routine :: active) (call e)
  jumps : ∀ e sig, s.symbols.signature? e = some sig → sig.MetBy s.symbols active (jump e)

variable {call jump : Executable → Run}

mutual

/-- Every execution of an instruction goes along a path. -/
theorem Instr.follows (hserved : s.Served active call jump) : ∀ (i : Instr) (env : Pointees), (∀ op ∈ i.ops, s.KeepsTyped op) →
    s.Follows active (i.Exec s call jump env) (i.Paths s env)
  | .op line op, env, hops => follows_op (hops op.settled (by simp [Instr.ops]))
  | .call line target, env, hops => follows_call hserved.apart hserved.calls
  | .goto line target, env, hops => follows_goto hserved.apart hserved.jumps
  | .reset line p offset, env, hops => follows_set
  | .ifThen line src inv yes, env, hops => (yes.follows hserved env hops).choice follows_skip
  | .ifElse line src inv yes no, env, hops => by
    simp only [Instr.ops, forall_mem_append] at hops
    exact (yes.follows hserved env hops.1).choice (no.follows hserved env hops.2)
  | .loop line src inv body, env, hops => (body.follows hserved env hops).turns
  | .count line d dir final body, env, hops => by
    refine follows_set.seq ((body.follows hserved env hops).turns.seq ?_)
    exact Setting.Follows.acts (fun _ _ _ h => h) (fun _ _ => rfl)
      (fun st _ hsub => (st.view_after s [d] []).symm ▸ valuesAfter_mono hsub) (fun _ h => h)
      fun _ _ hh _ => ⟨.inl hh, by simp⟩
  | .interruptsOff line body, env, hops => body.follows hserved env hops
  | .save line locations body, env, hops => by
    rintro st _ o values htyped hready hsub hgood hfresh ⟨inner, o', hrun, rfl, rfl⟩
    have hgood' : s.Good (body.Paths s env) values := fun log o hrun => by
      obtain ⟨hheld, hleft⟩ := hgood ⟨log, o, hrun, rfl, rfl⟩
      exact ⟨hheld, fun after ho => hleft after (Ending.map_eq_left.2 ho)⟩
    have hfresh' : inner.Fresh s.symbols := hfresh
    obtain ⟨hheld, hdone, hleft⟩ := body.follows hserved env hops htyped hready hsub hgood' hfresh' hrun
    refine ⟨hheld, fun st' ho => ?_, fun st' ho => ?_⟩
    · obtain ⟨inside, rfl, rfl⟩ := Ending.map_eq_done.1 ho
      obtain ⟨along, values', hpath, htouched, hlands⟩ := hdone inside rfl
      exact ⟨_, _, ⟨along, _, hpath, rfl, rfl⟩, by simp [touchedSaving, htouched], hlands.restored hsub⟩
    · obtain rfl := Ending.map_eq_left.1 ho
      obtain ⟨along, values', hpath, htouched, hlands⟩ := hleft st' rfl
      exact ⟨_, _, ⟨along, _, hpath, rfl, rfl⟩, htouched, hlands⟩
  | .pointInto line p table body, env, hops => by
    intro st log o values htyped hready hsub hgood hfresh hrun
    have hgood' : s.Good (body.Paths s fun q => if q = p then some table else env q) (values \ {p}) :=
      fun log o hrun => by
        obtain ⟨hheld, hleft⟩ := hgood ⟨o, hrun, rfl⟩
        exact ⟨hheld, fun after ho => hleft after (Ending.map_eq_left.2 ho)⟩
    have hsub' : values \ {p} ⊆ st.view s := fun r hr => hsub hr.1
    obtain ⟨hheld, hdone, hleft⟩ := body.follows hserved _ hops htyped hready hsub' hgood' hfresh hrun
    refine ⟨hheld, fun st' ho => ?_, fun st' ho => ?_⟩
    · obtain ⟨along, values', hpath, htouched, hlands⟩ := hdone st' ho
      exact ⟨along, _, ⟨_, hpath, rfl⟩, htouched, fun r hr => hlands.values r hr.1, hlands.typed, hlands.ready,
        hlands.kept⟩
    · obtain ⟨along, values', hpath, hrest⟩ := hleft st' ho
      exact ⟨along, _, ⟨_, hpath, rfl⟩, hrest⟩

/-- Every execution of a block goes along a path. -/
theorem Block.follows (hserved : s.Served active call jump) : ∀ (b : Block) (env : Pointees), (∀ op ∈ b.ops, s.KeepsTyped op) →
    s.Follows active (b.Exec s call jump env) (b.Paths s env)
  | .nil _, env, hops => follows_skip
  | .cons head tail, env, hops => by
    simp only [Block.ops, forall_mem_append] at hops
    exact (head.follows hserved env hops.1).seq (tail.follows hserved env hops.2)

end

end CheckedAsm
