import CheckedAsm.Proofs.Values.Execution
import CheckedAsm.Proofs.Values.Soundness
/-! # What an execution keeps

An execution of a block goes along a path through it: what holds a value on the path does so in storage. The path
takes calls by their declarations, so every piece of code that gets control has to keep to its own: it leaves values
in its outputs, and takes none from locations that it does not name. Locations of a routine's own are out of reach
for other code, except for the routine itself when it is entered again. So a routine that waits for a call to come
back must not be entered again if it has such locations. -/

namespace CheckedAsm

open List

variable {st st1 st2 : Storage} {fewer : List String} {rs touched : List Ref} {l m : Log} {sig : Signature} {ty : Ty}
  {test : Set Ref → List Use} {ends : Bool} {purpose : Purpose}

variable {symbols : Symbols} {s : Setting} {active waiting : List String}

/-! ### Storage that is kept -/

/-- The static locations of a routine. -/
def Symbols.statics (symbols : Symbols) (routine : String) : Set Ref := Setting.statics ⟨symbols, routine, 0⟩

/-- What code may not spoil unless it says so: global locations, and those of routines that wait. -/
def Holder.Guarded (symbols : Symbols) (waiting : List String) (h : Holder) : Prop :=
  h.scope = none ∨ ∃ q ∈ waiting, h.scope = some q ∧ symbols.hasLocal q h.ref.name = true

theorem Holder.Guarded.mono {more : List String} {h : Holder} (hg : h.Guarded symbols waiting) (hsub : waiting ⊆ more) :
    h.Guarded symbols more :=
  hg.imp id fun ⟨q, hq, hscope⟩ => ⟨q, hsub hq, hscope⟩

theorem Setting.guarded_holder (hs : s.routine ∈ waiting) (r : Ref) : (s.holder r).Guarded s.symbols waiting := by
  by_cases hlocal : s.isLocal r.name = true
  · exact .inr ⟨s.routine, hs, by simp [holder, hlocal], hlocal⟩
  · exact .inl (by simp [holder, hlocal])

namespace Storage

/-- From one storage to another, only the given holders may have lost their values, those out of reach apart. -/
def Keeps (symbols : Symbols) (waiting : List String) (touched : List Holder) (st st' : Storage) : Prop :=
  ∀ h, h.Guarded symbols waiting → h ∉ touched → h ∈ st.live → h ∈ st'.live

/-- The static locations of every routine that does not wait hold values. -/
def Ready (symbols : Symbols) (waiting : List String) (st : Storage) : Prop :=
  ∀ q ∉ waiting, ∀ r ∈ symbols.statics q, ⟨some q, r⟩ ∈ st.live

theorem Keeps.trans {first second : List Holder}
    (h : st.Keeps symbols waiting first st1) (h' : st1.Keeps symbols fewer second st2) (hsub : fewer ⊆ waiting) :
    st.Keeps symbols fewer (first ++ second) st2 := by
  intro q hg hnot hq
  rw [mem_append, not_or] at hnot
  exact h' q hg hnot.2 (h q (hg.mono hsub) hnot.1 hq)

theorem Keeps.mono {st' : Storage} {touched more : List Holder}
    (h : st.Keeps symbols waiting touched st') (hsub : fewer ⊆ waiting) (hmore : touched ⊆ more) :
    st.Keeps symbols fewer more st' :=
  fun q hg hnot => h q (hg.mono hsub) fun hq => hnot (hmore hq)

end Storage

/-! ### Code that keeps to its signature -/

/-- Every use that the analysis looks at is of a value. -/
def Log.Held (log : Log) : Prop := ∀ u ∈ log.uses, u.purpose.isChecked = true → u.held

/-- No routine with locations of its own is entered while it waits. -/
def Log.Fresh (symbols : Symbols) (log : Log) : Prop :=
  ∀ e ∈ log.entered, e.1 ∈ e.2 → ∀ name, symbols.hasLocal e.1 name = false

theorem Log.held_append : (l ++ m).Held ↔ l.Held ∧ m.Held := forall_mem_append

theorem Log.fresh_append : (l ++ m).Fresh symbols ↔ l.Fresh symbols ∧ m.Fresh symbols :=
  forall_mem_append

namespace Signature

/-- The global locations that are named as set or spoiled. -/
def declared (sig : Signature) : List Holder := ((sig.outputs ++ sig.trashes).map .ofSlot).map .global

/-- The inputs hold values. Code that is named as an input needs none. -/
def Supplied (symbols : Symbols) (sig : Signature) (st : Storage) : Prop :=
  ∀ r ∈ sig.inputs.map Ref.ofSlot, Setting.isConstant ⟨symbols, "", 0⟩ r ≠ .ok true → .global r ∈ st.live

/-- What code has done that keeps to its signature. -/
structure Met (symbols : Symbols) (waiting : List String) (sig : Signature) (st st' : Storage) : Prop where
  typed : st'.Typed symbols
  ready : st'.Ready symbols waiting
  outputs : ∀ r ∈ sig.outputs.map Ref.ofSlot, r ∉ sig.trashes.map Ref.ofSlot → .global r ∈ st'.live
  kept : st.Keeps symbols waiting sig.declared st'

/-- Code keeps to its signature, and uses values only. -/
def MetBy (symbols : Symbols) (waiting : List String) (sig : Signature) (run : Run) : Prop :=
  ∀ ⦃st log o⦄, st.Typed symbols → st.Ready symbols waiting → sig.Supplied symbols st → log.Fresh symbols →
    run st log o → log.Held ∧ ∀ st', o = some st' → sig.Met symbols waiting st st'

variable {limit : Signature} {run : Run}

theorem Fits.declared_subset (h : sig.Fits limit) : sig.declared ⊆ limit.declared := by
  refine map_subset _ (map_subset _ fun o ho => ?_)
  rw [mem_append] at ho ⊢
  exact ho.imp (h.outputs o).1 fun ho => h.trashes ho

/-- Code that fits a signature meets it. -/
theorem MetBy.of_fits (hmet : sig.MetBy symbols waiting run) (hfits : sig.Fits limit) :
    limit.MetBy symbols waiting run := by
  intro st log o htyped hready hsupplied hfresh hrun
  have hsupplied' : sig.Supplied symbols st := fun r hr => hsupplied r (map_subset _ hfits.inputs hr)
  obtain ⟨hheld, hback⟩ := hmet htyped hready hsupplied' hfresh hrun
  refine ⟨hheld, fun st' ho => ?_⟩
  obtain ⟨typed, ready, outputs, kept⟩ := hback st' ho
  refine ⟨typed, ready, fun r hr hnot => ?_, kept.mono (List.Subset.refl _) hfits.declared_subset⟩
  obtain ⟨o, ho, rfl⟩ := mem_map.1 hr
  exact outputs _ (mem_map_of_mem ((hfits.outputs o).2 ho)) fun h => hnot (map_subset _ hfits.trashes h)

/-- Code outside the program keeps to its signature. -/
theorem metBy_performs (sig : Signature) : sig.MetBy symbols waiting (sig.Performs symbols) := by
  rintro st _ o htyped hready - - ⟨rfl, hback⟩
  refine ⟨by simp [Log.Held], fun st' ho => ?_⟩
  obtain ⟨hlive, hheld⟩ := hback st' ho
  refine ⟨fun h e he => ?_, fun q hq r hr => ?_, fun r hr hnot => ?_, fun h _ hnot hh => ?_⟩
  · exact (hheld h e he).elim (htyped h e) id
  · rw [hlive]
    exact ⟨.inl (hready q hq r hr), by simp [Holder.global]⟩
  · rw [hlive]
    refine ⟨.inr (mem_map_of_mem hr), fun h => hnot ?_⟩
    exact (mem_map_of_injective Holder.global_injective).1 h
  · rw [hlive]
    simp only [declared, map_append, mem_append, not_or] at hnot
    exact ⟨.inl hh, hnot.2⟩

end Signature

/-! ### Names of a routine's own -/

/-- No location of a routine's own has a name that a declared type mentions. -/
def Symbols.Apart (symbols : Symbols) : Prop :=
  ∀ q name, symbols.hasLocal q name = true → (∀ m ty, symbols.globalType? m = some ty → name ∉ ty.names)
    ∧ ∀ q' m ty, symbols.localType? q' m = some ty → name ∉ ty.names

theorem Ref.name_ofSlot (o : Slot) : (Ref.ofSlot o).name = o.name := by
  obtain ⟨name, _ | site⟩ := o <;> rfl

theorem Ty.names_of_target (h : ty.target = .routine sig) : ty.names = (Ty.routine sig).names := by
  cases ty <;> simp_all [Ty.target, Ty.names]

theorem Setting.typeOfName_cases {name : String} (h : s.typeOfName name = .ok ty) :
    s.symbols.localType? s.routine name = some ty
      ∨ (s.symbols.localType? s.routine name = none ∧ s.symbols.globalType? name = some ty) := by
  unfold typeOfName globalType at h
  cases hlocal : s.symbols.localType? s.routine name with
  | some t =>
    simp only [hlocal, Except.ok.injEq] at h
    exact .inl (congrArg some h)
  | none =>
    cases hglobal : s.symbols.globalType? name with
    | none => simp [hlocal, hglobal] at h
    | some t =>
      simp only [hlocal, hglobal, Except.ok.injEq] at h
      exact .inr ⟨rfl, congrArg some h⟩

/-- What the type of a name mentions is not local. -/
theorem Symbols.Apart.not_local (hapart : s.symbols.Apart) {target : String} {o : Slot}
    (hty : s.typeOfName target = .ok ty) (hsig : ty.target = .routine sig)
    (ho : o ∈ sig.inputs ++ sig.outputs ++ sig.trashes) : s.isLocal (Ref.ofSlot o).name = false := by
  rw [Ref.name_ofSlot]
  cases hlocal : s.isLocal o.name with
  | false => rfl
  | true =>
    have hmem : o.name ∈ ty.names := by
      rw [Ty.names_of_target hsig]
      exact mem_map_of_mem ho
    obtain ⟨hglobals, hlocals⟩ := hapart s.routine o.name hlocal
    rcases s.typeOfName_cases hty with h | ⟨-, h⟩
    · exact absurd hmem (hlocals _ _ _ h)
    · exact absurd hmem (hglobals _ _ h)

/-! ### Executions along paths -/

/-- Every path that starts with these values uses values only, and where it leaves by a jump, the static locations
hold values. -/
def Setting.Good (s : Setting) (paths : Paths) (values : Set Ref) : Prop :=
  ∀ ⦃log o⦄, paths values log o → log.Held ∧ ∀ after, o = .left after → s.statics ⊆ after

/-- Where an execution ends up: what holds a value on its path does so in storage, as far as it is not out of reach. -/
structure Setting.Lands (s : Setting) (waiting : List String) (values : Set Ref) (touched : List Ref)
    (st st' : Storage) : Prop where
  values : ∀ r ∈ values, (s.holder r).Guarded s.symbols waiting → s.holder r ∈ st'.live
  typed : st'.Typed s.symbols
  ready : st'.Ready s.symbols waiting
  kept : st.Keeps s.symbols waiting (touched.map s.holder) st'

/-- Every execution goes along a path. While it goes on, the routine itself counts as waiting; once it has left by a
jump, it does not. -/
def Setting.Follows (s : Setting) (active : List String) (exec : Way Storage) (paths : Paths) : Prop :=
  ∀ ⦃st log o values⦄, st.Typed s.symbols → st.Ready s.symbols (s.routine :: active) → values ⊆ st.view s →
    s.Good paths values → log.Fresh s.symbols → exec st log o →
    log.Held
    ∧ (∀ st', o = .done st' → ∃ along values', paths values along (.done values') ∧ along.touched = log.touched
      ∧ s.Lands (s.routine :: active) values' log.touched st st')
    ∧ (∀ st', o = .left st' → ∃ along values', paths values along (.left values') ∧ along.touched = log.touched
      ∧ s.Lands active values' log.touched st st')

namespace Setting

variable {values values' : Set Ref} {first second body yes no : Paths} {first' second' body' yes' no' : Way Storage}

theorem Lands.view (h : s.Lands (s.routine :: active) values touched st st1) : values ⊆ st1.view s :=
  fun r hr => h.values r hr (s.guarded_holder mem_cons_self r)

theorem Lands.trans {touched' : List Ref} (h : s.Lands active values touched st st1)
    (h' : s.Lands waiting values' touched' st1 st2) (hsub : waiting ⊆ active) :
    s.Lands waiting values' (touched ++ touched') st st2 :=
  ⟨h'.values, h'.typed, h'.ready, map_append ▸ h.kept.trans h'.kept hsub⟩

/-! What is good about something is good about its parts. -/

theorem Good.of_seq (h : s.Good (.seq first second) values) : s.Good first values := by
  intro log o hrun
  cases o with
  | cut => exact h (.inl ⟨hrun, by simp⟩)
  | left after => exact h (.inl ⟨hrun, by simp⟩)
  | done after => exact ⟨(h (.inr (.inl ⟨rfl, after, hrun⟩))).1, by simp⟩

theorem Good.then_seq {log : Log} (h : s.Good (.seq first second) values) (hrun : first values log (.done values')) :
    s.Good second values' := by
  intro log' o hrun'
  obtain ⟨hheld, hleft⟩ := h (.inr (.inr ⟨values', log, log', hrun, hrun', rfl⟩))
  exact ⟨(Log.held_append.1 hheld).2, hleft⟩

theorem Good.choice_left (h : s.Good (.choice test yes no) values) : s.Good yes values := by
  intro log o hrun
  obtain ⟨hheld, hleft⟩ := h ⟨log, .inl hrun, rfl⟩
  exact ⟨(Log.held_append.1 hheld).2, hleft⟩

theorem Good.choice_right (h : s.Good (.choice test yes no) values) : s.Good no values := by
  intro log o hrun
  obtain ⟨hheld, hleft⟩ := h ⟨log, .inr hrun, rfl⟩
  exact ⟨(Log.held_append.1 hheld).2, hleft⟩

theorem Good.of_turns (h : s.Good (Turns ends test body) values) : s.Good body values := by
  intro log o hrun
  cases o with
  | cut => exact h (.cut hrun)
  | left after => exact h (.left hrun)
  | done after => exact ⟨(Log.held_append.1 (h (.stop hrun)).1).1, by simp⟩

theorem Good.then_turns {log : Log} (h : s.Good (Turns ends test body) values) (hrun : body values log (.done values')) :
    (∀ u ∈ test values', u.purpose.isChecked = true → u.held) ∧ s.Good (Turns ends test body) values' := by
  refine ⟨(Log.held_append.1 (h (.stop hrun)).1).2, fun log' o hrun' => ?_⟩
  obtain ⟨hheld, hleft⟩ := h (.more hrun hrun')
  exact ⟨(Log.held_append.1 hheld).2, hleft⟩

/-- Uses are of values if they are so with fewer values around. -/
theorem held_mono (hsub : values ⊆ values') (h : ∀ u ∈ s.uses values purpose rs, u.purpose.isChecked = true → u.held) :
    ∀ u ∈ s.uses values' purpose rs, u.purpose.isChecked = true → u.held := by
  intro u hu hchecked
  obtain ⟨r, hr, rfl⟩ := mem_map.1 hu
  exact hsub (h ⟨purpose, r, r ∈ values⟩ (mem_map.2 ⟨r, hr, rfl⟩) hchecked)

/-! One thing after another, choices and loops. -/

theorem Follows.acts {log : Storage → Log} {f : Storage → Storage} {along : Set Ref → Log} {g : Set Ref → Set Ref}
    (hheld : ∀ st values, values ⊆ st.view s → (along values).Held → (log st).Held)
    (htouched : ∀ st values, (along values).touched = (log st).touched)
    (hvalues : ∀ st values, values ⊆ st.view s → g values ⊆ (f st).view s)
    (htyped : ∀ st : Storage, st.Typed s.symbols → (f st).Typed s.symbols)
    (hkept : ∀ st : Storage, ∀ h ∈ st.live, h ∉ (log st).touched.map s.holder → h ∈ (f st).live) :
    s.Follows active (.acts log f) (.acts along g) := by
  rintro st _ o values htyped0 hready hsub hgood - ⟨rfl, ho⟩
  refine ⟨hheld st values hsub (hgood ⟨rfl, .inl rfl⟩).1, ?_, ?_⟩
  · rintro st' rfl
    obtain rfl : st' = f st := by simpa using ho
    refine ⟨along values, g values, ⟨rfl, .inr rfl⟩, htouched st values, fun r hr _ => hvalues st values hsub hr,
      htyped st htyped0, fun q hq r hr => ?_, fun h _ hnot hh => hkept st h hh hnot⟩
    refine hkept st _ (hready q hq r hr) fun hmem => hq ?_
    -- The routine itself is the only one whose locations it can name.
    obtain ⟨r', -, heq⟩ := mem_map.1 hmem
    have hscope : (if s.isLocal r'.name then some s.routine else none) = some q := congrArg Holder.scope heq
    split at hscope
    · rw [Option.some.inj hscope]
      exact mem_cons_self
    · cases hscope
  · rintro st' rfl
    simp at ho

theorem follows_skip : s.Follows active .skip .skip :=
  Follows.acts (fun _ _ _ h => h) (fun _ _ => rfl) (fun _ _ h => h) (fun _ h => h) fun _ _ h _ => h

theorem Follows.seq (hfirst : s.Follows active first' first) (hsecond : s.Follows active second' second) :
    s.Follows active (.seq first' second') (.seq first second) := by
  rintro st log o values htyped hready hsub hgood hfresh (⟨hrun, hnot⟩ | ⟨rfl, after, hrun⟩ | ⟨mid, l, m, hrun, hrest, rfl⟩)
  · obtain ⟨hheld, -, hleft⟩ := hfirst htyped hready hsub hgood.of_seq hfresh hrun
    refine ⟨hheld, fun st' ho => absurd ho (hnot st'), fun st' ho => ?_⟩
    obtain ⟨along, values', hpath, hrest⟩ := hleft st' ho
    exact ⟨along, values', .inl ⟨hpath, by simp⟩, hrest⟩
  · exact ⟨(hfirst htyped hready hsub hgood.of_seq hfresh hrun).1, by simp, by simp⟩
  · rw [Log.fresh_append] at hfresh
    obtain ⟨hheld, hdone, -⟩ := hfirst htyped hready hsub hgood.of_seq hfresh.1 hrun
    obtain ⟨along, values1, hpath, htouched, hlands⟩ := hdone mid rfl
    obtain ⟨hheld', hdone', hleft'⟩ :=
      hsecond hlands.typed hlands.ready hlands.view (hgood.then_seq hpath) hfresh.2 hrest
    refine ⟨Log.held_append.2 ⟨hheld, hheld'⟩, fun st' ho => ?_, fun st' ho => ?_⟩
    · obtain ⟨along', values', hpath', htouched', hlands'⟩ := hdone' st' ho
      exact ⟨along ++ along', values', .inr (.inr ⟨_, _, _, hpath, hpath', rfl⟩), by simp [htouched, htouched'],
        hlands.trans hlands' (List.Subset.refl _)⟩
    · obtain ⟨along', values', hpath', htouched', hlands'⟩ := hleft' st' ho
      exact ⟨along ++ along', values', .inr (.inr ⟨_, _, _, hpath, hpath', rfl⟩), by simp [htouched, htouched'],
        hlands.trans hlands' (subset_cons_self _ _)⟩

theorem Follows.choice (hyes : s.Follows active yes' yes) (hno : s.Follows active no' no) :
    s.Follows active (.choice (fun st => s.uses (st.view s) .choice rs) yes' no')
      (.choice (fun live => s.uses live .choice rs) yes no) := by
  rintro st _ o values htyped hready hsub hgood hfresh ⟨rest, hrun, rfl⟩
  have hchoice : ∀ u ∈ s.uses (st.view s) .choice rs, u.purpose.isChecked = true → u.held := by
    intro u hu hchecked
    rw [purpose_of_uses u hu] at hchecked
    cases hchecked
  rw [Log.fresh_append] at hfresh
  rcases hrun with hrun | hrun
  · obtain ⟨hheld, hdone, hleft⟩ := hyes htyped hready hsub hgood.choice_left hfresh.2 hrun
    refine ⟨Log.held_append.2 ⟨hchoice, hheld⟩, fun st' ho => ?_, fun st' ho => ?_⟩
    · obtain ⟨along, values', hpath, hlands⟩ := hdone st' ho
      exact ⟨_, values', ⟨along, .inl hpath, rfl⟩, hlands⟩
    · obtain ⟨along, values', hpath, hlands⟩ := hleft st' ho
      exact ⟨_, values', ⟨along, .inl hpath, rfl⟩, hlands⟩
  · obtain ⟨hheld, hdone, hleft⟩ := hno htyped hready hsub hgood.choice_right hfresh.2 hrun
    refine ⟨Log.held_append.2 ⟨hchoice, hheld⟩, fun st' ho => ?_, fun st' ho => ?_⟩
    · obtain ⟨along, values', hpath, hlands⟩ := hdone st' ho
      exact ⟨_, values', ⟨along, .inr hpath, rfl⟩, hlands⟩
    · obtain ⟨along, values', hpath, hlands⟩ := hleft st' ho
      exact ⟨_, values', ⟨along, .inr hpath, rfl⟩, hlands⟩

theorem Follows.turns (hbody : s.Follows active body' body) :
    s.Follows active (Turns ends (fun st => s.uses (st.view s) purpose rs) body')
      (Turns ends (fun live => s.uses live purpose rs) body) := by
  intro st log o values htyped hready hsub hgood hfresh hturns
  induction hturns generalizing values with
  | cut hrun => exact ⟨(hbody htyped hready hsub hgood.of_turns hfresh hrun).1, by simp, by simp⟩
  | left hrun =>
    obtain ⟨hheld, -, hleft⟩ := hbody htyped hready hsub hgood.of_turns hfresh hrun
    refine ⟨hheld, by simp, fun st' ho => ?_⟩
    obtain ⟨along, values', hpath, hrest⟩ := hleft st' ho
    exact ⟨along, values', .left hpath, hrest⟩
  | stop hrun =>
    rw [Log.fresh_append] at hfresh
    obtain ⟨hheld, hdone, -⟩ := hbody htyped hready hsub hgood.of_turns hfresh.1 hrun
    obtain ⟨along, values1, hpath, -, hlands⟩ := hdone _ rfl
    exact ⟨Log.held_append.2 ⟨hheld, held_mono hlands.view (hgood.then_turns hpath).1⟩, by simp, by simp⟩
  | last hends hrun =>
    rw [Log.fresh_append] at hfresh
    obtain ⟨hheld, hdone, -⟩ := hbody htyped hready hsub hgood.of_turns hfresh.1 hrun
    obtain ⟨along, values1, hpath, htouched, hlands⟩ := hdone _ rfl
    refine ⟨Log.held_append.2 ⟨hheld, held_mono hlands.view (hgood.then_turns hpath).1⟩, ?_, by simp⟩
    rintro _ ⟨⟩
    exact ⟨_, values1, .last hends hpath, by simp [htouched], by simpa using hlands⟩
  | more hrun _ ih =>
    rw [Log.fresh_append, Log.fresh_append] at hfresh
    obtain ⟨hheld, hdone, -⟩ := hbody htyped hready hsub hgood.of_turns hfresh.1.1 hrun
    obtain ⟨along, values1, hpath, htouched, hlands⟩ := hdone _ rfl
    obtain ⟨htest, hgood'⟩ := hgood.then_turns hpath
    obtain ⟨hheld', hdone', hleft'⟩ := ih hlands.typed hlands.ready hlands.view hgood' hfresh.2
    refine ⟨Log.held_append.2 ⟨Log.held_append.2 ⟨hheld, held_mono hlands.view htest⟩, hheld'⟩,
      fun st' ho => ?_, fun st' ho => ?_⟩
    · obtain ⟨along', values', hpath', htouched', hlands'⟩ := hdone' st' ho
      exact ⟨_, values', .more hpath hpath', by simp [htouched, htouched'],
        by simpa using hlands.trans hlands' (List.Subset.refl _)⟩
    · obtain ⟨along', values', hpath', htouched', hlands'⟩ := hleft' st' ho
      exact ⟨_, values', .more hpath hpath', by simp [htouched, htouched'],
        by simpa using hlands.trans hlands' (subset_cons_self _ _)⟩

end Setting

end CheckedAsm
