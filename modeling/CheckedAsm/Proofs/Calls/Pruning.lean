import CheckedAsm.Build
import CheckedAsm.Proofs.Calls.Graph
import CheckedAsm.Proofs.Values.Programs
/-! # What pruning leaves

Calls and jumps by name never lead out of what is left when a program is pruned. Where control goes through vectors, the call
graph goes by types: it takes a vector to hold any routine with just the constraints of the vector. So no execution leads out
of what is left as long as each vector holds only such routines, or routines that are left anyway. Copies between vectors and
tables compare types in the same way and keep to this. But a routine that has fewer constraints than a vector may be copied
into it as well. Then it may be entered though it is not left; and whether a routine is copied at all does not count. -/

namespace CheckedAsm

open List

variable {test : Storage → List Use} {all : List Analysed} {g : CallGraph} {st : Storage}

/-! ### Executions that keep to something -/

/-- A run starts and ends where something holds, and enters only what it may. -/
def Run.Keeps (I : Storage → Prop) (E : String → Prop) (run : Run) : Prop :=
  ∀ st log o, I st → run st log o → (∀ x ∈ log.entered, E x.1) ∧ ∀ st', o = some st' → I st'

/-- The same for a way through something. -/
def Way.Keeps (I : Storage → Prop) (E : String → Prop) (way : Way Storage) : Prop :=
  ∀ st log o, I st → way st log o → (∀ x ∈ log.entered, E x.1) ∧ ∀ st', o.back? = some st' → I st'

section Keeps

variable {I : Storage → Prop} {E : String → Prop} {C : Executable → Prop} {first second yes no body : Way Storage}
  {s : Setting} {call jump : Executable → Run}

namespace Way.Keeps

theorem acts {log : Storage → Log} {f : Storage → Storage} (hlog : ∀ st, (log st).entered = [])
    (hf : ∀ st, I st → I (f st)) : Way.Keeps I E (.acts log f) := by
  rintro st _ o hst ⟨rfl, rfl | rfl⟩
  · exact ⟨by simp [hlog], by simp [Ending.back?]⟩
  · refine ⟨by simp [hlog], ?_⟩
    rintro _ ⟨⟩
    exact hf st hst

theorem skip : Way.Keeps I E .skip := acts (fun _ => rfl) fun _ h => h

theorem seq (hfirst : first.Keeps I E) (hsecond : second.Keeps I E) : (Way.seq first second).Keeps I E := by
  rintro st log o hst (⟨hrun, -⟩ | ⟨rfl, mid, hrun⟩ | ⟨mid, l, m, hrun, hrest, rfl⟩)
  · exact hfirst st log o hst hrun
  · exact ⟨(hfirst st log _ hst hrun).1, by simp [Ending.back?]⟩
  · obtain ⟨hentered, hmid⟩ := hfirst st l _ hst hrun
    obtain ⟨hentered', hend⟩ := hsecond mid m o (hmid mid rfl) hrest
    exact ⟨forall_mem_append.2 ⟨hentered, hentered'⟩, hend⟩

theorem choice (hyes : yes.Keeps I E) (hno : no.Keeps I E) : (Way.choice test yes no).Keeps I E := by
  rintro st _ o hst ⟨rest, hrun | hrun, rfl⟩
  · exact hyes st rest o hst hrun
  · exact hno st rest o hst hrun

theorem turns {ends : Bool} (hbody : body.Keeps I E) : Way.Keeps I E (Turns ends test body) := by
  intro st log o hst hturns
  induction hturns with
  | cut hrun => exact hbody _ _ _ hst hrun
  | left hrun => exact hbody _ _ _ hst hrun
  | stop hrun => exact ⟨by simpa using (hbody _ _ _ hst hrun).1, by simp [Ending.back?]⟩
  | last _ hrun =>
    obtain ⟨hentered, hend⟩ := hbody _ _ _ hst hrun
    exact ⟨by simpa using hentered, hend⟩
  | more hrun _ ih =>
    obtain ⟨hentered, hend⟩ := hbody _ _ _ hst hrun
    obtain ⟨hentered', hend'⟩ := ih (hend _ rfl)
    exact ⟨by simpa using forall_mem_append.2 ⟨hentered, hentered'⟩, hend'⟩

/-- Giving control to code that keeps to something. -/
theorem transfers {go : Executable → Run} {target : String} {comesBack : Storage → Ending Storage}
    (hback : ∀ st, (comesBack st).back? = some st)
    (hcode : ∀ st e, I st → st.codes s (.location target) e → C e) (hgo : ∀ e, C e → (go e).Keeps I E) :
    Way.Keeps I E (s.Transfers go comesBack target) := by
  rintro st _ o hst ⟨ty, sig, rest, -, -, rfl, ⟨rfl, rfl⟩ | ⟨e, back, he, hrun, rfl⟩⟩
  · exact ⟨by simp, by simp [Ending.back?]⟩
  · obtain ⟨hentered, hend⟩ := hgo e (hcode st e hst he) st rest back hst hrun
    refine ⟨hentered, ?_⟩
    cases back with
    | none => simp [Ending.after, Ending.back?]
    | some st' => simpa [Ending.after, hback] using hend

end Way.Keeps

/-- All that an execution of a block can do keeps to something: what depends on the code that is held only, and is kept by
the operations and by the code that gets control. -/
structure Setting.Safe (s : Setting) (I : Storage → Prop) (E : String → Prop) (C : Executable → Prop)
    (call jump : Executable → Run) : Prop where
  held : ∀ st st' : Storage, st'.held = st.held → I st → I st'
  calls : ∀ e, C e → (call e).Keeps I E
  jumps : ∀ e, C e → (jump e).Keeps I E

mutual

theorem Instr.exec_keeps (hsafe : s.Safe I E C call jump) : ∀ (i : Instr) (env : Pointees),
    (∀ op ∈ i.ops, ∀ st env, I st → I (st.operate s env op)) →
    (∀ name ∈ i.targets, ∀ st e, I st → st.codes s (.location name) e → C e) → (i.Exec s call jump env).Keeps I E
  | .op line op, env, hops, _ => .acts (fun _ => rfl) fun st => hops op.settled (by simp [Instr.ops]) st env
  | .call line target, env, _, hcode => .transfers (fun _ => rfl) (hcode target (by simp [Instr.targets])) hsafe.calls
  | .goto line target, env, _, hcode => .transfers (fun _ => rfl) (hcode target (by simp [Instr.targets])) hsafe.jumps
  | .reset line p offset, env, _, _ => .acts (fun _ => rfl) fun st => hsafe.held st _ rfl
  | .ifThen line src inv yes, env, hops, hcode => (yes.exec_keeps hsafe env hops hcode).choice .skip
  | .ifElse line src inv yes no, env, hops, hcode => by
    simp only [Instr.ops, Instr.targets, forall_mem_append] at hops hcode
    exact (yes.exec_keeps hsafe env hops.1 hcode.1).choice (no.exec_keeps hsafe env hops.2 hcode.2)
  | .loop line src inv body, env, hops, hcode => (body.exec_keeps hsafe env hops hcode).turns
  | .count line d dir final body, env, hops, hcode => by
    have hset : ∀ log : Storage → Log, (∀ st, (log st).entered = []) → Way.Keeps I E (.acts log (·.after s [d] [])) :=
      fun log hlog => .acts hlog fun st => hsafe.held st _ rfl
    exact (hset _ fun _ => rfl).seq ((body.exec_keeps hsafe env hops hcode).turns.seq (hset _ fun _ => rfl))
  | .interruptsOff line body, env, hops, hcode => body.exec_keeps hsafe env hops hcode
  | .save line locations body, env, hops, hcode => by
    rintro st _ _ hst ⟨inner, o, hrun, rfl, rfl⟩
    obtain ⟨hentered, hend⟩ := body.exec_keeps hsafe env hops hcode st inner o hst hrun
    refine ⟨hentered, fun st' ho => ?_⟩
    cases o with
    | cut => cases ho
    | done inside =>
      cases ho
      exact hsafe.held inside _ rfl (hend inside rfl)
    | left inside => exact hend st' ho
  | .pointInto line p table body, env, hops, hcode => body.exec_keeps hsafe _ hops hcode

theorem Block.exec_keeps (hsafe : s.Safe I E C call jump) : ∀ (b : Block) (env : Pointees),
    (∀ op ∈ b.ops, ∀ st env, I st → I (st.operate s env op)) →
    (∀ name ∈ b.targets, ∀ st e, I st → st.codes s (.location name) e → C e) → (b.Exec s call jump env).Keeps I E
  | .nil _, env, _, _ => .skip
  | .cons head tail, env, hops, hcode => by
    simp only [Block.ops, Block.targets, forall_mem_append] at hops hcode
    exact (head.exec_keeps hsafe env hops.1 hcode.1).seq (tail.exec_keeps hsafe env hops.2 hcode.2)

end

end Keeps

/-! ### Executions of programs -/

/-- The runs of code, with the routines that wait for it to come back, whatever code outside the program does. -/
def Program.Goes (symbols : Symbols) (p : Program) (outside : List String → Executable → Run) :
    Nat → List String → Executable → Run
  | 0, _, _ => fun _ log o => log = {} ∧ o = none
  | depth + 1, active, e => fun st log o =>
    match p.body? e with
    | some (r, body) => ∃ inner o',
        body.Exec (r.setting symbols) (p.Goes symbols outside depth (r.name :: active)) (p.Goes symbols outside depth active)
          (fun _ => none) st inner o'
        ∧ log = { inner with entered := (r.name, active) :: inner.entered } ∧ o = o'.back?
    | none => outside active e st log o

/-- Code outside the program that does what its signature says is an instance. -/
theorem Program.enters_eq_goes (symbols : Symbols) (p : Program) (depth : Nat) (active : List String) :
    p.Enters symbols depth active = p.Goes symbols
      (fun _ e st log o => ∃ sig, symbols.signature? e = some sig ∧ sig.Performs symbols st log o) depth active := by
  induction depth generalizing active with
  | zero => rfl
  | succ depth ih =>
    funext e st log o
    cases hbody : p.body? e with
    | none => simp only [Enters, Goes, hbody]
    | some found => simp only [Enters, Goes, hbody, ih]

variable {symbols : Symbols} {p : Program}

namespace CallGraph

/-- A routine of this name is left, if the program has one. -/
def Spares (g : CallGraph) (all : List Analysed) (name : String) : Prop :=
  ∀ q ∈ all, q.routine.name = name → q ∈ g.prune all

/-- Code that may get control: it is left, or it is not the program's. -/
def Passes (g : CallGraph) (all : List Analysed) (e : Executable) : Prop := ∀ name, e = .routine name → g.Spares all name

/-- Code that a vector may hold: it is left or not the program's, or it has just the constraints of the vector. -/
def Suits (g : CallGraph) (all : List Analysed) (symbols : Symbols) (e : Executable) (limit : Signature) : Prop :=
  g.Passes all e ∨ symbols.signature? e = some limit

/-- A routine that is copied into a vector suits it. -/
def Matches (g : CallGraph) (all : List Analysed) (s : Setting) : Op → Prop
  | .copy (.location m) d => ∀ sig limit, s.typeOf (.location m) = .ok (.routine sig) →
      s.typeOf d = .ok (.vector (.routine limit)) → g.Suits all s.symbols (s.code m sig) limit
  | _ => True

end CallGraph

/-- What code outside the program may do: it enters only itself, and does not put routines into vectors that they do not
suit. -/
def CallGraph.Tolerates (g : CallGraph) (all : List Analysed) (symbols : Symbols) (outside : List String → Executable → Run) :
    Prop :=
  ∀ active e st log o, outside active e st log o → (∀ x ∈ log.entered, e = .routine x.1)
    ∧ ∀ st', o = some st' → st.Holds symbols (g.Suits all symbols) → st'.Holds symbols (g.Suits all symbols)

/-- An accepted operation keeps vectors to code that suits them. -/
theorem Focus.single_keepsSuited {f : Focus} {cx cx' : Context} {op : Op} (h : f.single cx op = .ok cx')
    (hmatches : g.Matches all f.setting op) (env : Pointees) (hst : st.Holds f.setting.symbols (g.Suits all f.setting.symbols)) :
    (st.operate f.setting env op).Holds f.setting.symbols (g.Suits all f.setting.symbols) := by
  refine single_keepsHeld h (fun m sig hty => .inr (Setting.signature_code hty)) ?_ env hst
  rintro m name sig limit rfl hts htd
  exact hmatches sig limit hts htd

section Accepted

variable (haccepted : (p.analyse symbols).2 = .ok all) (hnames : (p.routines.map (·.name)).Nodup)
  (hgraph : CallGraph.ofRoutines all = .ok g)

include haccepted hnames hgraph

/-- Code that a routine which is left calls or jumps to may get control, if vectors hold code that suits them. -/
theorem Program.passes_of_codes {r : Analysed} (hr : r ∈ g.prune all) {name : String} (htarget : r.routine.Targets name)
    (hst : st.Holds symbols (g.Suits all symbols)) {e : Executable}
    (he : st.codes (r.routine.setting symbols) (.location name) e) : g.Passes all e := by
  have hr' := mem_of_mem_filter hr
  have hfacts := (Program.analyse_eq haccepted).2
  obtain ⟨-, -, htyped⟩ := Routine.facts_of_accepted (hfacts r hr')
  obtain ⟨sig, hty | hty⟩ := htyped name htarget
  · rintro n rfl q hq rfl
    have hcode := (Storage.codes_routine hty).1 he
    unfold Setting.code at hcode
    split at hcode
    · cases hcode
    · obtain rfl : q.routine.name = name := Executable.routine.inj hcode
      exact (mem_prune_iff haccepted hnames hgraph hq).2 (.inr ⟨r, hr, .named htarget hty⟩)
  · have hheld : st.held ((r.routine.setting symbols).holder (.location name)) e :=
      Storage.held_of_codes hty rfl he
    rcases Storage.Holds.of_name (s := r.routine.setting symbols) hst hty rfl hheld with hpasses | hsame
    · exact hpasses
    · rintro n rfl q hq rfl
      have hown := Symbols.globalType?_of_routine? (show symbols.routine? q.routine.name = some sig from hsame)
      exact (mem_prune_iff haccepted hnames hgraph hq).2 (.inr ⟨r, hr, .through htarget hty hown rfl⟩)

/-- Code that may get control enters only what is left, by induction on how deep calls and jumps are nested. -/
theorem Program.goes_keeps {outside : List String → Executable → Run} (houtside : g.Tolerates all symbols outside)
    (hcopies : ∀ r ∈ g.prune all, ∀ body, r.routine.body = some body → ∀ op ∈ body.ops,
      g.Matches all (r.routine.setting symbols) op) (depth : Nat) : ∀ active e, g.Passes all e →
    (p.Goes symbols outside depth active e).Keeps (·.Holds symbols (g.Suits all symbols)) (g.Spares all) := by
  induction depth with
  | zero =>
    rintro active e - st _ _ hst ⟨rfl, rfl⟩
    exact ⟨by simp, by simp⟩
  | succ depth ih =>
    intro active e he st log o hst hrun
    simp only [Goes] at hrun
    split at hrun
    · next r body hbody =>
      obtain ⟨rfl, hr, hbody⟩ := body?_eq_some hbody
      obtain ⟨inner, o', hexec, rfl, rfl⟩ := hrun
      obtain ⟨hroutines, hfacts⟩ := analyse_eq haccepted
      obtain ⟨q, hq, rfl⟩ := mem_map.1 (hroutines ▸ hr)
      have hleft := he _ rfl q hq rfl
      obtain ⟨sig, t, -, hwalk, -⟩ := Routine.analyse_ok (hfacts q hq) hbody
      obtain ⟨cx, hwalk, -⟩ := Routine.walk_start hwalk
      have hsafe : (q.routine.setting symbols).Safe (·.Holds symbols (g.Suits all symbols)) (g.Spares all) (g.Passes all)
          (p.Goes symbols outside depth (q.routine.name :: active)) (p.Goes symbols outside depth active) :=
        ⟨fun st st' heq h k e he => h k e (heq ▸ he), ih _, ih _⟩
      have hops : ∀ op ∈ body.ops, ∀ (st : Storage) env, st.Holds symbols (g.Suits all symbols) →
          (st.operate (q.routine.setting symbols) env op).Holds symbols (g.Suits all symbols) := by
        intro op hop st env hst
        obtain ⟨f, hf, cx, cx', hsingle⟩ := body.walk_ops _ hwalk op hop
        have hmatches := hcopies q hleft body hbody op hop
        rw [← hf] at hmatches ⊢
        have hsymbols : f.setting.symbols = symbols := by rw [hf]; rfl
        exact hsymbols ▸ Focus.single_keepsSuited hsingle hmatches env (hsymbols.symm ▸ hst)
      have hcode : ∀ name ∈ body.targets, ∀ (st : Storage) e, st.Holds symbols (g.Suits all symbols) →
          st.codes (q.routine.setting symbols) (.location name) e → g.Passes all e :=
        fun name hname st e hst he => passes_of_codes haccepted hnames hgraph hleft ⟨body, hbody, hname⟩ hst he
      obtain ⟨hentered, hend⟩ := body.exec_keeps hsafe _ hops hcode st inner o' hst hexec
      exact ⟨forall_mem_cons.2 ⟨he _ rfl, hentered⟩, hend⟩
    · obtain ⟨hentered, hend⟩ := houtside active e st log o hrun
      exact ⟨fun x hx => he _ (hentered x hx), fun st' ho => hend st' ho hst⟩

end Accepted

/-- Pruning an accepted program. What a routine that is left calls or jumps to by name is left. A routine is left exactly if
it is `main` or preserved, or if one that is left may give control to it, by name or through a vector with just its
constraints. Where routines are copied only into vectors that they suit, every routine is left that is entered, directly or
through a vector, in an execution from `main` or from a routine that is preserved; afterwards vectors hold code that suits
them as they did before. -/
theorem Program.prune_safe (symbols : Symbols) (p : Program) (all : List Analysed) (g : CallGraph)
    (haccepted : (p.analyse symbols).2 = .ok all) (hgraph : CallGraph.ofRoutines all = .ok g)
    (hnames : (p.routines.map (·.name)).Nodup) :
    (∀ r ∈ g.prune all, ∀ name sig, r.routine.Targets name →
      (r.routine.setting symbols).typeOfName name = .ok (.routine sig) → ∃ q ∈ g.prune all, q.routine.name = name)
    ∧ (∀ q ∈ all, q ∈ g.prune all ↔
      q.routine.name ∈ CallGraph.roots all ∨ ∃ r ∈ g.prune all, r.routine.MayEnter symbols q.routine)
    ∧ ((∀ r ∈ g.prune all, ∀ body, r.routine.body = some body → ∀ op ∈ body.ops,
        g.Matches all (r.routine.setting symbols) op) →
      ∀ outside, g.Tolerates all symbols outside → ∀ root ∈ CallGraph.roots all, ∀ st : Storage,
        st.Holds symbols (g.Suits all symbols) → ∀ depth active log o,
          p.Goes symbols outside depth active (.routine root) st log o →
          (∀ q ∈ all, q.routine.name ∈ log.entered.map Prod.fst → q ∈ g.prune all)
            ∧ ∀ st', o = some st' → st'.Holds symbols (g.Suits all symbols)) := by
  refine ⟨fun r hr name sig htarget hty => prune_named haccepted hnames hgraph hr htarget hty,
    fun q hq => mem_prune_iff haccepted hnames hgraph hq, ?_⟩
  intro hcopies outside houtside root hroot st hst depth active log o hrun
  have hpasses : g.Passes all (.routine root) := by
    rintro n ⟨⟩ q hq rfl
    exact (mem_prune_iff haccepted hnames hgraph hq).2 (.inl hroot)
  obtain ⟨hentered, hend⟩ :=
    goes_keeps haccepted hnames hgraph houtside hcopies depth active _ hpasses st log o hst hrun
  refine ⟨fun q hq hmem => ?_, hend⟩
  obtain ⟨x, hx, hname⟩ := mem_map.1 hmem
  exact hentered x hx q hq hname.symm

/-! ### Two routines and a vector -/

/-- A routine that sets `x` and spoils the accumulator. -/
def widerSignature : Signature :=
  { outputs := [⟨"x", none⟩], trashes := [⟨"a", none⟩, ⟨"n", none⟩, ⟨"z", none⟩] }

/-- A vector of the given type, two routines, and the main routine. -/
def twoRoutinesSymbols (limit : Signature) : Symbols :=
  (((Symbols.initial.declare "vec" ⟨.builtin, .vector (.routine limit)⟩).declare "foo"
    ⟨.builtin, .routine settingSignature⟩).declare "bar" ⟨.builtin, .routine widerSignature⟩).declare "main"
    ⟨.builtin, .routine vectoredSignature⟩

/-- The main routine copies one of the two others into the vector and calls it. -/
def twoRoutines : Program :=
  { defns := [⟨0, "vec", none, none⟩]
    routines := [⟨0, "foo", none, [], some setX, false⟩, ⟨0, "bar", none, [], some setX, false⟩,
      ⟨0, "main", none, [], some throughVector, false⟩] }

/-- Whatever the constraints of the vector are, the routine that it holds is entered. -/
theorem twoRoutines_runs (limit : Signature) (outside : List String → Executable → Run) :
    ∃ log st, twoRoutines.Goes (twoRoutinesSymbols limit) outside 2 [] (.routine "main") (.ofValues ∅) log (some st)
      ∧ log.entered.map Prod.fst = ["main", "foo"] := by
  let s : Setting := ⟨twoRoutinesSymbols limit, "main", 0⟩
  let st1 := (Storage.ofValues ∅).operate s (fun _ => none) (.copy (.location "foo") (.location "vec"))
  have hfoo : twoRoutines.Goes (twoRoutinesSymbols limit) outside 1 ["main"] (.routine "foo") st1 _ (some _) :=
    ⟨_, .done _, .inr (.inr ⟨_, _, _, ⟨rfl, .inr rfl⟩, ⟨rfl, .inr rfl⟩, rfl⟩), rfl, rfl⟩
  have hholds : st1.codes s (.location "vec") (.routine "foo") := by
    have hvec : s.typeOfName "vec" = .ok (.vector (.routine limit)) := rfl
    have hfoo : s.typeOfName "foo" = .ok (.routine settingSignature) := rfl
    simp only [Storage.codes, hvec, st1, Storage.operate, Storage.copied, ↓reduceIte, hfoo]
    rfl
  have hcall : s.Transfers (twoRoutines.Goes (twoRoutinesSymbols limit) outside 1 ["main"]) .done "vec" st1 _ _ :=
    ⟨_, _, _, rfl, rfl, rfl, .inr ⟨.routine "foo", _, hholds, hfoo, rfl⟩⟩
  exact ⟨_, _, ⟨_, .done _, .inr (.inr ⟨st1, _, _, ⟨rfl, .inr rfl⟩, .inr (.inr ⟨_, _, _, hcall,
    .inr (.inr ⟨_, _, _, ⟨rfl, .inr rfl⟩, ⟨rfl, .inr rfl⟩, rfl⟩), rfl⟩), rfl⟩), rfl, rfl⟩, rfl⟩

theorem twoRoutines_matches
    (h : (twoRoutines.analyse (twoRoutinesSymbols settingSignature)).2 = .ok all) : ∀ r ∈ g.prune all, ∀ body,
    r.routine.body = some body → ∀ op ∈ body.ops, g.Matches all (r.routine.setting (twoRoutinesSymbols settingSignature)) op := by
  intro r hr body hbody
  have hmem : r.routine ∈ twoRoutines.routines :=
    (Program.analyse_eq h).1 ▸ mem_map_of_mem (mem_of_mem_filter hr)
  have hset : ∀ s, ∀ op ∈ setX.ops, g.Matches all s op := by
    simp [setX, Block.ops, Instr.ops, Op.settled, Op.mapRefs, CallGraph.Matches]
  simp only [twoRoutines, mem_cons, not_mem_nil, or_false] at hmem
  obtain hr | hr | hr := hmem
  all_goals rw [hr] at hbody ⊢; obtain rfl := Option.some.inj hbody
  · exact hset _
  · exact hset _
  · simp only [throughVector, Block.ops, Instr.ops, cons_append, nil_append, forall_mem_cons]
    refine ⟨?_, trivial, by simp⟩
    rintro sig limit ⟨⟩ ⟨⟩
    exact .inr rfl

/-- The routine that has just the constraints of the vector is left, the other one is not; and what is entered is left. -/
theorem twoRoutines_prune_safe : ∃ all g log st,
    (twoRoutines.analyse (twoRoutinesSymbols settingSignature)).2 = .ok all ∧ CallGraph.ofRoutines all = .ok g
      ∧ (g.prune all).map (·.routine.name) = ["foo", "main"]
      ∧ twoRoutines.Goes (twoRoutinesSymbols settingSignature) (fun _ _ _ _ _ => False) 2 [] (.routine "main") (.ofValues ∅)
        log (some st)
      ∧ log.entered.map Prod.fst = ["main", "foo"]
      ∧ ∀ q ∈ all, q.routine.name ∈ log.entered.map Prod.fst → q ∈ g.prune all := by
  obtain ⟨log, st, hrun, hentered⟩ := twoRoutines_runs settingSignature fun _ _ _ _ _ => False
  refine ⟨_, _, log, st, rfl, rfl, rfl, hrun, hentered, ?_⟩
  have hsafe := Program.prune_safe (twoRoutinesSymbols settingSignature) twoRoutines _ _ rfl rfl (by decide)
  exact (hsafe.2.2 (twoRoutines_matches rfl) _ (fun _ _ _ _ _ h => h.elim) "main" (by decide) (.ofValues ∅)
    (fun _ _ h => h.elim) 2 [] log (some st) hrun).1

/-- Where the vector has more constraints, the routine that it holds is not left, though it is entered; what is left mentions
it and cannot be compiled. -/
theorem narrower_routine_pruned : ∃ all g log st,
    (twoRoutines.analyse (twoRoutinesSymbols widerSignature)).2 = .ok all ∧ CallGraph.ofRoutines all = .ok g
      ∧ twoRoutines.Enters (twoRoutinesSymbols widerSignature) 2 [] (.routine "main") (.ofValues ∅) log (some st)
      ∧ log.entered.map Prod.fst = ["main", "foo"] ∧ (g.prune all).map (·.routine.name) = ["bar", "main"]
      ∧ (Build.ofProgram {} (twoRoutinesSymbols widerSignature) twoRoutines).failure.isNone = true
      ∧ (Build.ofProgram { prune := true } (twoRoutinesSymbols widerSignature) twoRoutines).failure
        = some (.compile, .unknownName "foo") := by
  obtain ⟨log, st, hrun, hentered⟩ := twoRoutines_runs widerSignature _
  exact ⟨_, _, log, st, rfl, rfl, Program.enters_eq_goes _ _ 2 [] ▸ hrun, hentered, rfl, by decide +kernel, rfl⟩

end CheckedAsm
