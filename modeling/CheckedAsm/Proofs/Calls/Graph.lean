import CheckedAsm.Proofs.Analysis.Walk
import CheckedAsm.Proofs.Calls.Marking
import Mathlib.Data.List.Nodup
/-! # Call graphs of accepted programs

While the analysis walks through a body it records what is called and what is jumped to, at any depth and on all branches.
The graph has an edge for each of these that is a routine, and for a vector one to each routine that has just the constraints
of the vector. So a routine is reachable exactly if there is a way to it from `main` or from a routine that is preserved,
each step of which is a call or a jump to a routine by name or through such a vector. -/

namespace CheckedAsm

open List Program

variable {t t' : Trail} {a target : String} {ty : Ty} {sig : Signature} {f : Focus} {q r : Analysed} {p : Program}
  {all : List Analysed} {g : CallGraph}

/-! ### Computations for each member of a list -/

section MapM

variable {ε α β γ : Type} {f : α → Except ε β} {l : List α} {ys : List β}

theorem mem_of_mapM_ok (h : l.mapM f = .ok ys) {y : β} : y ∈ ys ↔ ∃ x ∈ l, f x = .ok y := by
  induction l generalizing ys with
  | nil =>
    cases h
    simp
  | cons x l ih =>
    simp only [mapM_cons, bind_eq_ok, pure_eq_ok] at h
    obtain ⟨y', hy', ys, hys, rfl⟩ := h
    simp [ih hys, hy', eq_comm]

theorem exists_mapM_ok (h : ∀ x ∈ l, ∃ y, f x = .ok y) : ∃ ys, l.mapM f = .ok ys := by
  induction l with
  | nil => exact ⟨[], rfl⟩
  | cons x l ih =>
    obtain ⟨⟨y, hy⟩, hl⟩ := forall_mem_cons.1 h
    obtain ⟨ys, hys⟩ := ih hl
    exact ⟨y :: ys, by simp only [mapM_cons, hy, hys]; rfl⟩

theorem map_of_mapM_ok (h : l.mapM f = .ok ys) {p : β → γ} {q : α → γ} (hpq : ∀ x y, f x = .ok y → p y = q x) :
    ys.map p = l.map q := by
  induction l generalizing ys with
  | nil =>
    cases h
    rfl
  | cons x l ih =>
    simp only [mapM_cons, bind_eq_ok, pure_eq_ok] at h
    obtain ⟨y, hy, ys, hys, rfl⟩ := h
    rw [map_cons, map_cons, hpq x y hy, ih hys]

end MapM

/-! ### What is recorded -/

mutual

/-- The names that are called or jumped to in an instruction. -/
def Instr.targets : Instr → List String
  | .call _ target | .goto _ target => [target]
  | .op .. | .reset .. => []
  | .ifThen _ _ _ yes => yes.targets
  | .ifElse _ _ _ yes no => yes.targets ++ no.targets
  | .loop _ _ _ body | .count _ _ _ _ body | .interruptsOff _ body | .save _ _ body | .pointInto _ _ _ body => body.targets

/-- The names that are called or jumped to in a block. -/
def Block.targets : Block → List String
  | .nil _ => []
  | .cons head tail => head.targets ++ tail.targets

end

/-- Just these names have been recorded on the way, each with its type, which leads to a routine. -/
structure Setting.Records (s : Setting) (targets : List String) (before after : List (String × Ty)) : Prop where
  calls : ∀ c, c ∈ after ↔ c ∈ before ∨ c.1 ∈ targets ∧ s.typeOfName c.1 = .ok c.2
  typed : ∀ name ∈ targets, ∃ sig, s.typeOfName name = .ok (.routine sig) ∨ s.typeOfName name = .ok (.vector (.routine sig))

namespace Setting.Records

variable {s : Setting} {targets more : List String} {before mid after : List (String × Ty)}

theorem nil : s.Records [] before before := ⟨by simp, by simp⟩

theorem append (h : s.Records targets before mid) (h' : s.Records more mid after) :
    s.Records (targets ++ more) before after where
  calls c := by rw [h'.calls, h.calls, mem_append, or_and_right, or_assoc]
  typed := forall_mem_append.2 ⟨h.typed, h'.typed⟩

/-- Going through the same once more records nothing new. -/
theorem again (h : s.Records targets before mid) (h' : s.Records targets mid after) : s.Records targets before after where
  calls c := by rw [h'.calls, h.calls, or_assoc, or_self]
  typed := h.typed

/-- A name that is recorded. -/
theorem meet (hty : s.typeOfName target = .ok ty)
    (hsig : ty = .routine sig ∨ ty = .vector (.routine sig)) : s.Records [target] t.calls (t.meet target ty).calls where
  calls c := by
    have hmeet : c ∈ (t.meet target ty).calls ↔ c ∈ t.calls ∨ c = (target, ty) := by
      unfold Trail.meet
      split
      · next hmem => exact ⟨.inl, fun h => h.elim id fun heq => by simpa [heq] using hmem⟩
      · simp
    obtain ⟨name, u⟩ := c
    rw [hmeet, mem_singleton, Prod.mk.injEq]
    refine or_congr_right (and_congr_right ?_)
    rintro rfl
    simp [hty, eq_comm]
  typed name hname := by
    obtain rfl := mem_singleton.1 hname
    refine ⟨sig, hsig.imp ?_ ?_⟩ <;> exact fun h => h ▸ hty

end Setting.Records

theorem Focus.call_records (h : f.call t target = .ok t') : f.setting.Records [target] t.calls t'.calls := by
  obtain ⟨ty, sig, cx, hty, hsig, -, -, rfl⟩ := call_ok h
  exact .meet hty hsig

theorem Focus.jump_records (h : f.jump t target = .ok t') : f.setting.Records [target] t.calls t'.calls := by
  obtain ⟨ty, sig, left, hty, hsig, -, -, rfl⟩ := jump_ok h
  exact .meet hty hsig

mutual

theorem Instr.walk_records (s : Setting) (i : Instr) {t t' : Trail} (hw : i.walk s t = .ok t') :
    s.Records i.targets t.calls t'.calls := by
  cases Instr.walked hw with
  | op => exact .nil
  | call h => exact Focus.call_records h
  | goto h => exact Focus.jump_records h
  | reset => exact .nil
  | ifThen yes h1 => exact (yes.walk_records s h1 :)
  | ifElse yes no h1 h2 =>
    have hyes := yes.walk_records s h1
    have hno := no.walk_records s h2
    exact hyes.append hno
  | loop body h1 _ _ h2 => exact (body.walk_records s h1).again (body.walk_records s h2)
  | count body _ h1 h2 => exact ((body.walk_records s h1).again (body.walk_records s h2) :)
  | interruptsOff body h => exact body.walk_records s h
  | save body _ h1 => exact (body.walk_records s h1 :)
  | pointInto body _ h1 => exact (body.walk_records s h1 :)

theorem Block.walk_records (s : Setting) : ∀ (b : Block) {t t' : Trail}, b.walk s t = .ok t' →
    s.Records b.targets t.calls t'.calls
  | .nil _, t, t', h => by
    cases h
    exact .nil
  | .cons head tail, t, t', h => by
    obtain ⟨t1, h1, h2⟩ := bind_eq_ok.1 h
    exact (head.walk_records s h1).append (tail.walk_records s h2)

end

/-- A name is called or jumped to in the body of a routine. -/
def Routine.Targets (r : Routine) (name : String) : Prop := ∃ body, r.body = some body ∧ name ∈ body.targets

variable {symbols : Symbols}

/-- What is known about an accepted routine: its type, and just what its body calls and jumps to. -/
theorem Routine.facts_of_accepted {r : Routine} {facts : Facts} (h : (r.analyse symbols).2 = .ok facts) :
    symbols.globalType? r.name = some facts.ty
      ∧ (∀ c, c ∈ facts.calls ↔ r.Targets c.1 ∧ (r.setting symbols).typeOfName c.1 = .ok c.2)
      ∧ ∀ name, r.Targets name → ∃ sig, (r.setting symbols).typeOfName name = .ok (.routine sig)
        ∨ (r.setting symbols).typeOfName name = .ok (.vector (.routine sig)) := by
  have hglobal : ∀ {ty}, (r.setting symbols).globalType r.name = .ok ty → symbols.globalType? r.name = some ty := by
    intro ty hty
    unfold Setting.globalType at hty
    split at hty
    · next heq => exact heq.trans (congrArg some (Except.ok.inj hty))
    · cases hty
  simp only [Routine.analyse] at h
  split at h
  · cases h
  · next ty hty hbody =>
    cases h
    exact ⟨hglobal hty, by simp [Targets, hbody], by simp [Targets, hbody]⟩
  · next sig body hty hbody =>
    split at h
    · cases h
    · next t hwalk =>
      simp only [map_eq_ok] at h
      obtain ⟨cx, -, rfl⟩ := h
      simp only [Routine.walk, bind_eq_ok] at hwalk
      obtain ⟨cx0, -, cx1, -, hwalk⟩ := hwalk
      obtain ⟨hcalls, htyped⟩ := body.walk_records _ hwalk
      refine ⟨hglobal hty, ?_, ?_⟩
      · simpa [Targets, hbody] using hcalls
      · simpa [Targets, hbody] using htyped
  · cases h

/-- The routines of an accepted program are accepted, each with what is known about it. -/
theorem Program.analyse_eq (h : (p.analyse symbols).2 = .ok all) :
    all.map (·.routine) = p.routines ∧ ∀ r ∈ all, (r.routine.analyse symbols).2 = .ok r.facts := by
  have hall : ∀ (l : List Routine) (log : ExitLog) (all : List Analysed), (analyseAll symbols l log).2 = .ok all →
      all.map (·.routine) = l ∧ ∀ r ∈ all, (r.routine.analyse symbols).2 = .ok r.facts := by
    intro l
    induction l with
    | nil =>
      rintro log all ⟨⟩
      simp
    | cons q l ih =>
      intro log all h
      simp only [analyseAll] at h
      cases hq : (q.analyse symbols).2 with
      | error f => simp [hq] at h
      | ok facts =>
        simp only [hq, map_eq_ok] at h
        obtain ⟨more, hmore, rfl⟩ := h
        obtain ⟨hroutines, hfacts⟩ := ih _ more hmore
        exact ⟨by rw [map_cons, hroutines], forall_mem_cons.2 ⟨hq, hfacts⟩⟩
  exact hall _ _ _ h

/-! ### The graph -/

namespace CallGraph

variable {calls : List (String × List String)} {n b : String}

theorem get?_ofCalls (hnames : (calls.map (·.1)).Nodup) {node : CallNode} :
    (ofCalls calls).get? n = some node ↔ ∃ cs, (n, cs) ∈ calls ∧ node = { calls := cs } := by
  suffices h : ∀ g : CallGraph, (calls.foldl (fun g c => g.set c.1 { calls := c.2 }) g).get? n = some node
      ↔ (∃ cs, (n, cs) ∈ calls ∧ node = { calls := cs }) ∨ n ∉ calls.map (·.1) ∧ g.get? n = some node by
    simpa [ofCalls, Assoc.get?] using h ⟨[]⟩
  induction calls with
  | nil => simp
  | cons c calls ih =>
    intro g
    obtain ⟨hc, hrest⟩ := nodup_cons.1 hnames
    rw [foldl_cons, ih hrest, Assoc.get?_set]
    by_cases hn : c.1 = n
    · subst hn
      have hother : ∀ cs, (c.1, cs) ∉ calls := fun cs hmem => hc (mem_map.2 ⟨_, hmem, rfl⟩)
      simp [hc, hother, Prod.ext_iff, eq_comm]
    · simp [hn, Ne.symm hn, Prod.ext_iff]

theorem entries_ofCalls (hnames : (calls.map (·.1)).Nodup) :
    (ofCalls calls).entries = calls.map fun c => (c.1, { calls := c.2 }) := by
  have hset : ∀ (k : String) (v : CallNode) (l : List (String × CallNode)), k ∉ l.map (·.1) →
      Assoc.setIn k v l = l ++ [(k, v)] := by
    intro k v l hk
    induction l with
    | nil => rfl
    | cons e l ih =>
      obtain ⟨hne, hl⟩ := not_or.1 (mem_cons.not.1 hk)
      rw [Assoc.setIn, if_neg (Ne.symm hne), ih hl, cons_append]
  suffices h : ∀ (cs : List (String × List String)) (g : CallGraph), (g.entries.map (·.1) ++ cs.map (·.1)).Nodup →
      (cs.foldl (fun g c => g.set c.1 { calls := c.2 }) g).entries
        = g.entries ++ cs.map fun c => (c.1, { calls := c.2 }) from
    h calls ⟨[]⟩ hnames
  intro cs
  induction cs with
  | nil => simp
  | cons c cs ih =>
    intro g hg
    have hc : c.1 ∉ g.entries.map (·.1) := fun hmem => (disjoint_of_nodup_append hg) hmem mem_cons_self
    have hg' : (g.set c.1 { calls := c.2 }).entries = g.entries ++ [(c.1, { calls := c.2 })] := hset _ _ _ hc
    rw [foldl_cons, ih _ (by simpa [hg'] using hg), hg']
    simp

theorem get?_withCallers : g.withCallers.get? n = (g.get? n).map fun node =>
    { node with calledBy := (g.entries.filter fun o => o.2.calls.contains n).map (·.1) } := by
  simp only [withCallers, Assoc.get?, find?_map, Option.map_map]
  change (g.entries.find? fun e => e.1 = n).map _ = (g.entries.find? fun e => e.1 = n).map _
  cases hfind : g.entries.find? fun e => e.1 = n with
  | none => rfl
  | some e =>
    have he : e.1 = n := by simpa using find?_some hfind
    simp [he]

theorem leads_withCallers : g.withCallers.Leads = g.Leads := by
  refine SameCalls.leads fun n => ?_
  rw [get?_withCallers, Option.map_map]
  rfl

/-- One routine may call another, going by what is recorded. -/
def MayCall (all : List Analysed) (a b : String) : Prop :=
  ∃ r ∈ all, r.routine.name = a ∧ ∃ cs, callsOf all r = .ok cs ∧ b ∈ cs

/-- The graph of what each routine may call, before anything is marked. -/
def drawn (routines : List Analysed) : Except Fault CallGraph := do
  let calls ← routines.mapM fun r => do
    let cs ← callsOf routines r
    pure (r.routine.name, cs)
  pure (ofCalls calls).withCallers

theorem ofRoutines_eq_ok : ofRoutines all = .ok g ↔
    ∃ g0, drawn all = .ok g0 ∧ markEach mark (roots all) g0 = (g, .ok ()) := by
  simp only [ofRoutines, drawn, bind_eq_ok, pure_eq_ok]
  constructor
  · rintro ⟨calls, hcalls, h⟩
    split at h
    · next heq =>
      obtain rfl := pure_eq_ok.1 h
      exact ⟨_, ⟨calls, hcalls, rfl⟩, heq⟩
    · cases h
  · rintro ⟨_, ⟨calls, hcalls, rfl⟩, hmark⟩
    exact ⟨calls, hcalls, by rw [hmark]; rfl⟩

/-- The graph has just the routines of the program, just the calls that they may make, each with the callers that it has, and
no marks. -/
structure Draws (all : List Analysed) (g : CallGraph) : Prop where
  unmarked : ∀ n, g.isReachable n = false
  known : ∀ n, (∃ node, g.get? n = some node) ↔ ∃ r ∈ all, r.routine.name = n
  leads : g.Leads = MayCall all
  callers : ∀ n node, g.get? n = some node → ∀ a, a ∈ node.calledBy ↔ MayCall all a n

section

variable (hnames : (all.map (·.routine.name)).Nodup)
include hnames

theorem draws_of_drawn (h : drawn all = .ok g) : Draws all g := by
  simp only [drawn, bind_eq_ok, pure_eq_ok] at h
  obtain ⟨calls, hcalls, rfl⟩ := h
  have hentry : ∀ {x cs}, (x, cs) ∈ calls ↔ ∃ r ∈ all, r.routine.name = x ∧ callsOf all r = .ok cs := by
    intro x cs
    simp only [mem_of_mapM_ok hcalls, bind_eq_ok, pure_eq_ok, Prod.mk.injEq]
    refine exists_congr fun r => and_congr_right fun _ => ?_
    constructor
    · rintro ⟨cs', hcs, hname, rfl⟩
      exact ⟨hname, hcs⟩
    · rintro ⟨hname, hcs⟩
      exact ⟨cs, hcs, hname, rfl⟩
  have hmap : calls.map (·.1) = all.map (·.routine.name) := by
    refine map_of_mapM_ok hcalls ?_
    simp only [bind_eq_ok, pure_eq_ok]
    rintro r _ ⟨cs, -, rfl⟩
    rfl
  have hkeys : (calls.map (·.1)).Nodup := hmap ▸ hnames
  have hmay : ∀ a b, MayCall all a b ↔ ∃ cs, (a, cs) ∈ calls ∧ b ∈ cs := by
    intro a b
    constructor
    · rintro ⟨r, hr, hname, cs, hcs, hb⟩
      exact ⟨cs, hentry.2 ⟨r, hr, hname, hcs⟩, hb⟩
    · rintro ⟨cs, hmem, hb⟩
      obtain ⟨r, hr, hname, hcs⟩ := hentry.1 hmem
      exact ⟨r, hr, hname, cs, hcs, hb⟩
  refine ⟨fun n => ?_, fun n => ?_, ?_, fun n node hget a => ?_⟩
  · refine Bool.not_eq_true _ ▸ fun hn => ?_
    obtain ⟨node, hget, hnode⟩ := isReachable_iff.1 hn
    obtain ⟨node', hget', rfl⟩ := Option.map_eq_some_iff.1 (get?_withCallers ▸ hget)
    obtain ⟨cs, -, rfl⟩ := (get?_ofCalls hkeys).1 hget'
    cases hnode
  · have hmem : n ∈ calls.map (·.1) ↔ n ∈ all.map (·.routine.name) := by rw [hmap]
    simp only [get?_withCallers, Option.map_eq_some_iff, get?_ofCalls hkeys]
    simpa using hmem
  · rw [leads_withCallers]
    ext a b
    rw [hmay]
    simp [Leads, get?_ofCalls hkeys]
  · obtain ⟨node', -, rfl⟩ := Option.map_eq_some_iff.1 (get?_withCallers ▸ hget)
    rw [hmay]
    simp [entries_ofCalls hkeys]

/-- The graph is marked from the roots on, once it has been made of what each routine may call. -/
theorem marks_ofRoutines (h : ofRoutines all = .ok g) :
    ∃ g0 : CallGraph, g0.Marks (roots all) g ∧ Draws all g0 := by
  obtain ⟨g0, hdrawn, hmark⟩ := ofRoutines_eq_ok.1 h
  exact ⟨g0, .of_markEach hmark, draws_of_drawn hnames hdrawn⟩

/-- A routine is reachable exactly if calls lead to it from `main` or from a routine that is preserved. -/
theorem isReachable_ofRoutines (h : ofRoutines all = .ok g) :
    g.isReachable n = true ↔ ∃ m ∈ roots all, Relation.ReflTransGen (MayCall all) m n := by
  obtain ⟨g0, hmarks, hdraws⟩ := marks_ofRoutines hnames h
  rw [hmarks.isReachable_iff hdraws.unmarked, hdraws.leads]

/-- Only routines of the program are reachable. -/
theorem exists_of_isReachable (h : ofRoutines all = .ok g)
    (hn : g.isReachable n = true) : ∃ r ∈ g.prune all, r.routine.name = n := by
  obtain ⟨g0, hmarks, hdraws⟩ := marks_ofRoutines hnames h
  obtain ⟨r, hr, rfl⟩ := (hdraws.known n).1 (hmarks.get?_of_isReachable hn)
  exact ⟨r, mem_filter.2 ⟨hr, hn⟩, rfl⟩

end

end CallGraph

/-! ### Which routines are left -/

/-- A routine may give control to another: it calls it or jumps to it by name, or through a vector that has just the
constraints of the other. -/
inductive Routine.MayEnter (symbols : Symbols) (r q : Routine) : Prop
  | named {sig : Signature} (htarget : r.Targets q.name)
      (hty : (r.setting symbols).typeOfName q.name = .ok (.routine sig))
  | through {name : String} {ty : Ty} {sig : Signature} (htarget : r.Targets name)
      (hty : (r.setting symbols).typeOfName name = .ok (.vector (.routine sig)))
      (hown : symbols.globalType? q.name = some ty) (hsame : ty.target = .routine sig)

theorem Ty.executableCompatible_vector : ty.executableCompatible (.vector (.routine sig)) = true ↔ ty.target = .routine sig := by
  unfold executableCompatible
  split
  · next own limit hown hlimit =>
    obtain rfl : sig = limit := by simpa [target] using hlimit
    simp [hown]
  · next hnot =>
    simp only [Bool.false_eq_true, false_iff]
    exact fun h => hnot _ _ h rfl

section Accepted

variable (haccepted : (p.analyse symbols).2 = .ok all)

include haccepted

/-- What an accepted routine may call can be told: the routines that it names, and those with the constraints of a vector
that it names. -/
theorem Program.callsOf_ok (hr : r ∈ all) : ∃ cs, CallGraph.callsOf all r = .ok cs ∧ ∀ b, b ∈ cs ↔
    (∃ sig, r.routine.Targets b ∧ (r.routine.setting symbols).typeOfName b = .ok (.routine sig))
      ∨ ∃ q ∈ all, q.routine.name = b ∧ ∃ name sig, r.routine.Targets name
        ∧ (r.routine.setting symbols).typeOfName name = .ok (.vector (.routine sig)) ∧ q.facts.ty.target = .routine sig := by
  obtain ⟨-, hcalls, htyped⟩ := Routine.facts_of_accepted ((analyse_eq haccepted).2 r hr)
  have hok : ∀ c ∈ r.facts.calls, ∃ bs, CallGraph.targets all c.1 c.2 = .ok bs := by
    rintro ⟨name, ty⟩ hc
    obtain ⟨htarget, hty⟩ := (hcalls _).1 hc
    obtain ⟨sig, hsig | hsig⟩ := htyped name htarget
    · obtain rfl := Except.ok.inj (hty.symm.trans hsig)
      exact ⟨_, rfl⟩
    · obtain rfl := Except.ok.inj (hty.symm.trans hsig)
      exact ⟨_, rfl⟩
  obtain ⟨reached, hreached⟩ := exists_mapM_ok hok
  refine ⟨reached.flatten, ?_, fun b => ?_⟩
  · simp only [CallGraph.callsOf, hreached]
    rfl
  simp only [mem_flatten, mem_of_mapM_ok hreached, Prod.exists, hcalls]
  constructor
  · rintro ⟨bs, ⟨name, ty, ⟨htarget, hty⟩, hbs⟩, hb⟩
    obtain ⟨sig, hsig | hsig⟩ := htyped name htarget
    · obtain rfl := Except.ok.inj (hty.symm.trans hsig)
      obtain rfl := Except.ok.inj hbs
      obtain rfl := mem_singleton.1 hb
      exact .inl ⟨sig, htarget, hsig⟩
    · obtain rfl := Except.ok.inj (hty.symm.trans hsig)
      obtain rfl := Except.ok.inj hbs
      obtain ⟨q, hq, rfl⟩ := mem_map.1 hb
      obtain ⟨hq, hsame⟩ := mem_filter.1 hq
      exact .inr ⟨q, hq, rfl, name, sig, htarget, hsig, Ty.executableCompatible_vector.1 hsame⟩
  · rintro (⟨sig, htarget, hty⟩ | ⟨q, hq, rfl, name, sig, htarget, hty, hsame⟩)
    · exact ⟨[b], ⟨b, _, ⟨htarget, hty⟩, rfl⟩, mem_singleton_self b⟩
    · refine ⟨_, ⟨name, _, ⟨htarget, hty⟩, rfl⟩, mem_map.2 ⟨q, mem_filter.2 ⟨hq, ?_⟩, rfl⟩⟩
      exact Ty.executableCompatible_vector.2 hsame

/-- Between routines of the program, one may call the other exactly if it may give control to it. -/
theorem Program.mayCall_iff (hq : q ∈ all) : CallGraph.MayCall all a q.routine.name ↔
    ∃ r ∈ all, r.routine.name = a ∧ r.routine.MayEnter symbols q.routine := by
  have hown : symbols.globalType? q.routine.name = some q.facts.ty :=
    (Routine.facts_of_accepted ((analyse_eq haccepted).2 q hq)).1
  constructor
  · rintro ⟨r, hr, hname, cs, hcs, hmem⟩
    obtain ⟨cs', hcs', hiff⟩ := callsOf_ok haccepted hr
    obtain rfl := Except.ok.inj (hcs.symm.trans hcs')
    refine ⟨r, hr, hname, ?_⟩
    rcases (hiff _).1 hmem with ⟨sig, htarget, hty⟩ | ⟨q', hq', hsame, name, sig, htarget, hty, htys⟩
    · exact .named htarget hty
    · have hown' := (Routine.facts_of_accepted ((analyse_eq haccepted).2 q' hq')).1
      exact .through htarget hty (hsame ▸ hown') htys
  · rintro ⟨r, hr, hname, henter⟩
    obtain ⟨cs, hcs, hiff⟩ := callsOf_ok haccepted hr
    refine ⟨r, hr, hname, cs, hcs, (hiff _).2 ?_⟩
    cases henter with
    | named htarget hty => exact .inl ⟨_, htarget, hty⟩
    | through htarget hty hown' hsame =>
      obtain rfl := Option.some.inj (hown.symm.trans hown')
      exact .inr ⟨q, hq, rfl, _, _, htarget, hty, hsame⟩

variable (hnames : (p.routines.map (·.name)).Nodup)

include hnames

theorem Program.analysed_nodup : (all.map (·.routine.name)).Nodup := by
  have hmap : all.map (·.routine.name) = (all.map (·.routine)).map (·.name) := by simp
  rwa [hmap, (analyse_eq haccepted).1]

variable (hgraph : CallGraph.ofRoutines all = .ok g)

include hgraph

/-- A routine is left exactly if it is `main` or preserved, or one that is left may give control to it. -/
theorem Program.mem_prune_iff (hq : q ∈ all) : q ∈ g.prune all ↔
    q.routine.name ∈ CallGraph.roots all ∨ ∃ r ∈ g.prune all, r.routine.MayEnter symbols q.routine := by
  have hreach := fun n => @CallGraph.isReachable_ofRoutines all g n (analysed_nodup haccepted hnames) hgraph
  have hkept : ∀ r ∈ all, r ∈ g.prune all ↔ g.isReachable r.routine.name = true := fun r hr => by
    simp [CallGraph.prune, hr]
  rw [hkept q hq, hreach]
  constructor
  · rintro ⟨m, hm, hpath⟩
    obtain rfl | ⟨a, hpath, hcall⟩ := Relation.ReflTransGen.cases_tail hpath
    · exact .inl hm
    · obtain ⟨r, hr, rfl, henter⟩ := (mayCall_iff haccepted hq).1 hcall
      exact .inr ⟨r, (hkept r hr).2 ((hreach _).2 ⟨m, hm, hpath⟩), henter⟩
  · rintro (hroot | ⟨r, hr, henter⟩)
    · exact ⟨_, hroot, .refl⟩
    · have hr' := mem_of_mem_filter hr
      obtain ⟨m, hm, hpath⟩ := (hreach _).1 ((hkept r hr').1 hr)
      exact ⟨m, hm, hpath.tail ((mayCall_iff haccepted hq).2 ⟨r, hr', rfl, henter⟩)⟩

/-- What a routine that is left calls or jumps to by name is left. -/
theorem Program.prune_named (hr : r ∈ g.prune all) {name : String}
    (htarget : r.routine.Targets name) (hty : (r.routine.setting symbols).typeOfName name = .ok (.routine sig)) :
    ∃ q ∈ g.prune all, q.routine.name = name := by
  have hnodup := analysed_nodup haccepted hnames
  obtain ⟨hr', hreach⟩ := mem_filter.1 hr
  obtain ⟨cs, hcs, hiff⟩ := callsOf_ok haccepted hr'
  obtain ⟨m, hm, hpath⟩ := (CallGraph.isReachable_ofRoutines hnodup hgraph).1 hreach
  have hcall : CallGraph.MayCall all r.routine.name name := ⟨r, hr', rfl, cs, hcs, (hiff _).2 (.inl ⟨sig, htarget, hty⟩)⟩
  refine CallGraph.exists_of_isReachable hnodup hgraph ?_
  exact (CallGraph.isReachable_ofRoutines hnodup hgraph).2 ⟨m, hm, hpath.tail hcall⟩

end Accepted

end CheckedAsm
