import CheckedAsm.Proofs.Calls.Graph
/-! # Call graphs are exact

Marking fails only where a name is called that no routine of the graph has. So the call graph of an accepted program exists
if the program has all the routines that it calls by name, whatever circles the calls make. It shows just the calls that may be
made, in both directions, and marks just what they lead to from the roots, in whatever order these are visited. What pruning
leaves is a program of this kind again: all its routines are reachable in its own call graph. -/

namespace CheckedAsm

open List

namespace CallGraph

variable {g0 g g' : CallGraph} {name n : String} {names : List String} {node : CallNode}

/-! ### Marking comes to an end -/

/-- The graphs differ in their marks only. -/
def Alike (g g' : CallGraph) : Prop := ∀ n, (g'.get? n).map (fun node => (node.calls, node.calledBy))
  = (g.get? n).map (fun node => (node.calls, node.calledBy))

/-- Every routine that is called is in the graph. -/
def Complete (g : CallGraph) : Prop := ∀ a b, g.Leads a b → ∃ node, g.get? b = some node

namespace Alike

theorem get? (h : g.Alike g') (hget : g'.get? n = some node) :
    ∃ node', g.get? n = some node' ∧ node'.calls = node.calls ∧ node'.calledBy = node.calledBy := by
  have hn := h n
  rw [hget, Option.map_some, eq_comm, Option.map_eq_some_iff] at hn
  simpa using hn

theorem known (h : g.Alike g') : (∃ node, g'.get? n = some node) ↔ ∃ node, g.get? n = some node := by
  have hn := congrArg Option.isSome (h n)
  rw [Option.isSome_map, Option.isSome_map] at hn
  rw [← Option.isSome_iff_exists, ← Option.isSome_iff_exists, hn]

theorem leads (h : g.Alike g') : g'.Leads = g.Leads := by
  refine SameCalls.leads fun n => ?_
  have hn := congrArg (Option.map Prod.fst) (h n)
  simpa [Option.map_map, Function.comp_def] using hn

theorem withMark (h : g0.Alike g) (hget : g.get? name = some node) : g0.Alike (g.withMark name node) := by
  intro n
  rw [← h n, CallGraph.withMark, Assoc.get?_set]
  split
  · next heq => simp [← heq, hget]
  · rfl

end Alike

/-- Routines are marked one after the other if each of them is, in any graph that has other marks only. -/
theorem exists_markEach {mark : CallGraph → String → CallGraph × Except Fault Unit}
    (hmark : ∀ g name, g0.Alike g → (∃ node, g0.get? name = some node) → ∃ g', mark g name = (g', .ok ()) ∧ g0.Alike g')
    (hnames : ∀ name ∈ names, ∃ node, g0.get? name = some node) (h : g0.Alike g) :
    ∃ g', markEach mark names g = (g', .ok ()) ∧ g0.Alike g' := by
  induction names generalizing g with
  | nil => exact ⟨g, rfl, h⟩
  | cons name rest ih =>
    obtain ⟨hname, hrest⟩ := forall_mem_cons.1 hnames
    obtain ⟨g1, hfirst, hg1⟩ := hmark g name h hname
    obtain ⟨g', hmarked, hg'⟩ := ih hrest hg1
    refine ⟨g', ?_, hg'⟩
    rw [markEach, hfirst]
    exact hmarked

/-- In a graph with all routines that are called, marking never fails, whatever is marked already. -/
theorem exists_markWithin (hcomplete : g0.Complete) (fuel : Nat) (h : g0.Alike g)
    (hname : ∃ node, g0.get? name = some node) : ∃ g', markWithin fuel g name = (g', .ok ()) ∧ g0.Alike g' := by
  induction fuel generalizing g name with
  | zero => exact ⟨g, rfl, h⟩
  | succ fuel ih =>
    obtain ⟨node, hget⟩ := h.known.2 hname
    simp only [markWithin, hget]
    split
    · exact ⟨g, rfl, h⟩
    · have hcalls : ∀ b ∈ node.calls, ∃ node, g0.get? b = some node := by
        intro b hb
        exact hcomplete name b (h.leads ▸ ⟨node, hget, hb⟩)
      exact exists_markEach (fun g name hg hname => ih hg hname) hcalls (h.withMark hget)

theorem exists_marked (hcomplete : g0.Complete) (hnames : ∀ name ∈ names, ∃ node, g0.get? name = some node) :
    ∃ g, markEach mark names g0 = (g, .ok ()) ∧ g0.Alike g :=
  exists_markEach (fun _ _ hg hname => exists_markWithin hcomplete _ hg hname) hnames fun _ => rfl

end CallGraph

/-! ### Graphs of accepted programs -/

/-- The program has all the routines that it calls or jumps to by name. -/
def Program.HasCalled (symbols : Symbols) (p : Program) : Prop :=
  ∀ r ∈ p.routines, ∀ name sig, r.Targets name → (r.setting symbols).typeOfName name = .ok (.routine sig) →
    ∃ q ∈ p.routines, q.name = name

/-- The program without the routines that the graph does not mark. -/
def Program.pruned (p : Program) (g : CallGraph) : Program :=
  { p with routines := p.routines.filter fun r => g.isReachable r.name }

variable {symbols : Symbols} {p : Program} {all : List Analysed} {g : CallGraph}

/-- Routines are accepted one by one, so some of them are accepted by themselves with the same results. -/
theorem Program.analyse_filter (h : (p.analyse symbols).2 = .ok all) (keep : Routine → Bool) :
    (Program.analyse symbols { p with routines := p.routines.filter keep }).2
      = .ok (all.filter fun r => keep r.routine) := by
  have hall : ∀ (l : List Routine) (log log' : ExitLog) (all : List Analysed), (analyseAll symbols l log).2 = .ok all →
      (analyseAll symbols (l.filter keep) log').2 = .ok (all.filter fun r => keep r.routine) := by
    intro l
    induction l with
    | nil =>
      rintro log log' all ⟨⟩
      rfl
    | cons q l ih =>
      intro log log' all h
      simp only [analyseAll] at h
      cases hq : (q.analyse symbols).2 with
      | error f => simp [hq] at h
      | ok facts =>
        simp only [hq, map_eq_ok] at h
        obtain ⟨more, hmore, rfl⟩ := h
        cases hkeep : keep q with
        | false => simpa [hkeep] using ih _ log' more hmore
        | true =>
          rw [filter_cons_of_pos hkeep, filter_cons_of_pos (by simpa using hkeep)]
          simp only [analyseAll, hq, map_eq_ok]
          exact ⟨_, ih _ _ more hmore, rfl⟩
  exact hall _ _ _ _ h

/-- What is left of the program is accepted, with the same results. -/
theorem Program.analyse_pruned (h : (p.analyse symbols).2 = .ok all) (g : CallGraph) :
    ((p.pruned g).analyse symbols).2 = .ok (g.prune all) :=
  analyse_filter h fun r => g.isReachable r.name

section Accepted

variable (haccepted : (p.analyse symbols).2 = .ok all) (hcalled : p.HasCalled symbols)

include haccepted hcalled

/-- What a routine may call is a routine of the program. -/
theorem Program.exists_of_mayCall {a b : String} (h : CallGraph.MayCall all a b) : ∃ q ∈ all, q.routine.name = b := by
  obtain ⟨r, hr, -, cs, hcs, hb⟩ := h
  obtain ⟨cs', hcs', hiff⟩ := callsOf_ok haccepted hr
  obtain rfl := Except.ok.inj (hcs.symm.trans hcs')
  obtain ⟨hroutines, -⟩ := analyse_eq haccepted
  rcases (hiff b).1 hb with ⟨sig, htarget, hty⟩ | ⟨q, hq, hname, -⟩
  · have hr' : r.routine ∈ p.routines := hroutines ▸ mem_map_of_mem hr
    obtain ⟨q, hq, rfl⟩ := hcalled _ hr' b sig htarget hty
    obtain ⟨q', hq', rfl⟩ := mem_map.1 (hroutines ▸ hq)
    exact ⟨q', hq', rfl⟩
  · exact ⟨q, hq, hname⟩

variable (hnames : (p.routines.map (·.name)).Nodup)

include hnames

/-- The graph can be drawn, and marked from any of its routines. -/
theorem Program.exists_drawn : ∃ g0, CallGraph.drawn all = .ok g0 ∧ CallGraph.Draws all g0 ∧ g0.Complete := by
  have hcalls : ∀ r ∈ all, ∃ c, (do let cs ← CallGraph.callsOf all r; pure (r.routine.name, cs)) = .ok c := by
    intro r hr
    obtain ⟨cs, hcs, -⟩ := callsOf_ok haccepted hr
    exact ⟨(r.routine.name, cs), by rw [hcs]; rfl⟩
  obtain ⟨calls, hcalls⟩ := exists_mapM_ok hcalls
  have hdrawn : CallGraph.drawn all = .ok (CallGraph.ofCalls calls).withCallers := by
    rw [CallGraph.drawn, hcalls]
    rfl
  have hdraws := CallGraph.draws_of_drawn (analysed_nodup haccepted hnames) hdrawn
  refine ⟨_, hdrawn, hdraws, ?_⟩
  intro a b hleads
  rw [hdraws.leads] at hleads
  exact (hdraws.known b).2 (exists_of_mayCall haccepted hcalled hleads)

/-- Marking from the roots in any order marks the same routines. -/
theorem Program.exists_graph : ∃ g0 g, CallGraph.drawn all = .ok g0 ∧ CallGraph.ofRoutines all = .ok g
    ∧ CallGraph.Draws all g0 ∧ g0.Alike g
    ∧ ∀ order, (∀ n, n ∈ order ↔ n ∈ CallGraph.roots all) → ∃ g', CallGraph.markEach CallGraph.mark order g0 = (g', .ok ())
      ∧ ∀ n, g'.isReachable n = g.isReachable n := by
  obtain ⟨g0, hdrawn, hdraws, hcomplete⟩ := exists_drawn haccepted hcalled hnames
  have hroots : ∀ n ∈ CallGraph.roots all, ∃ node, g0.get? n = some node := by
    intro n hn
    obtain ⟨r, hr, rfl⟩ := mem_map.1 hn
    exact (hdraws.known _).2 ⟨r, mem_of_mem_filter hr, rfl⟩
  obtain ⟨g, hmarked, halike⟩ := CallGraph.exists_marked hcomplete hroots
  refine ⟨g0, g, hdrawn, CallGraph.ofRoutines_eq_ok.2 ⟨g0, hdrawn, hmarked⟩, hdraws, halike, fun order horder => ?_⟩
  obtain ⟨g', hmarked', -⟩ := CallGraph.exists_marked hcomplete fun n hn => hroots n ((horder n).1 hn)
  refine ⟨g', hmarked', fun n => Bool.eq_iff_iff.2 ?_⟩
  rw [(CallGraph.Marks.of_markEach hmarked).isReachable_iff hdraws.unmarked,
    (CallGraph.Marks.of_markEach hmarked').isReachable_iff hdraws.unmarked]
  simp only [horder]

variable (hgraph : CallGraph.ofRoutines all = .ok g)

include hgraph

omit hcalled in
/-- What is left of the program has all the routines that it calls by name. -/
theorem Program.hasCalled_pruned : (p.pruned g).HasCalled symbols := by
  have hkept := (analyse_eq (analyse_pruned haccepted g)).1
  intro r hr name sig htarget hty
  obtain ⟨r', hr', rfl⟩ := mem_map.1 (hkept ▸ hr)
  obtain ⟨q, hq, rfl⟩ := prune_named haccepted hnames hgraph hr' htarget hty
  exact ⟨q.routine, hkept ▸ mem_map_of_mem hq, rfl⟩

/-- In the graph of what is left, all is reachable: the ways that lead to a routine lead through what is left only. -/
theorem Program.prune_again : ∃ g', CallGraph.ofRoutines (g.prune all) = .ok g' ∧ g'.prune (g.prune all) = g.prune all := by
  have hpruned := analyse_pruned haccepted g
  have hnames' : ((p.pruned g).routines.map (·.name)).Nodup := hnames.sublist (filter_sublist.map _)
  obtain ⟨-, g', -, hgraph', -⟩ := exists_graph hpruned (hasCalled_pruned haccepted hnames hgraph) hnames'
  refine ⟨g', hgraph', filter_eq_self.2 fun q hq => ?_⟩
  have hreach := fun n => @CallGraph.isReachable_ofRoutines all g n (analysed_nodup haccepted hnames) hgraph
  have hreach' := fun n => @CallGraph.isReachable_ofRoutines _ g' n (analysed_nodup hpruned hnames') hgraph'
  obtain ⟨m, hm, hpath⟩ := (hreach _).1 (mem_filter.1 hq).2
  -- by induction on the way from a root, which is the same root in the program that is left
  have hm' : m ∈ CallGraph.roots (g.prune all) := by
    obtain ⟨r, hr, rfl⟩ := mem_map.1 hm
    obtain ⟨hr, hroot⟩ := mem_filter.1 hr
    refine mem_map.2 ⟨r, mem_filter.2 ⟨mem_filter.2 ⟨hr, (hreach _).2 ⟨_, hm, .refl⟩⟩, hroot⟩, rfl⟩
  refine (hreach' _).2 ⟨m, hm', ?_⟩
  clear hq
  generalize q.routine.name = n at hpath
  induction hpath with
  | refl => exact .refl
  | @tail a b hpath hcall ih =>
    obtain ⟨q', hq', rfl⟩ := exists_of_mayCall haccepted hcalled hcall
    have hleft : q' ∈ g.prune all := mem_filter.2 ⟨hq', (hreach _).2 ⟨m, hm, hpath.tail hcall⟩⟩
    obtain ⟨r, hr, rfl, henter⟩ := (mayCall_iff haccepted hq').1 hcall
    have hr' : r ∈ g.prune all := mem_filter.2 ⟨hr, (hreach _).2 ⟨m, hm, hpath⟩⟩
    exact ih.tail ((mayCall_iff hpruned hleft).2 ⟨r, hr', rfl, henter⟩)

end Accepted

/-- The call graph of an accepted program that has all the routines which it calls by name. For each routine just the targets
of its calls and jumps are recorded, at any depth, with their types. The graph exists, whatever circles there are. It leads
from a routine to another just where the one may give control to the other, and names just those callers. A routine is marked
exactly if the graph leads to it from `main` or from a routine that is preserved, and the same are marked in whatever order
these are visited. Pruning leaves just the routines that are marked, in the order of the program. What is left is accepted
with the same results, and the graph of what is left marks all of it, so pruning again changes nothing. -/
theorem Program.callGraph_exact (symbols : Symbols) (p : Program) (all : List Analysed)
    (haccepted : (p.analyse symbols).2 = .ok all) (hnames : (p.routines.map (·.name)).Nodup)
    (hcalled : p.HasCalled symbols) :
    (∀ r ∈ all, (∀ name, name ∈ r.facts.calls.map Prod.fst ↔ r.routine.Targets name)
      ∧ ∀ c ∈ r.facts.calls, (r.routine.setting symbols).typeOfName c.1 = .ok c.2)
    ∧ ∃ g₀ g, CallGraph.drawn all = .ok g₀ ∧ CallGraph.ofRoutines all = .ok g
      ∧ (∀ a b, g.Leads a b ↔ ∃ r ∈ all, ∃ q ∈ all, r.routine.name = a ∧ q.routine.name = b
        ∧ r.routine.MayEnter symbols q.routine)
      ∧ (∀ b node, g.get? b = some node → ∀ a, a ∈ node.calledBy ↔ g.Leads a b)
      ∧ (∀ n, g.isReachable n = true ↔ ∃ m ∈ CallGraph.roots all, Relation.ReflTransGen g.Leads m n)
      ∧ (∀ order, (∀ n, n ∈ order ↔ n ∈ CallGraph.roots all) →
        ∃ g', CallGraph.markEach CallGraph.mark order g₀ = (g', .ok ()) ∧ ∀ n, g'.isReachable n = g.isReachable n)
      ∧ (g.prune all).map (·.routine) = p.routines.filter (fun r => g.isReachable r.name)
      ∧ ((p.pruned g).analyse symbols).2 = .ok (g.prune all)
      ∧ ∃ g', CallGraph.ofRoutines (g.prune all) = .ok g' ∧ g'.prune (g.prune all) = g.prune all := by
  obtain ⟨hroutines, hfacts⟩ := analyse_eq haccepted
  refine ⟨fun r hr => ?_, ?_⟩
  · obtain ⟨-, hcalls, htyped⟩ := Routine.facts_of_accepted (hfacts r hr)
    refine ⟨fun name => ?_, fun c hc => ((hcalls c).1 hc).2⟩
    simp only [mem_map, Prod.exists, exists_and_right, exists_eq_right, hcalls]
    refine ⟨fun ⟨_, htarget, _⟩ => htarget, fun htarget => ?_⟩
    obtain ⟨sig, hty | hty⟩ := htyped name htarget
    · exact ⟨_, htarget, hty⟩
    · exact ⟨_, htarget, hty⟩
  obtain ⟨g₀, g, hdrawn, hgraph, hdraws, halike, horders⟩ := exists_graph haccepted hcalled hnames
  have hleads : g.Leads = CallGraph.MayCall all := halike.leads.trans hdraws.leads
  refine ⟨g₀, g, hdrawn, hgraph, fun a b => ?_, fun b node hget a => ?_, fun n => ?_, horders, ?_,
    analyse_pruned haccepted g, prune_again haccepted hcalled hnames hgraph⟩
  · rw [hleads]
    constructor
    · intro hcall
      obtain ⟨q, hq, rfl⟩ := exists_of_mayCall haccepted hcalled hcall
      obtain ⟨r, hr, hname, henter⟩ := (mayCall_iff haccepted hq).1 hcall
      exact ⟨r, hr, q, hq, hname, rfl, henter⟩
    · rintro ⟨r, hr, q, hq, hname, rfl, henter⟩
      exact (mayCall_iff haccepted hq).2 ⟨r, hr, hname, henter⟩
  · obtain ⟨node₀, hget₀, -, hcallers⟩ := halike.get? hget
    rw [hleads, ← hcallers]
    exact hdraws.callers b node₀ hget₀ a
  · rw [hleads]
    exact CallGraph.isReachable_ofRoutines (analysed_nodup haccepted hnames) hgraph
  · exact (analyse_eq (analyse_pruned haccepted g)).1

/-- The main routine calls one of two routines that call each other; a fourth one calls only itself. -/
def circling : Program :=
  { defns := []
    routines := [("there", "back"), ("alone", "alone"), ("back", "there"), ("main", "there")].map fun r =>
      ⟨0, r.1, none, [], some (.cons (.call 0 r.2) (.nil 0)), false⟩ }

def circlingSymbols : Symbols :=
  circling.routines.foldl (fun symbols r => symbols.declare r.name ⟨.builtin, .routine {}⟩) .initial

/-- The circle that the main routine leads to stays, in order, and the other one goes. -/
theorem circling_callGraph_exact : ∃ all g, (circling.analyse circlingSymbols).2 = .ok all
    ∧ circling.HasCalled circlingSymbols ∧ CallGraph.ofRoutines all = .ok g
    ∧ g.Leads "there" "back" ∧ g.Leads "back" "there"
    ∧ (g.prune all).map (·.routine.name) = ["there", "back", "main"]
    ∧ ∃ g', CallGraph.ofRoutines (g.prune all) = .ok g' ∧ g'.prune (g.prune all) = g.prune all := by
  have hcalled : circling.HasCalled circlingSymbols := by
    rintro r hr name sig ⟨body, hbody, hname⟩ -
    simp only [circling, map_cons, map_nil, mem_cons, not_mem_nil, or_false] at hr
    rcases hr with rfl | rfl | rfl | rfl
    all_goals
      obtain rfl := Option.some.inj hbody
      obtain rfl := mem_singleton.1 hname
      simp [circling]
  obtain ⟨-, g₀, g, -, hgraph, -, -, -, -, -, -, hagain⟩ :=
    Program.callGraph_exact circlingSymbols circling _ rfl (by decide) hcalled
  obtain rfl : _ = g := Except.ok.inj hgraph
  exact ⟨_, _, rfl, hcalled, rfl, ⟨_, rfl, by decide⟩, ⟨_, rfl, by decide⟩, rfl, hagain⟩

end CheckedAsm
