import CheckedAsm.CallGraph
import Mathlib.Data.List.Count
import Mathlib.Logic.Relation
/-! # Marking what calls lead to

Marking goes depth first and stops at routines that are marked already, so it comes to an end in any graph, whatever circles
there are. What it has marked is closed: whatever a newly marked routine calls is marked too. And it marks nothing that calls
do not lead to. So from a graph without marks it marks exactly what calls lead to from where it starts. -/

namespace CheckedAsm.CallGraph

open List

variable {g g' g1 : CallGraph} {name n : String} {names rest : List String} {node : CallNode}

/-- A call leads from one routine to another. -/
def Leads (g : CallGraph) (a b : String) : Prop := ∃ node, g.get? a = some node ∧ b ∈ node.calls

theorem isReachable_iff : g.isReachable n = true ↔ ∃ node, g.get? n = some node ∧ node.reachable = true := by
  unfold isReachable
  split <;> simp [*]

/-- Nothing but marks is different in the second graph. -/
def SameCalls (g g' : CallGraph) : Prop := ∀ n, (g'.get? n).map CallNode.calls = (g.get? n).map CallNode.calls

theorem SameCalls.leads (h : g.SameCalls g') : g'.Leads = g.Leads := by
  have hcalls : ∀ (f : CallGraph) a b, f.Leads a b ↔ ∃ calls, (f.get? a).map CallNode.calls = some calls ∧ b ∈ calls := by
    intro f a b
    cases hget : f.get? a <;> simp [Leads, hget]
  ext a b
  rw [hcalls, hcalls, h a]

/-! ### One routine -/

/-- The graph with one more routine marked. -/
def withMark (g : CallGraph) (name : String) (node : CallNode) : CallGraph := g.set name { node with reachable := true }

/-- How many routines are not marked. -/
def unmarked (g : CallGraph) : Nat := g.entries.countP fun e => !e.2.reachable

theorem unmarked_withMark (hget : g.get? name = some node) (hnode : node.reachable = false) :
    (g.withMark name node).unmarked < g.unmarked := by
  obtain ⟨entries⟩ := g
  simp only [Assoc.get?, Assoc.set, withMark, unmarked] at hget ⊢
  induction entries with
  | nil => cases hget
  | cons e entries ih =>
    by_cases he : e.1 = name
    · obtain rfl : e.2 = node := by simpa [he] using hget
      simp [Assoc.setIn, he, hnode]
    · have hrest := ih (by simpa [he] using hget)
      simp only [Assoc.setIn, he, ↓reduceIte, countP_cons]
      omega

theorem sameCalls_withMark (hget : g.get? name = some node) : g.SameCalls (g.withMark name node) := by
  intro n
  rw [withMark, Assoc.get?_set]
  split
  · next h => simp [← h, hget]
  · rfl

theorem isReachable_withMark : (g.withMark name node).isReachable n = true ↔ n = name ∨ g.isReachable n = true := by
  simp only [isReachable_iff, withMark, Assoc.get?_set]
  split
  · next h => simp [← h]
  · next h => simp [Ne.symm h]

/-! ### Marking one after the other -/

/-- What marking some routines does: it marks them and what their calls lead to, and nothing else. -/
structure Marks (g : CallGraph) (names : List String) (g' : CallGraph) : Prop where
  calls : g.SameCalls g'
  fewer : g'.unmarked ≤ g.unmarked
  grows : ∀ n, g.isReachable n = true → g'.isReachable n = true
  named : ∀ n ∈ names, g'.isReachable n = true
  closed : ∀ a b, g'.isReachable a = true → g.isReachable a = false → g.Leads a b → g'.isReachable b = true
  sound : ∀ n, g'.isReachable n = true → g.isReachable n = true ∨ ∃ m ∈ names, Relation.ReflTransGen g.Leads m n

namespace Marks

theorem nil : g.Marks [] g where
  calls _ := rfl
  fewer := Nat.le_refl _
  grows _ h := h
  named := by simp
  closed a b h h' _ := by simp [h] at h'
  sound n h := .inl h

/-- A routine that is marked already. -/
theorem of_isReachable (h : g.isReachable name = true) : g.Marks [name] g :=
  { nil with
    named := by simpa using h
    sound := fun n h => .inl h }

theorem cons (h : g.Marks [name] g1) (hrest : g1.Marks rest g') : g.Marks (name :: rest) g' where
  calls n := (hrest.calls n).trans (h.calls n)
  fewer := Nat.le_trans hrest.fewer h.fewer
  grows n hn := hrest.grows n (h.grows n hn)
  named := forall_mem_cons.2 ⟨hrest.grows name (h.named name mem_cons_self), hrest.named⟩
  closed a b ha hnot hab := by
    cases hmid : g1.isReachable a with
    | true => exact hrest.grows b (h.closed a b hmid hnot hab)
    | false => exact hrest.closed a b ha hmid (h.calls.leads ▸ hab)
  sound n hn := by
    rcases hrest.sound n hn with hn | ⟨m, hm, hpath⟩
    · refine (h.sound n hn).imp_right ?_
      rintro ⟨m, hm, hpath⟩
      exact ⟨m, by simp [mem_singleton.1 hm], hpath⟩
    · exact .inr ⟨m, mem_cons_of_mem _ hm, h.calls.leads ▸ hpath⟩

/-- Marking a routine and then all that it calls. -/
theorem of_calls (hget : g.get? name = some node) (hnode : node.reachable = false)
    (h : Marks (g.withMark name node) node.calls g') : g.Marks [name] g' where
  calls n := (h.calls n).trans (sameCalls_withMark hget n)
  fewer := Nat.le_trans h.fewer (Nat.le_of_lt (unmarked_withMark hget hnode))
  grows n hn := h.grows n (isReachable_withMark.2 (.inr hn))
  named := by
    simpa using h.grows name (isReachable_withMark.2 (.inl rfl))
  closed a b ha hnot hab := by
    by_cases hname : a = name
    · subst hname
      obtain ⟨node', hget', hb⟩ := hab
      obtain rfl := Option.some.inj (hget.symm.trans hget')
      exact h.named b hb
    · have hnot' : ¬ (g.withMark name node).isReachable a = true := by
        simp [isReachable_withMark, hname, hnot]
      exact h.closed a b ha (Bool.not_eq_true _ ▸ hnot') ((sameCalls_withMark hget).leads ▸ hab)
  sound n hn := by
    rcases h.sound n hn with hn | ⟨m, hm, hpath⟩
    · refine (isReachable_withMark.1 hn).symm.imp_right ?_
      rintro rfl
      exact ⟨n, mem_singleton_self n, .refl⟩
    · rw [(sameCalls_withMark hget).leads] at hpath
      exact .inr ⟨name, mem_singleton_self name, .head ⟨node, hget, hm⟩ hpath⟩

end Marks

/-- Routines are marked one after the other as they are one by one, as long as what this needs stays true. -/
theorem markEach_marks {mark : CallGraph → String → CallGraph × Except Fault Unit} (enough : CallGraph → Prop)
    (hmark : ∀ g name g', enough g → mark g name = (g', .ok ()) → g.Marks [name] g')
    (henough : ∀ g name g', enough g → g.Marks [name] g' → enough g') :
    ∀ {names : List String} {g : CallGraph}, enough g → markEach mark names g = (g', .ok ()) → g.Marks names g'
  | [], g, _, h => by
    cases h
    exact .nil
  | name :: rest, g, hg, h => by
    rw [markEach] at h
    split at h
    · next g1 hfirst =>
      have hmarks := hmark g name g1 hg hfirst
      exact hmarks.cons (markEach_marks enough hmark henough (henough g name g1 hg hmarks) h)
    · cases h

/-- Fuel for all routines that are not marked is enough, since each level marks one of them. -/
theorem markWithin_marks {fuel : Nat} (hfuel : g.unmarked < fuel) (h : markWithin fuel g name = (g', .ok ())) :
    g.Marks [name] g' := by
  induction fuel generalizing g name g' with
  | zero => cases hfuel
  | succ fuel ih =>
    rw [markWithin] at h
    split at h
    · cases h
    · next node hget =>
      split at h
      · next hnode =>
        cases h
        exact .of_isReachable (isReachable_iff.2 ⟨node, hget, hnode⟩)
      · next hnode =>
        have hnode : node.reachable = false := Bool.not_eq_true _ ▸ hnode
        have hless := unmarked_withMark hget hnode
        refine .of_calls hget hnode (markEach_marks (fun g => g.unmarked < fuel) ?_ ?_ ?_ h)
        · exact fun g name g' hg h => ih hg h
        · exact fun g name g' hg h => Nat.lt_of_le_of_lt h.fewer hg
        · omega

theorem mark_marks (h : g.mark name = (g', .ok ())) : g.Marks [name] g' :=
  markWithin_marks (Nat.lt_succ_of_le (countP_le_length ..)) h

theorem Marks.of_markEach (h : markEach mark names g = (g', .ok ())) : g.Marks names g' :=
  markEach_marks (fun _ => True) (fun _ _ _ _ => mark_marks) (fun _ _ _ _ _ => trivial) trivial h

/-- From a graph without marks, exactly that is marked what calls lead to from the given routines. -/
theorem Marks.isReachable_iff (h : g.Marks names g') (hnone : ∀ n, g.isReachable n = false) :
    g'.isReachable n = true ↔ ∃ m ∈ names, Relation.ReflTransGen g.Leads m n := by
  constructor
  · exact fun hn => (h.sound n hn).resolve_left (by simp [hnone])
  · rintro ⟨m, hm, hpath⟩
    induction hpath with
    | refl => exact h.named m hm
    | tail _ hab ih => exact h.closed _ _ ih (hnone _) hab

/-- Only routines of the graph are marked. -/
theorem Marks.get?_of_isReachable (h : g.Marks names g') (hn : g'.isReachable n = true) : ∃ node, g.get? n = some node := by
  obtain ⟨node', hget', -⟩ := CallGraph.isReachable_iff.1 hn
  have hcalls := h.calls n
  rw [hget', Option.map_some] at hcalls
  obtain ⟨node, hget, -⟩ := Option.map_eq_some_iff.1 hcalls.symm
  exact ⟨node, hget⟩

end CheckedAsm.CallGraph
