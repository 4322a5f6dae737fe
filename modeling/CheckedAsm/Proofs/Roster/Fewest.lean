import CheckedAsm.Proofs.Roster.Order
import Mathlib.Data.List.SplitBy
/-! # Rosters have the fewest chains

Every chain of a roster holds a routine that has to begin a chain in any order. The chain of `main` holds `main`. Any other
was a longest one when it was taken. Either nothing jumps to its beginning, which then begins a chain wherever it stands. Or
something does; then that is in the chain too, for otherwise there would be a longer one, so the chain is a circle, and for
the same reason nothing from outside jumps into it: the routine of the circle that comes first in any chain begins that
chain. As no two chains of a roster share a routine, no order has fewer chains. Each routine that does not begin a chain
saves a jump, so no order saves more. -/

namespace CheckedAsm

open List

/-- Along a relation that leads one way only, a circle comes back to where it was left. -/
theorem reflTransGen_back {α : Type} {R : α → α → Prop} (hunique : ∀ {a b c}, R a b → R a c → b = c) {a b : α}
    (hcircle : Relation.TransGen R a a) (h : Relation.ReflTransGen R a b) : Relation.ReflTransGen R b a := by
  induction h with
  | refl => exact .refl
  | tail _ hbc ih =>
    obtain rfl | ⟨d, hbd, hd⟩ := ih.cases_head
    · obtain ⟨d, hd, hback⟩ := Relation.TransGen.head'_iff.1 hcircle
      exact hunique hd hbc ▸ hback
    · exact hunique hbd hbc ▸ hd

/-- As many things can be picked from parts that do not overlap as there are parts, if each has one. -/
theorem length_le_of_picks {α : Type} {parts : List (List α)} {picked : List α} (hnodup : parts.flatten.Nodup)
    (h : ∀ part ∈ parts, ∃ a ∈ part, a ∈ picked) : parts.length ≤ picked.length := by
  suffices hpicks : ∃ as : List α, as.length = parts.length ∧ as.Sublist parts.flatten ∧ as ⊆ picked by
    obtain ⟨as, hlength, hsub, hpicked⟩ := hpicks
    rw [← hlength]
    exact ((hnodup.sublist hsub).subperm hpicked).length_le
  clear hnodup
  induction parts with
  | nil => exact ⟨[], rfl, .refl _, nil_subset _⟩
  | cons part parts ih =>
    obtain ⟨⟨a, ha, hpick⟩, hparts⟩ := forall_mem_cons.1 h
    obtain ⟨as, hlength, hsub, hpicked⟩ := ih hparts
    exact ⟨a :: as, congrArg (· + 1) hlength, (singleton_sublist.2 ha).append hsub, cons_subset.2 ⟨hpick, hpicked⟩⟩

namespace Fallthrough

variable {m : Fallthrough} {left : List String} {rows other : List (List String)} {head r s : String}

/-! ### Where chains have to begin -/

/-- Nothing but what is left jumps to what is left. -/
def Backed (m : Fallthrough) (left : List String) : Prop := ∀ r s, m.Falls r s → s ∈ left → r ∈ left

theorem Backed.without_chain (h : m.Backed left) : m.Backed (left.filter (· ∉ m.chain left head)) := by
  intro r s hs hmem
  obtain ⟨hleft, hnot⟩ : s ∈ left ∧ s ∉ m.chain left head := by simpa using hmem
  have hr : r ∉ m.chain left head := fun hr => hnot (chain_closed hr ⟨hs, hleft⟩)
  simpa using ⟨h r s hs hleft, hr⟩

/-- A longest chain holds its beginning together with all that leads there. -/
theorem Backed.exists_source (h : m.Backed left) (hmem : head ∈ left)
    (hlongest : ∀ r ∈ left, (m.chain left r).length ≤ (m.chain left head).length) :
    ∃ S : Set String, head ∈ S ∧ (∀ n ∈ S, n ∈ m.chain left head) ∧ ∀ r s, m.Falls r s → s ∈ S → r ∈ S := by
  -- what jumps into the chain from outside begins a longer one, if it comes to all of the chain
  have hinside : ∀ r s, m.Falls r s → s ∈ m.chain left head → head ∈ m.chain left s → r ∈ m.chain left head := by
    intro r s hs hchain hback
    by_contra hr
    have hleft := chain_subset hmem hchain
    have hlonger := chain_length_lt ⟨hs, hleft⟩ fun hmem => hr (chain_subset_of_mem hchain hmem)
    exact absurd (hlongest r (h r s hs hleft)) (Nat.not_le.2 ((chain_length_le hback).trans_lt hlonger))
  by_cases hpre : ∃ r, m.Falls r head
  · obtain ⟨r, hr⟩ := hpre
    have hhead : head ∈ m.chain left head := mem_cons_self
    have hreach := mem_chain_iff.1 (hinside r head hr hhead hhead)
    have hcircle : Relation.TransGen (m.FallsAmong left) head head := .tail' hreach ⟨hr, hmem⟩
    refine ⟨{n | n ∈ m.chain left head}, hhead, fun n hn => hn, fun r s hs hn => hinside r s hs hn ?_⟩
    exact mem_chain_iff.2 (reflTransGen_back (fun h h' => h.1.unique h'.1) hcircle (mem_chain_iff.1 hn))
  · refine ⟨{head}, rfl, ?_, ?_⟩
    · rintro n rfl
      exact mem_cons_self
    · rintro r s hs rfl
      exact (hpre ⟨r, hs⟩).elim

/-- The routines that begin the chains of an order. -/
def heads (rows : List (List String)) : List String := rows.filterMap List.head?

/-- In any order, a chain begins inside a set of routines that nothing else jumps to. -/
theorem Arranges.head_mem (h : m.Arranges other) {S : Set String} (hback : ∀ r s, m.Falls r s → s ∈ S → r ∈ S)
    (hkey : r ∈ m.keys) (hr : r ∈ S) : ∃ n ∈ S, n ∈ heads other := by
  obtain ⟨row, hrow, hmem⟩ := mem_flatten.1 (h.perm.mem_iff.2 hkey)
  obtain ⟨us, vs, rfl⟩ := append_of_mem hmem
  cases us with
  | nil => exact ⟨r, hr, mem_filterMap.2 ⟨_, hrow, rfl⟩⟩
  | cons u us =>
    have hchain : (u :: us ++ [r]).IsChain m.Falls := (isChain_split.1 (h.joined _ hrow)).1
    have hall := hchain.backwards_concat_induction (· ∈ S) (u :: us) (fun r s => hback r s) hr
    exact ⟨u, hall u mem_cons_self, mem_filterMap.2 ⟨_, hrow, rfl⟩⟩

/-- Every chain that is taken holds a routine that begins a chain in any other order. -/
theorem Taken.meets_heads (h : m.Taken left rows) (hbacked : m.Backed left) (hkeys : left ⊆ m.keys)
    (hother : m.Arranges other) : ∀ row ∈ rows, ∃ n ∈ row, n ∈ heads other := by
  induction h with
  | nil => simp
  | cons head hmem hlongest _ ih =>
    refine forall_mem_cons.2 ⟨?_, ih hbacked.without_chain fun n hn => hkeys (mem_of_mem_filter hn)⟩
    obtain ⟨S, hhead, hsub, hback⟩ := hbacked.exists_source hmem hlongest
    obtain ⟨n, hn, hheads⟩ := hother.head_mem hback (hkeys hmem) hhead
    exact ⟨n, hsub n hn, hheads⟩

/-! ### Jumps that are saved -/

/-- How many routines of an order jump to the one that comes next, so that the jump is not needed. -/
def saved (m : Fallthrough) : List String → Nat
  | r :: s :: rest => (if m.Falls r s then 1 else 0) + saved m (s :: rest)
  | _ => 0

/-- How many jumps the chains of an order save, all but the last one in each. -/
def savedIn : List (List String) → Nat
  | [] => 0
  | row :: rows => row.length - 1 + savedIn rows

theorem length_add_savedIn (h : ∀ row ∈ rows, row ≠ []) : rows.length + savedIn rows = rows.flatten.length := by
  induction rows with
  | nil => rfl
  | cons row rows ih =>
    obtain ⟨hrow, hrows⟩ := forall_mem_cons.1 h
    have hpos := length_pos_iff.2 hrow
    have hrest := ih hrows
    simp only [savedIn, length_cons, flatten_cons, length_append] at hrest ⊢
    omega

theorem saved_append {us vs : List String} (hus : us ≠ []) (hvs : vs ≠ []) (hlast : ¬ m.Falls (us.getLast hus) (vs.head hvs)) :
    m.saved (us ++ vs) = m.saved us + m.saved vs := by
  induction us with
  | nil => exact (hus rfl).elim
  | cons u us ih =>
    cases us with
    | nil =>
      obtain ⟨v, vs, rfl⟩ := exists_cons_of_ne_nil hvs
      have hnot : ¬ m.Falls u v := hlast
      simp [saved, hnot]
    | cons u' us =>
      have hrest := ih (cons_ne_nil _ _) (by simpa using hlast)
      simp only [cons_append, saved] at hrest ⊢
      rw [hrest, Nat.add_assoc]

theorem saved_of_isChain {us : List String} (h : us.IsChain m.Falls) : m.saved us = us.length - 1 := by
  induction us with
  | nil => rfl
  | cons u us ih =>
    cases us with
    | nil => rfl
    | cons u' us =>
      obtain ⟨hfalls, hrest⟩ := isChain_cons_cons.1 h
      simp only [saved, if_pos hfalls, ih hrest, length_cons]
      omega

/-- Chains that do not run into each other save as much together as they do by themselves. -/
theorem saved_flatten (hfilled : ∀ row ∈ rows, row ≠ []) (hjoined : ∀ row ∈ rows, row.IsChain m.Falls)
    (hapart : rows.IsChain fun us vs => ∃ hus hvs, ¬ m.Falls (us.getLast hus) (vs.head hvs)) :
    m.saved rows.flatten = savedIn rows := by
  induction rows with
  | nil => rfl
  | cons row rows ih =>
    obtain ⟨hrow, hrows⟩ := forall_mem_cons.1 hjoined
    have hrest := ih (forall_mem_cons.1 hfilled).2 hrows hapart.tail
    cases rows with
    | nil => simp [savedIn, saved_of_isChain hrow]
    | cons next rows =>
      obtain ⟨⟨hus, hvs, hnot⟩, -⟩ := isChain_cons_cons.1 hapart
      have hflat : (next :: rows).flatten ≠ [] := by simp [hvs]
      have hhead : (next :: rows).flatten.head hflat = next.head hvs := by simp [head_append_of_ne_nil hvs]
      rw [flatten_cons, saved_append hus hflat (hhead ▸ hnot), hrest, saved_of_isChain hrow]
      rfl

/-- An order that begins with `main` falls into chains that save as much as it does. -/
theorem exists_arranges {order : List String} (hperm : order.Perm m.keys) (hfirst : order.head? = some "main") :
    ∃ other, m.Arranges other ∧ savedIn other = m.saved order := by
  have hne : order ≠ [] := by
    rintro rfl
    cases hfirst
  let other := order.splitBy fun r s => decide (m.Falls r s)
  have hfilled : ∀ row ∈ other, row ≠ [] := fun row hrow => ne_nil_of_mem_splitBy hrow
  have hjoined : ∀ row ∈ other, row.IsChain m.Falls := fun row hrow =>
    (isChain_of_mem_splitBy hrow).imp fun _ _ h => of_decide_eq_true h
  have hapart : other.IsChain fun us vs => ∃ hus hvs, ¬ m.Falls (us.getLast hus) (vs.head hvs) :=
    (isChain_getLast_head_splitBy _ order).imp fun _ _ ⟨hus, hvs, h⟩ => ⟨hus, hvs, of_decide_eq_false h⟩
  have hflat : other.flatten = order := flatten_splitBy _ order
  refine ⟨other, ⟨hfilled, hflat ▸ hperm, ?_, hjoined⟩, ?_⟩
  · have hrows : other ≠ [] := splitBy_ne_nil.2 hne
    refine ⟨other.head hrows, head?_eq_some_head hrows, ?_⟩
    rw [head?_eq_some_head (hfilled _ (head_mem hrows)), head_head_splitBy _ hne,
      ← head?_eq_some_head hne, hfirst]
  · rw [← saved_flatten hfilled hjoined hapart, hflat]

/-! ### Rosters -/

/-- Whatever map of jumps has an entry for `main`, its roster orders the routines in chains. No other order of them in chains
has fewer, and none that begins with `main` saves more jumps. -/
theorem roster_fewest (pairs : List (String × Option String)) (hmain : (ofList pairs).has "main" = true) :
    ∃ rows, (ofList pairs).roster = .ok rows ∧ (ofList pairs).Arranges rows
      ∧ (∀ other, (ofList pairs).Arranges other → rows.length ≤ other.length)
      ∧ ∀ order : List String, order.Perm (ofList pairs).keys → order.head? = some "main" →
        (ofList pairs).saved order ≤ savedIn rows := by
  have hkeys := keys_ofList_nodup pairs
  obtain ⟨rows, hroster, htaken⟩ := roster_eq hmain
  have harranges := htaken.arranges hkeys hmain
  have hfewest : ∀ other, (ofList pairs).Arranges other →
      ((ofList pairs).chain (ofList pairs).keys "main" :: rows).length ≤ other.length := by
    intro other hother
    have hbacked : (ofList pairs).Backed (ofList pairs).keys := fun r s hs _ => hs.mem_keys
    have hrest := htaken.meets_heads hbacked.without_chain (fun n hn => mem_of_mem_filter hn) hother
    obtain ⟨first, hmem, hfirst⟩ := hother.first
    have hstart : "main" ∈ heads other := mem_filterMap.2 ⟨first, mem_of_mem_head? hmem, hfirst⟩
    refine (length_le_of_picks (roster_nodup hroster) ?_).trans (length_filterMap_le List.head? other)
    exact forall_mem_cons.2 ⟨⟨"main", mem_cons_self, hstart⟩, hrest⟩
  refine ⟨_, hroster, harranges, hfewest, fun order hperm hfirst => ?_⟩
  obtain ⟨other, hother, hsaved⟩ := exists_arranges hperm hfirst
  have hcount := length_add_savedIn harranges.filled
  have hcount' := length_add_savedIn hother.filled
  have hfewer := hfewest other hother
  rw [harranges.perm.length_eq] at hcount
  rw [hother.perm.length_eq] at hcount'
  omega

/-- A circle with a way into it, a circle by itself, and `main` in the middle of what leads to it. -/
def circling : List (String × Option String) :=
  [("a", some "b"), ("b", some "a"), ("into", some "a"), ("p", some "q"), ("q", some "p"), ("pre", some "main"),
    ("main", some "post"), ("post", none)]

/-- Four chains are needed: the two circles, `main` and what comes before it. -/
theorem circling_fewest : (ofList circling).has "main" = true
    ∧ (ofList circling).roster = .ok [["main", "post"], ["into", "a", "b"], ["q", "p"], ["pre"]]
    ∧ (∀ other, (ofList circling).Arranges other → 4 ≤ other.length)
    ∧ ∀ order : List String, order.Perm (ofList circling).keys → order.head? = some "main" →
      (ofList circling).saved order ≤ 4 := by
  have hroster : (ofList circling).roster = .ok [["main", "post"], ["into", "a", "b"], ["q", "p"], ["pre"]] := rfl
  obtain ⟨rows, hrows, -, hfewest, hsaved⟩ := roster_fewest circling rfl
  obtain rfl := Except.ok.inj (hrows.symm.trans hroster)
  exact ⟨rfl, hroster, hfewest, hsaved⟩

end Fallthrough

end CheckedAsm
