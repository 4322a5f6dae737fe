import CheckedAsm.Proofs.Roster.Chains
/-! # Rosters order all routines

A roster is made by taking chains: that of `main` first, then again and again a longest one of what is left, until nothing
is. No jump leads out of a chain to what is left, so none leads from one chain to a later one. Each routine comes once, and
within a chain each jumps to the next, whatever the jumps are: they may go round in circles, back to the routine itself, or
to nothing that has an entry. -/

namespace CheckedAsm

open List

namespace Fallthrough

variable {m : Fallthrough} {left : List String} {rows earlier later : List (List String)} {row : List String} {r s : String}

/-- Every routine has one entry. -/
theorem keys_ofList_nodup (pairs : List (String × Option String)) : (ofList pairs).keys.Nodup := by
  unfold ofList
  suffices h : ∀ m : Fallthrough, m.keys.Nodup → (pairs.foldl (fun m p => m.set p.1 p.2) m).keys.Nodup from h ⟨[]⟩ .nil
  induction pairs with
  | nil => exact fun _ h => h
  | cons p pairs ih => exact fun m h => ih _ (Assoc.keys_set_nodup h p.1 p.2)

/-! ### Taking chains -/

/-- What is left is taken in chains, each of them a longest one when it is taken, until nothing is left. -/
inductive Taken (m : Fallthrough) : List String → List (List String) → Prop
  | nil : Taken m [] []
  | cons {left : List String} {rows : List (List String)} (head : String) (hmem : head ∈ left)
      (hlongest : ∀ r ∈ left, (m.chain left r).length ≤ (m.chain left head).length)
      (hrest : Taken m (left.filter (· ∉ m.chain left head)) rows) : Taken m left (m.chain left head :: rows)

/-- Each chain takes a routine at least, so fuel for all routines that are left is enough to take them all. -/
theorem chainsOf_taken {fuel : Nat} (hfuel : left.length ≤ fuel) : m.Taken left (m.chainsOf fuel left) := by
  induction fuel generalizing left with
  | zero =>
    rw [eq_nil_of_length_eq_zero (Nat.le_zero.1 hfuel)]
    exact .nil
  | succ fuel ih =>
    unfold chainsOf
    split
    case isTrue hempty =>
      rw [isEmpty_iff.1 hempty]
      exact .nil
    case isFalse hne =>
      have hmem : best (left.map (m.chain left)) ∈ left.map (m.chain left) := best_mem (by simpa using hne)
      obtain ⟨head, hhead, hbest⟩ := mem_map.1 hmem
      have hlongest : ∀ r ∈ left, (m.chain left r).length ≤ (m.chain left head).length := fun r hr => by
        rw [hbest]
        exact length_le_best _ (mem_map_of_mem hr)
      have hfilter : (left.filter fun r => !(m.chain left head).contains r) = left.filter (· ∉ m.chain left head) :=
        filter_congr fun r _ => by simp
      have hless : (left.filter (· ∉ m.chain left head)).length ≤ fuel := by
        refine Nat.le_of_lt_succ (Nat.lt_of_lt_of_le ?_ hfuel)
        exact length_filter_lt_length_iff_exists.2 ⟨head, hhead, by simp [chain]⟩
      simp only [← hbest, hfilter]
      exact .cons head hhead hlongest (ih hless)

namespace Taken

/-- All that is left is taken. -/
theorem mem_flatten_iff {n : String} (h : m.Taken left rows) : n ∈ rows.flatten ↔ n ∈ left := by
  induction h with
  | nil => simp
  | @cons left rows head hmem _ _ ih =>
    rw [flatten_cons, mem_append, ih, mem_filter, decide_eq_true_eq]
    refine ⟨fun hn => hn.elim (fun hn => chain_subset hmem hn) And.left, fun hn => ?_⟩
    by_cases hchain : n ∈ m.chain left head
    · exact .inl hchain
    · exact .inr ⟨hn, hchain⟩

/-- A chain and what is taken after it have nothing in common. -/
theorem disjoint_chain {available : List String} {head : String}
    (h : m.Taken (left.filter (· ∉ m.chain available head)) rows) : (m.chain available head).Disjoint rows.flatten := by
  intro n hn hn'
  simpa [hn] using h.mem_flatten_iff.1 hn'

/-- Nothing is taken twice. -/
theorem nodup (h : m.Taken left rows) : rows.flatten.Nodup := by
  induction h with
  | nil => exact .nil
  | cons head _ _ hrest ih => exact chain_nodup.1.append ih hrest.disjoint_chain

/-- What is taken at once is a chain that begins with one of the routines left. -/
theorem chains (h : m.Taken left rows) : ∀ row ∈ rows, ∃ available head, row = m.chain available head := by
  induction h with
  | nil => simp
  | @cons left rows head _ _ _ ih => exact forall_mem_cons.2 ⟨⟨left, head, rfl⟩, ih⟩

/-- A jump leads to the same chain or to an earlier one. -/
theorem settled (h : m.Taken left rows) (hsplit : rows = earlier ++ row :: later) (hr : r ∈ row)
    (hs : m.FallsAmong left r s) : s ∈ row ∨ s ∈ earlier.flatten := by
  induction h generalizing earlier with
  | nil => simp at hsplit
  | @cons left rows head hmem _ hrest ih =>
    obtain ⟨rfl, hcons⟩ | ⟨earlier', rfl, hrows⟩ := cons_eq_append_iff.1 hsplit
    · obtain ⟨rfl, -⟩ := List.cons.inj hcons
      exact .inl (chain_closed hr hs)
    · rw [flatten_cons, mem_append]
      by_cases hchain : s ∈ m.chain left head
      · exact .inr (.inl hchain)
      · have hleft : s ∈ left.filter (· ∉ m.chain left head) := mem_filter.2 ⟨hs.2, by simpa using hchain⟩
        exact (ih hrows ⟨hs.1, hleft⟩).imp_right .inr

end Taken

/-! ### Rosters -/

/-- The chain of `main`, and then chains of what that leaves. -/
theorem roster_eq (hmain : m.has "main" = true) : ∃ rows, m.roster = .ok (m.chain m.keys "main" :: rows)
    ∧ m.Taken (m.keys.filter (· ∉ m.chain m.keys "main")) rows := by
  have hfilter : (m.keys.filter fun r => !(m.chain m.keys "main").contains r)
      = m.keys.filter (· ∉ m.chain m.keys "main") := filter_congr fun r _ => by simp
  refine ⟨_, ?_, chainsOf_taken (le_rfl)⟩
  rw [roster, if_pos hmain]
  simp only [hfilter]

/-- Each routine comes once in a roster. -/
theorem roster_nodup (h : m.roster = .ok rows) : rows.flatten.Nodup := by
  cases hmain : m.has "main" with
  | false => simp [roster, hmain] at h
  | true =>
    obtain ⟨rest, hroster, htaken⟩ := roster_eq hmain
    obtain rfl := Except.ok.inj (hroster.symm.trans h)
    exact chain_nodup.1.append htaken.nodup htaken.disjoint_chain

/-- An order of all routines that have entries, in chains: every chain has a routine, each routine comes once, `main` comes
first, and within a chain each routine jumps to the next at its end. -/
structure Arranges (m : Fallthrough) (rows : List (List String)) : Prop where
  filled : ∀ row ∈ rows, row ≠ []
  perm : rows.flatten.Perm m.keys
  first : ∃ row ∈ rows.head?, row.head? = some "main"
  joined : ∀ row ∈ rows, row.IsChain m.Falls

/-- The chain of `main` and chains of what that leaves are such an order. -/
theorem Taken.arranges (hkeys : m.keys.Nodup) (hmain : m.has "main" = true)
    (h : m.Taken (m.keys.filter (· ∉ m.chain m.keys "main")) rows) : m.Arranges (m.chain m.keys "main" :: rows) where
  filled := by
    refine forall_mem_cons.2 ⟨cons_ne_nil _ _, fun row hrow => ?_⟩
    obtain ⟨available, head, rfl⟩ := h.chains row hrow
    exact cons_ne_nil _ _
  perm := by
    refine (perm_ext_iff_of_nodup (chain_nodup.1.append h.nodup h.disjoint_chain) hkeys).2 fun n => ?_
    rw [mem_append, h.mem_flatten_iff, mem_filter, decide_eq_true_eq]
    have hsub : m.chain m.keys "main" ⊆ m.keys := chain_subset (Assoc.mem_keys_iff.2 hmain)
    exact ⟨fun hn => hn.elim (fun hn => hsub hn) And.left, fun hn => (Decidable.em _).imp_right fun hnot => ⟨hn, hnot⟩⟩
  first := ⟨_, rfl, rfl⟩
  joined := by
    refine forall_mem_cons.2 ⟨chain_isChain, fun row hrow => ?_⟩
    obtain ⟨available, head, rfl⟩ := h.chains row hrow
    exact chain_isChain

/-- Whatever map of jumps has an entry for `main` has a roster. It orders all routines in chains, and every jump to a
routine that has an entry leads to the same chain or to an earlier one; so does the jump at the end of a chain. -/
theorem roster_arranges (pairs : List (String × Option String)) (hmain : (ofList pairs).has "main" = true) :
    ∃ rows, (ofList pairs).roster = .ok rows ∧ (ofList pairs).Arranges rows
      ∧ ∀ earlier row later, rows = earlier ++ row :: later → ∀ r ∈ row, ∀ s, (ofList pairs).Falls r s →
        (ofList pairs).has s = true → s ∈ row ∨ s ∈ earlier.flatten := by
  have hkeys := keys_ofList_nodup pairs
  obtain ⟨rows, hroster, htaken⟩ := roster_eq hmain
  refine ⟨_, hroster, htaken.arranges hkeys hmain, fun earlier row later hsplit r hr s hs hkey => ?_⟩
  have hkey := Assoc.mem_keys_iff.2 hkey
  obtain ⟨rfl, hcons⟩ | ⟨earlier', rfl, hrows⟩ := cons_eq_append_iff.1 hsplit
  · obtain ⟨rfl, -⟩ := List.cons.inj hcons
    exact .inl (chain_closed hr ⟨hs, hkey⟩)
  · rw [flatten_cons, mem_append]
    by_cases hfirst : s ∈ (ofList pairs).chain (ofList pairs).keys "main"
    · exact .inr (.inl hfirst)
    · exact (htaken.settled hrows hr ⟨hs, mem_filter.2 ⟨hkey, by simpa using hfirst⟩⟩).imp_right .inr

/-- Two routines that jump to each other, one that jumps to itself, one before `main`, and one whose jump leads to nothing
that has an entry. -/
def tangled : List (String × Option String) :=
  [("a", some "b"), ("b", some "a"), ("loop", some "loop"), ("early", some "main"), ("main", some "a"), ("away", some "gone"),
    ("last", none)]

theorem tangled_arranges : (ofList tangled).has "main" = true
    ∧ (ofList tangled).roster = .ok [["main", "a", "b"], ["loop"], ["last"], ["early"], ["away"]]
    ∧ (ofList tangled).Arranges [["main", "a", "b"], ["loop"], ["last"], ["early"], ["away"]] := by
  have hmain : (ofList tangled).has "main" = true := by decide
  have hroster : (ofList tangled).roster = .ok [["main", "a", "b"], ["loop"], ["last"], ["early"], ["away"]] := rfl
  obtain ⟨rows, hrows, harranges, -⟩ := roster_arranges tangled hmain
  exact ⟨hmain, hroster, Except.ok.inj (hrows.symm.trans hroster) ▸ harranges⟩

end Fallthrough

end CheckedAsm
