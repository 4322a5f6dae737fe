import CheckedAsm.Proofs.Assoc
import CheckedAsm.Roster
import Mathlib.Data.List.Chain
import Mathlib.Data.List.Perm.Subperm
import Mathlib.Logic.Relation
/-! # Chains of routines

A chain follows the jumps at the ends of routines for as long as they lead to routines that are available and not in it
yet. It stops where such a jump leads out of what is available or back into the chain, so it holds exactly what the jumps
lead to among what is available, each routine once. Of two chains where one starts with a jump to the other's beginning,
the first is the longer one, unless it runs into itself. -/

namespace CheckedAsm

open List

namespace Fallthrough

variable {m : Fallthrough} {available seen : List String} {name r s : String} {fuel : Nat}

/-- A routine jumps to another at its end, and nowhere else. -/
def Falls (m : Fallthrough) (r s : String) : Prop := m.get? r = some (some s)

instance (m : Fallthrough) : DecidableRel m.Falls := fun _ _ => inferInstanceAs (Decidable (_ = _))

theorem falls_iff : m.Falls r s ↔ (m.get? r).join = some s := Option.join_eq_some_iff.symm

theorem Falls.unique {s' : String} (h : m.Falls r s) (h' : m.Falls r s') : s = s' := by
  simpa using h.symm.trans h'

theorem Falls.mem_keys (h : m.Falls r s) : r ∈ m.keys := by
  rw [Assoc.mem_keys_iff, Assoc.has, show m.get? r = some (some s) from h]
  rfl

/-- The same, where the other routine is available. -/
def FallsAmong (m : Fallthrough) (available : List String) (r s : String) : Prop := m.Falls r s ∧ s ∈ available

/-! ### What follows -/

/-- What follows a routine: nothing where its jump does not lead to a routine that is available and new, and otherwise that
routine and what follows it. -/
theorem followers_cases (m : Fallthrough) (available seen : List String) (name : String) (fuel : Nat) :
    m.followers available (fuel + 1) seen name = [] ∧ (∀ s, m.Falls name s → s ∈ available → s ∈ seen)
      ∨ ∃ next, m.Falls name next ∧ next ∈ available ∧ next ∉ seen
        ∧ m.followers available (fuel + 1) seen name = next :: m.followers available fuel (next :: seen) next := by
  rw [followers]
  split
  case h_1 hnone =>
    refine .inl ⟨rfl, fun s hs => ?_⟩
    rw [falls_iff, hnone] at hs
    cases hs
  case h_2 next hnext =>
    have hfalls : m.Falls name next := falls_iff.2 hnext
    split
    case isTrue hstop =>
      refine .inl ⟨rfl, fun s hs havailable => ?_⟩
      obtain rfl := hfalls.unique hs
      simpa [havailable] using hstop
    case isFalse hgo =>
      obtain ⟨hnew, havailable⟩ : next ∉ seen ∧ next ∈ available := by simpa using hgo
      exact .inr ⟨next, hfalls, havailable, hnew, rfl⟩

/-- The routines that follow are available and new, and each comes once. -/
theorem followers_nodup : (m.followers available fuel seen name).Nodup
    ∧ ∀ n ∈ m.followers available fuel seen name, n ∉ seen ∧ n ∈ available := by
  induction fuel generalizing seen name with
  | zero => exact ⟨.nil, by simp [followers]⟩
  | succ fuel ih =>
    obtain ⟨hnil, -⟩ | ⟨next, -, havailable, hnew, hcons⟩ := followers_cases m available seen name fuel
    · rw [hnil]
      exact ⟨.nil, by simp⟩
    · obtain ⟨hnodup, hall⟩ := @ih (next :: seen) next
      rw [hcons, forall_mem_cons]
      exact ⟨nodup_cons.2 ⟨fun hmem => (hall next hmem).1 mem_cons_self, hnodup⟩, ⟨hnew, havailable⟩,
        fun n hn => ⟨fun h => (hall n hn).1 (mem_cons_of_mem _ h), (hall n hn).2⟩⟩

theorem followers_isChain : (name :: m.followers available fuel seen name).IsChain m.Falls := by
  induction fuel generalizing seen name with
  | zero => exact .singleton name
  | succ fuel ih =>
    obtain ⟨hnil, -⟩ | ⟨next, hfalls, -, -, hcons⟩ := followers_cases m available seen name fuel
    · rw [hnil]
      exact .singleton name
    · rw [hcons]
      exact .cons_cons hfalls ih

/-- Jumps lead to all routines that follow. -/
theorem followers_reached : ∀ n ∈ m.followers available fuel seen name,
    Relation.ReflTransGen (m.FallsAmong available) name n := by
  induction fuel generalizing seen name with
  | zero => simp [followers]
  | succ fuel ih =>
    obtain ⟨hnil, -⟩ | ⟨next, hfalls, havailable, -, hcons⟩ := followers_cases m available seen name fuel
    · simp [hnil]
    · rw [hcons, forall_mem_cons]
      exact ⟨.single ⟨hfalls, havailable⟩, fun n hn => .head ⟨hfalls, havailable⟩ (ih n hn)⟩

/-- What is available and not seen yet gets less with every routine that follows, so fuel for all of it is enough: no
jump leads out of what follows but to what is seen already. -/
theorem followers_closed (hfuel : (available.filter (· ∉ seen)).length ≤ fuel) :
    ∀ r ∈ name :: m.followers available fuel seen name, ∀ s, m.FallsAmong available r s →
      s ∈ seen ∨ s ∈ m.followers available fuel seen name := by
  induction fuel generalizing seen name with
  | zero =>
    rintro r - s ⟨-, hs⟩
    have hnone := eq_nil_of_length_eq_zero (Nat.le_zero.1 hfuel)
    by_contra hnot
    rw [not_or] at hnot
    have hmem : s ∈ available.filter (· ∉ seen) := mem_filter.2 ⟨hs, by simpa using hnot.1⟩
    rw [hnone] at hmem
    cases hmem
  | succ fuel ih =>
    obtain ⟨hnil, hstop⟩ | ⟨next, hfalls, havailable, hnew, hcons⟩ := followers_cases m available seen name fuel
    · rw [hnil]
      rintro r hr s ⟨hs, hmem⟩
      obtain rfl := mem_singleton.1 hr
      exact .inl (hstop s hs hmem)
    · have hless : (available.filter (· ∉ next :: seen)).length ≤ fuel := by
        refine Nat.le_of_lt_succ (Nat.lt_of_lt_of_le ?_ hfuel)
        have hsub : available.filter (· ∉ next :: seen) = (available.filter (· ∉ seen)).filter (· ≠ next) := by
          rw [filter_filter]
          exact filter_congr fun n _ => by simp
        rw [hsub, length_filter_lt_length_iff_exists]
        exact ⟨next, mem_filter.2 ⟨havailable, by simpa using hnew⟩, by simp⟩
      rw [hcons, forall_mem_cons]
      refine ⟨fun s hs => .inr ?_, fun r hr s hs => ?_⟩
      · rw [hfalls.unique hs.1]
        exact mem_cons_self
      · obtain hseen | hfollows := ih hless r hr s hs
        · exact (mem_cons.1 hseen).elim (fun h => .inr (h ▸ mem_cons_self)) .inl
        · exact .inr (mem_cons_of_mem _ hfollows)

/-! ### Chains -/

theorem chain_nodup : (m.chain available name).Nodup ∧ ∀ n ∈ m.chain available name, n = name ∨ n ∈ available := by
  obtain ⟨hnodup, hall⟩ := @followers_nodup m available [name] name (available.length + 1)
  refine ⟨nodup_cons.2 ⟨fun hmem => (hall name hmem).1 mem_cons_self, hnodup⟩, fun n hn => ?_⟩
  exact (mem_cons.1 hn).imp_right fun h => (hall n h).2

theorem chain_isChain : (m.chain available name).IsChain m.Falls := followers_isChain

theorem chain_subset (hname : name ∈ available) : m.chain available name ⊆ available := fun n hn =>
  (chain_nodup.2 n hn).elim (· ▸ hname) id

/-- No jump leads out of a chain to a routine that is available. -/
theorem chain_closed (hr : r ∈ m.chain available name) (hs : m.FallsAmong available r s) :
    s ∈ m.chain available name := by
  have hfuel : (available.filter (· ∉ [name])).length ≤ available.length + 1 :=
    Nat.le_succ_of_le (length_filter_le ..)
  obtain hseen | hfollows := followers_closed hfuel r hr s hs
  · rw [mem_singleton.1 hseen]
    exact mem_cons_self
  · exact mem_cons_of_mem _ hfollows

/-- A chain holds exactly what jumps lead to among what is available. -/
theorem mem_chain_iff {n : String} :
    n ∈ m.chain available name ↔ Relation.ReflTransGen (m.FallsAmong available) name n := by
  refine ⟨fun hn => ?_, fun hn => ?_⟩
  · obtain rfl | hn := mem_cons.1 hn
    · exact .refl
    · exact followers_reached n hn
  · induction hn with
    | refl => exact mem_cons_self
    | tail _ hs ih => exact chain_closed ih hs

theorem chain_subset_of_mem (h : r ∈ m.chain available s) : m.chain available r ⊆ m.chain available s := fun _ hn =>
  mem_chain_iff.2 ((mem_chain_iff.1 h).trans (mem_chain_iff.1 hn))

theorem chain_length_le (h : r ∈ m.chain available s) : (m.chain available r).length ≤ (m.chain available s).length :=
  (chain_nodup.1.subperm (chain_subset_of_mem h)).length_le

/-- One more routine in front makes a chain longer, unless the chain comes back to it. -/
theorem chain_length_lt (h : m.FallsAmong available r s) (hr : r ∉ m.chain available s) :
    (m.chain available s).length < (m.chain available r).length := by
  have hnodup : (r :: m.chain available s).Nodup := nodup_cons.2 ⟨hr, chain_nodup.1⟩
  have hsub : r :: m.chain available s ⊆ m.chain available r :=
    cons_subset.2 ⟨mem_cons_self, chain_subset_of_mem (chain_closed mem_cons_self h)⟩
  exact (hnodup.subperm hsub).length_le

/-! ### The best of some chains -/

theorem best_mem {cs : List (List String)} (h : cs ≠ []) : best cs ∈ cs := by
  obtain ⟨c, rest, rfl⟩ := exists_cons_of_ne_nil h
  unfold best
  suffices hall : ∀ b, rest.foldl (fun b d => if precedes d b then d else b) b ∈ b :: rest from hall c
  clear h
  induction rest with
  | nil => exact fun b => mem_cons_self
  | cons d rest ih =>
    intro b
    rw [foldl_cons]
    obtain h | h := mem_cons.1 (ih (if precedes d b then d else b))
    · rw [h]
      split <;> simp
    · exact mem_cons_of_mem _ (mem_cons_of_mem _ h)

theorem length_le_of_not_precedes {c d : List String} (h : ¬ precedes c d = true) : c.length ≤ d.length := by
  simp only [precedes, Bool.or_eq_true, decide_eq_true_eq, not_or] at h
  omega

theorem length_le_of_precedes {c d : List String} (h : precedes c d = true) : d.length ≤ c.length := by
  simp only [precedes, Bool.or_eq_true, decide_eq_true_eq, Bool.and_eq_true, beq_iff_eq] at h
  omega

/-- No chain is longer than the best. -/
theorem length_le_best {cs : List (List String)} : ∀ c ∈ cs, c.length ≤ (best cs).length := by
  cases cs with
  | nil => simp
  | cons c rest =>
    unfold best
    suffices hall : ∀ b, ∀ d ∈ b :: rest,
        d.length ≤ (rest.foldl (fun b d => if precedes d b then d else b) b).length from hall c
    clear c
    induction rest with
    | nil => simp
    | cons e rest ih =>
      intro b d hd
      rw [foldl_cons]
      obtain ⟨hfirst, hrest⟩ := forall_mem_cons.1 (ih (if precedes e b then e else b))
      have hboth : b.length ≤ (if precedes e b then e else b).length ∧ e.length ≤ (if precedes e b then e else b).length := by
        split
        case isTrue h => exact ⟨length_le_of_precedes h, le_rfl⟩
        case isFalse h => exact ⟨le_rfl, length_le_of_not_precedes h⟩
      obtain rfl | hd := mem_cons.1 hd
      · exact hboth.1.trans hfirst
      · obtain rfl | hd := mem_cons.1 hd
        · exact hboth.2.trans hfirst
        · exact hrest d hd

end Fallthrough

end CheckedAsm
