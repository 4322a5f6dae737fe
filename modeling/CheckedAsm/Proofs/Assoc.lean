import CheckedAsm.Assoc
import Mathlib.Data.List.Nodup
/-! # Entries of association lists

What setting a key does to the entries, seen as a list: the entry of a key that is present changes in its place, and that of a
new key is added at the end. -/

namespace CheckedAsm.Assoc

open List

variable {κ ν : Type} [DecidableEq κ]

theorem mem_keys_iff {m : Assoc κ ν} {k : κ} : k ∈ m.keys ↔ m.has k = true := by
  simp [keys, has, get?]

theorem mem_of_get? {m : Assoc κ ν} {k : κ} {v : ν} (h : m.get? k = some v) : (k, v) ∈ m.entries := by
  obtain ⟨x, hx, rfl⟩ := Option.map_eq_some_iff.1 h
  have hkey : x.1 = k := by simpa using find?_some hx
  exact hkey ▸ mem_of_find?_eq_some hx

theorem mem_setIn {k : κ} {v : ν} {l : List (κ × ν)} {x : κ × ν} (h : x ∈ setIn k v l) : x ∈ l ∨ x = (k, v) := by
  induction l with
  | nil => exact .inr (mem_singleton.1 h)
  | cons y l ih =>
    rw [setIn] at h
    split at h
    · obtain rfl | h := mem_cons.1 h
      · exact .inr rfl
      · exact .inl (mem_cons_of_mem y h)
    · obtain rfl | h := mem_cons.1 h
      · exact .inl mem_cons_self
      · exact (ih h).imp_left (mem_cons_of_mem y)

theorem map_setIn (k : κ) (v : ν) (l : List (κ × ν)) :
    (setIn k v l).map (·.1) = if k ∈ l.map (·.1) then l.map (·.1) else l.map (·.1) ++ [k] := by
  induction l with
  | nil => simp [setIn]
  | cons e rest ih =>
    by_cases he : e.1 = k
    · simp [setIn, he]
    · simp only [setIn, if_neg he, map_cons, ih, mem_cons, Ne.symm he, false_or]
      split <;> simp

theorem keys_set_nodup {m : Assoc κ ν} (h : m.keys.Nodup) (k : κ) (v : ν) : (m.set k v).keys.Nodup := by
  rw [keys, set, map_setIn]
  split
  · exact h
  · next hk => exact nodup_append.2 ⟨h, nodup_singleton k, fun a ha b hb hab => hk (mem_singleton.1 hb ▸ hab ▸ ha)⟩

theorem entries_set_of_new {m : Assoc κ ν} {k : κ} {v : ν} (h : m.has k = false) :
    (m.set k v).entries = m.entries ++ [(k, v)] := by
  have hnew : ∀ e ∈ m.entries, e.1 ≠ k := by simpa [has, get?] using h
  obtain ⟨l⟩ := m
  show setIn k v l = l ++ [(k, v)]
  clear h
  induction l with
  | nil => rfl
  | cons e l ih =>
    obtain ⟨he, hl⟩ := forall_mem_cons.1 hnew
    rw [setIn, if_neg he, ih hl, cons_append]

theorem get?_mapValues {ν' : Type} {f : ν → ν'} {m : Assoc κ ν} {k : κ} : (m.mapValues f).get? k = (m.get? k).map f := by
  obtain ⟨l⟩ := m
  simp only [get?, mapValues, find?_map, Option.map_map]
  rfl

end CheckedAsm.Assoc
