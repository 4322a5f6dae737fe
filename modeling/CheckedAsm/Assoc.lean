/-! # Association lists in order of arrival

A finite map that remembers the order in which its keys arrived. Setting a key that is present keeps
its place; a key that was erased and comes back stands last. Reports list entries in this order. -/

namespace CheckedAsm

/-- A finite map, its entries in order of arrival. -/
structure Assoc (κ ν : Type) where
  entries : List (κ × ν) := []

namespace Assoc

variable {κ ν : Type} [DecidableEq κ]

/-- The map without entries. -/
def empty : Assoc κ ν := ⟨[]⟩

/-- The value at a key. -/
def get? (m : Assoc κ ν) (k : κ) : Option ν :=
  (m.entries.find? fun e => e.1 = k).map (·.2)

/-- Whether the key has a value. -/
def has (m : Assoc κ ν) (k : κ) : Bool := (m.get? k).isSome

/-- The keys in order of arrival. -/
def keys (m : Assoc κ ν) : List κ := m.entries.map (·.1)

/-- Sets a key in a list of entries. -/
def setIn (k : κ) (v : ν) : List (κ × ν) → List (κ × ν)
  | [] => [(k, v)]
  | e :: rest => if e.1 = k then (k, v) :: rest else e :: setIn k v rest

/-- The map with one key set. -/
def set (m : Assoc κ ν) (k : κ) (v : ν) : Assoc κ ν := ⟨setIn k v m.entries⟩

/-- The map without one key. -/
def erase (m : Assoc κ ν) (k : κ) : Assoc κ ν := ⟨m.entries.filter fun e => e.1 ≠ k⟩

/-- The map with every value changed. -/
def mapValues {ν' : Type} (f : ν → ν') (m : Assoc κ ν) : Assoc κ ν' :=
  ⟨m.entries.map fun e => (e.1, f e.2)⟩

theorem find?_setIn (k k' : κ) (v : ν) (l : List (κ × ν)) :
    ((setIn k v l).find? fun e => e.1 = k').map (·.2)
      = if k = k' then some v else (l.find? fun e => e.1 = k').map (·.2) := by
  induction l with
  | nil => by_cases h : k = k' <;> simp [setIn, h]
  | cons e rest ih =>
    by_cases he : e.1 = k
    · by_cases h : k = k' <;> simp_all [setIn]
    · by_cases h : k = k'
      · subst h; simp_all [setIn]
      · by_cases h' : e.1 = k' <;> simp_all [setIn]

/-- Reading after setting. -/
@[simp] theorem get?_set (m : Assoc κ ν) (k k' : κ) (v : ν) :
    (m.set k v).get? k' = if k = k' then some v else m.get? k' :=
  find?_setIn k k' v m.entries

/-- Reading after erasing. -/
@[simp] theorem get?_erase (m : Assoc κ ν) (k k' : κ) :
    (m.erase k).get? k' = if k = k' then none else m.get? k' := by
  obtain ⟨l⟩ := m
  simp only [erase, get?]
  induction l with
  | nil => simp
  | cons e rest ih =>
    by_cases he : e.1 = k <;> by_cases h : k = k' <;> by_cases h' : e.1 = k' <;> simp_all

@[simp] theorem get?_empty (k : κ) : (empty : Assoc κ ν).get? k = none := rfl

end Assoc

end CheckedAsm
