/-! # Runs of code points

A property of characters is given by the runs of consecutive code points that have it, in ascending
order. Membership in such a table is the only question asked of it. -/

namespace CheckedAsm.Text

/-- A property of characters: runs of code points, first and last included. -/
abbrev Runs := List (Nat × Nat)

/-- The runs from a code point on, each given by the number of code points passed over before it and the number in it. -/
def Runs.ofSteps (start : Nat) : List Nat → Runs
  | gap :: length :: rest => (start + gap, start + gap + length - 1) :: ofSteps (start + gap + length) rest
  | _ => []

/-- Whether some run holds the code point. -/
def Runs.has (runs : Runs) (n : Nat) : Bool :=
  runs.any fun r => r.1 ≤ n && n ≤ r.2

theorem Runs.has_iff (runs : Runs) (n : Nat) :
    runs.has n = true ↔ ∃ r ∈ runs, r.1 ≤ n ∧ n ≤ r.2 := by
  simp [Runs.has]

end CheckedAsm.Text
