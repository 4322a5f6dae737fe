import CheckedAsm.Analysis.Report
/-! # Rosters

A routine that ends by jumping to another one can do without the jump when the other one comes next.
A roster is an order of all routines in chains, such that within a chain each routine may run into the
next. The chain of `main` comes first; after it, always the longest chain that the routines left over
can form. -/

namespace CheckedAsm

open Text

/-- The one routine that each routine jumps to at its end, if there is just one. -/
abbrev Fallthrough := Assoc String (Option String)

namespace Fallthrough

/-- The map of the given pairs; the last word on a routine counts. -/
def ofList (pairs : List (String × Option String)) : Fallthrough :=
  pairs.foldl (fun m p => m.set p.1 p.2) ⟨[]⟩

/-- The map of analysed routines. -/
def ofRoutines (symbols : Symbols) (routines : List Analysed) : Fallthrough :=
  ofList (routines.map fun r => (r.routine.name, match r.facts.gotos with
    | [target] =>
      match symbols.globalType? target with
      | some (.routine _) => some target
      | _ => none
    | _ => none))

/-- The routines that may follow `name`, those in `seen` and those not available left out. Each one is
available and new, so as much `fuel` as there are available routines suffices. -/
def followers (m : Fallthrough) (available : List String) :
    Nat → List String → String → List String
  | 0, _, _ => []
  | fuel + 1, seen, name =>
    match (m.get? name).join with
    | none => []
    | some next =>
      if seen.contains next || !available.contains next then []
      else next :: followers m available fuel (next :: seen) next

/-- The chain that starts with a routine, made of available ones. -/
def chain (m : Fallthrough) (available : List String) (name : String) : List String :=
  name :: followers m available (available.length + 1) [name] name

/-- Whether one chain comes before another: the longer one does, then the one whose written form is
later. -/
def precedes (c d : List String) : Bool :=
  c.length > d.length
    || (c.length == d.length && bracketed (c.map quoted) > bracketed (d.map quoted))

/-- The first of some chains. -/
def best : List (List String) → List String
  | [] => []
  | c :: rest => rest.foldl (fun b d => if precedes d b then d else b) c

/-- The chains of the routines left over. Each chain takes at least one routine, so as much `fuel` as
there are routines suffices. -/
def chainsOf (m : Fallthrough) : Nat → List String → List (List String)
  | 0, _ => []
  | fuel + 1, left =>
    if left.isEmpty then []
    else
      let c := best (left.map (m.chain left))
      c :: chainsOf m fuel (left.filter fun r => !c.contains r)

/-- The roster. There has to be a `main`. -/
def roster (m : Fallthrough) : Except Fault (List (List String)) :=
  if m.has "main" then
    let first := m.chain m.keys "main"
    let left := m.keys.filter fun r => !first.contains r
    .ok (first :: chainsOf m left.length left)
  else .error (.unknownName "main")

/-- A roster as dumps write it. -/
def rosterJson (roster : List (List String)) : Json :=
  .arr (roster.map fun c => .arr (c.map .str))

end Fallthrough

end CheckedAsm
