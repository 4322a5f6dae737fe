import CheckedAsm.Analysis.Report
/-! # Call graphs

Which routines may come to call which. A call through a vector may reach every routine whose
constraints match the vector's. A routine is reachable when calls lead to it from `main` or from a
routine that is preserved. -/

namespace CheckedAsm

open Text (Json)

/-- A routine in a call graph. -/
structure CallNode where
  calls : List String
  calledBy : List String := []
  reachable : Bool := false

/-- A call graph, its routines in program order. -/
abbrev CallGraph := Assoc String CallNode

namespace CallGraph

/-- The graph of the given calls. -/
def ofCalls (calls : List (String × List String)) : CallGraph :=
  calls.foldl (fun g c => g.set c.1 { calls := c.2 }) ⟨[]⟩

/-- Marks routines one after the other until one fails. -/
def markEach (mark : CallGraph → String → CallGraph × Except Fault Unit) :
    List String → CallGraph → CallGraph × Except Fault Unit
  | [], g => (g, .ok ())
  | name :: rest, g =>
    match mark g name with
    | (g, .ok ()) => markEach mark rest g
    | (g, .error f) => (g, .error f)

/-- Marks a routine and all that calls lead to, depth first. Each level marks a routine that was not
marked before, so `fuel` above their number suffices. -/
def markWithin : Nat → CallGraph → String → CallGraph × Except Fault Unit
  | 0, g, _ => (g, .ok ())
  | fuel + 1, g, name =>
    match g.get? name with
    | none => (g, .error (.unknownName name))
    | some node =>
      if node.reachable then (g, .ok ())
      else markEach (markWithin fuel) node.calls (g.set name { node with reachable := true })

/-- Marks a routine and all that calls lead to. -/
def mark (g : CallGraph) (name : String) : CallGraph × Except Fault Unit :=
  markWithin (g.entries.length + 1) g name

/-- The routines marked as reachable. -/
def reachable (g : CallGraph) : List String :=
  (g.entries.filter fun e => e.2.reachable).map (·.1)

/-- Whether a routine is marked as reachable. -/
def isReachable (g : CallGraph) (name : String) : Bool :=
  match g.get? name with
  | some node => node.reachable
  | none => false

/-- The routines that a call of the given type may reach. -/
def targets (routines : List Analysed) (name : String) : Ty → Except Fault (List String)
  | .routine _ => .ok [name]
  | .vector of => .ok ((routines.filter fun r =>
      r.facts.ty.executableCompatible (.vector of)).map fun r => r.routine.name)
  | _ => .error .noAnswer

/-- The routines that a routine may call. -/
def callsOf (routines : List Analysed) (r : Analysed) : Except Fault (List String) := do
  let reached ← r.facts.calls.mapM fun c => targets routines c.1 c.2
  pure reached.flatten

/-- The graph with the callers of each routine filled in. -/
def withCallers (g : CallGraph) : CallGraph :=
  ⟨g.entries.map fun e =>
    (e.1, { e.2 with calledBy := (g.entries.filter fun o => o.2.calls.contains e.1).map (·.1) })⟩

/-- The routines from which calls start. -/
def roots (routines : List Analysed) : List String :=
  (routines.filter fun r => r.routine.preserved || r.routine.name == "main").map
    fun r => r.routine.name

/-- The call graph of analysed routines. -/
def ofRoutines (routines : List Analysed) : Except Fault CallGraph := do
  let calls ← routines.mapM fun r => do
    let cs ← callsOf routines r
    pure (r.routine.name, cs)
  match markEach mark (roots routines) (ofCalls calls).withCallers with
  | (g, .ok ()) => pure g
  | (_, .error f) => .error f

/-- The routines that are reachable. -/
def prune (g : CallGraph) (routines : List Analysed) : List Analysed :=
  routines.filter fun r => g.isReachable r.routine.name

/-- The graph as dumps write it. -/
def toJson (g : CallGraph) : Json :=
  .obj (g.entries.map fun e => (e.1, .obj ([("potentially-calls", .arr (e.2.calls.map .str)),
    ("potentially-called-by", .arr (e.2.calledBy.map .str))]
    ++ if e.2.reachable then [("reachable", .bool true)] else [])))

end CallGraph

end CheckedAsm
