import CheckedAsm.Grammar.Body
/-! # Files of a program

A file has its includes first, then names of types and constants, then definitions of storage, then
routines. When a file ends, every name used so far has to be declared, except in the places where the
compiler looks a name up by itself. -/

namespace CheckedAsm.Grammar

open Parse

/-- How the file of an `include` is loaded. -/
abbrev Include := Symbols → Option String → Except Fault (Symbols × Program)

/-- The includes at the head of a file. Each takes a token. -/
def includes (load : Include) : Nat → Symbols → Parse (Symbols × List Program)
  | 0, _ => abort .tooDeep
  | fuel + 1, s => do
    if ← consume "include" then
      let name ← take
      match load s name with
      | .error f => abort f
      | .ok (s, p) =>
        let (s, rest) ← includes load fuel s
        pure (s, p :: rest)
    else pure (s, [])

/-- Names a type. -/
def typedef (s : Symbols) : Parse Symbols := do
  expect "typedef"
  let ty ← type s
  let n ← name
  if s.typedefs.has n then fail (.typeRedeclared n)
  else pure { s with typedefs := s.typedefs.set n ty }

/-- Names a constant. -/
def constDefn (s : Symbols) : Parse Symbols := do
  expect "const"
  let n ← name
  if s.consts.has n then fail (.constRedeclared n)
  else
    let c ← const s
    pure { s with consts := s.consts.set n c }

/-- Names of types and constants. Each takes a token. -/
def abbreviations : Nat → Symbols → Parse Symbols
  | 0, _ => abort .tooDeep
  | fuel + 1, s => do
    if ← on "typedef" then
      let s ← typedef s
      abbreviations fuel s
    else if ← on "const" then
      let s ← constDefn s
      abbreviations fuel s
    else pure s

/-- Declares a global location, unless its name is taken. -/
def declare (s : Symbols) (name : String) (e : Entry) : Parse Symbols :=
  if s.hasGlobal name then fail (.redeclared name) else pure (s.declare name e)

/-- Definitions of storage, each starting with one of the given words. -/
def defns (starts : List String) : Nat → Symbols → Parse (Symbols × List Defn)
  | 0, _ => abort .tooDeep
  | fuel + 1, s => do
    if ← ask fun c => c.onAny starts then
      let (ty, d) ← defn s
      let s ← declare s d.name ⟨.defn d, ty⟩
      let (s, rest) ← defns starts fuel s
      pure (s, d :: rest)
    else pure (s, [])

/-- Declares a location local to a routine, unless its name is taken. -/
def declareLocal (s : Symbols) (routine : String) (ty : Ty) (d : Defn) : Parse Symbols :=
  if s.hasLocal routine d.name then fail (.redeclaredLocally d.name)
  else if s.hasGlobal d.name then fail (.redeclaredGlobally d.name)
  else pure (s.declareLocal routine d.name ⟨.defn d, ty⟩)

/-- Local definitions, each after the given word and passing the given check. -/
def localDefns (word : String) (check : Defn → Option Flaw) (routine : String) :
    Nat → Symbols → Parse (Symbols × List Defn)
  | 0, _ => abort .tooDeep
  | fuel + 1, s => do
    if ← consume word then
      let (ty, d) ← defn s
      match check d with
      | some f => fail f
      | none =>
        let s ← declareLocal s routine ty d
        let (s, rest) ← localDefns word check routine fuel s
        pure (s, d :: rest)
    else pure (s, [])

/-- A static definition starts with a value. -/
def checkStatic (d : Defn) : Option Flaw :=
  if d.initial.isNone then some (.staticWithoutInitial d) else none

/-- A local definition starts with none. -/
def checkLocal (d : Defn) : Option Flaw :=
  if d.initial.isSome then some (.localWithInitial d) else none

/-- The definitions before a routine's body: static ones, then local ones. -/
def locals (s : Symbols) (routine : String) : Parse (Symbols × List Defn) := do
  let (s, statics) ← fun c => localDefns "static" checkStatic routine c.remaining s c
  let (s, autos) ← fun c => localDefns "local" checkLocal routine c.remaining s c
  pure (s, statics ++ autos)

/-- A routine after its name, and its type. -/
def routine (s : Symbols) (name : String) (preserved : Bool) : Parse (Symbols × Ty × Routine) := do
  let ty ← type s
  if !ty.isRoutine then fail (.notRoutine ty)
  else if ← consume "@" then
    let addr ← integer
    let l ← line
    pure (s, ty, ⟨l, name, some addr, [], none, preserved⟩)
  else
    let (s, ds) ← locals s name
    let body ← block ⟨s, name⟩
    let l ← line
    pure (s, ty, ⟨l, name, none, ds, some body, preserved⟩)

/-- Routines, each after the word `define`. -/
def routines : Nat → Symbols → Parse (Symbols × List Routine)
  | 0, _ => abort .tooDeep
  | fuel + 1, s => do
    if ← consume "define" then
      let t ← take
      let name := t.getD ""
      let preserved ← consume "preserved"
      let (s, ty, r) ← routine s name preserved
      let s ← declare s name ⟨.routine r, ty⟩
      let (s, rest) ← routines fuel s
      pure (s, r :: rest)
    else pure (s, [])

/-! ### Settling names at the end of a file -/

/-- Requires a name to be global. -/
def requireGlobal (s : Symbols) (name : String) : Parse Unit :=
  if s.hasGlobal name then pure () else fail (.undefinedSymbol name)

/-- Requires the name of a pending operand to be global. The base of a table cell has to be declared
before it is used. -/
def requireRef (s : Symbols) : Option Ref → Parse Unit
  | some (.pending n _) => requireGlobal s n
  | some (.indexed (.pending n _) _ _) => do
    requireGlobal s n
    abort .lateBase
  | _ => pure ()

mutual

/-- Requires the names in an instruction to be global. -/
def requireInstr (s : Symbols) : Instr → Parse Unit
  | .op _ op => do
    requireRef s op.src?
    requireRef s op.dest?
  | .call _ t => requireGlobal s t
  | .goto _ t => requireGlobal s t
  | .reset .. => pure ()
  | .ifThen _ _ _ yes => requireBlock s yes
  | .ifElse _ _ _ yes no => do
    requireBlock s yes
    requireBlock s no
  | .loop _ _ _ body => requireBlock s body
  | .count _ _ _ _ body => requireBlock s body
  | .interruptsOff _ body => requireBlock s body
  | .save _ _ body => requireBlock s body
  | .pointInto _ _ _ body => requireBlock s body

/-- Requires the names in a block to be global. -/
def requireBlock (s : Symbols) : Block → Parse Unit
  | .nil _ => pure ()
  | .cons head tail => do
    requireInstr s head
    requireBlock s tail

end

/-- Settles all names of a program, and those in the types of global locations. -/
def settle (s : Symbols) (p : Program) : Parse Symbols := do
  (s.globals.entries.flatMap fun e => e.2.ty.names).forM (requireGlobal s)
  p.routines.forM fun r => r.body.forM (requireBlock s)
  pure s.settleGlobals

/-- The words a definition of storage may start with: the simple types and the named ones. -/
def typeWords (s : Symbols) : List String :=
  ["byte", "word", "table", "vector", "pointer"] ++ s.typedefs.keys

/-- A whole file. -/
def unit (load : Include) (s : Symbols) : Parse (Symbols × Program) := do
  let (s, included) ← fun c => includes load c.remaining s c
  let s ← fun c => abbreviations c.remaining s c
  let (s, ds) ← fun c => defns (typeWords s) c.remaining s c
  let (s, rs) ← fun c => routines c.remaining s c
  checkKind "EOF"
  let program := Program.merge (included ++ [⟨ds, rs⟩])
  let s ← settle s program
  pure (s, program)

end CheckedAsm.Grammar
