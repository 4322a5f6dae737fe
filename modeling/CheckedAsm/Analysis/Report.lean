import CheckedAsm.Analysis.Walk
/-! # Analysis of routines and programs

A routine is accepted when its body can be walked through, all its exits agree, its outputs have values
at the end, and it touched nothing it did not declare. The contexts at the exits of a routine are
recorded as soon as its body has been walked through, whether it is accepted or not. -/

namespace CheckedAsm

open Text (Json)

/-- The contexts at the exits of a routine: at the end of its body, and at each jump. -/
structure Exits where
  setting : Setting
  last : Context
  jumps : List Context

/-- What later stages need to know about a routine that was accepted. -/
structure Facts where
  ty : Ty
  gotos : List String
  calls : List (String × Ty)

/-- A routine and what is known about it. -/
structure Analysed where
  routine : Routine
  facts : Facts

/-- The exits as dumps write them. -/
def Exits.toJson (e : Exits) : Json :=
  .obj [("end_context", e.last.toJson e.setting),
    ("exit_contexts", .arr (e.jumps.map fun cx => cx.toJson e.setting))]

namespace Routine

/-- The setting of a routine. -/
def setting (symbols : Symbols) (r : Routine) : Setting := ⟨symbols, r.name, r.line⟩

/-- Static locations have their initial values at the start of a routine. -/
def startStatics (s : Setting) (cx : Context) : Except Fault Context :=
  (s.symbols.localsOf s.routine).entries.foldlM (fun cx e =>
    match e.2.decl with
    | .defn d =>
      match d.initial with
      | none => pure cx
      | some initial => do
        let r := Ref.location e.1
        let cx ← cx.makeMeaningful s r
        cx.setRange s r ⟨.ofInitial initial, .ofInitial initial⟩
    | _ => pure cx) cx

/-- Walks through the body of a routine with the given signature. -/
def walk (s : Setting) (sig : Signature) (body : Block) : Except Fault Trail := do
  let cx ← Context.ofSignature s sig
  let cx ← startStatics s cx
  body.walk s { cx }

/-- Whether two lists have the same members. -/
def sameMembers (l m : List Ref) : Bool := l.all m.contains && m.all l.contains

/-- Whether two exits know the same locations as having values, as touched and as writeable. -/
def agree (cx other : Context) : Bool :=
  sameMembers other.meaningful cx.meaningful && sameMembers other.touched cx.touched
    && sameMembers other.writeable cx.writeable

/-- The context that stands for all exits of a routine. -/
def joinExits (s : Setting) (last : Context) : List Context → Except Fault Context
  | [] => .ok last
  | first :: rest =>
    if rest.all (agree first) then .ok (last.updateFrom first)
    else .error (s.reject .inconsistentExit .exits)

/-- Requires what the routine declares to hold at its end. -/
def check (s : Setting) (sig : Signature) (t : Trail) : Except Fault Context := do
  let outputs := sig.outputs.map Ref.ofSlot
  let trashes := sig.trashes.map Ref.ofSlot
  let spoiled := t.cx.touched.filter fun r => !t.cx.isMeaningful r
  let cx ← joinExits s t.cx t.exits
  spoiled.forM fun r =>
    if outputs.contains r then .error (s.reject .unmeaningfulOutput (.named r none)) else .ok ()
  outputs.forM (cx.assertMeaningfulAs s .unmeaningfulOutput none)
  cx.touched.forM fun r =>
    if outputs.contains r || trashes.contains r || s.isLocal r.name then .ok ()
    else .error (s.reject .forbiddenWrite (.named r none))
  pure cx

/-- Analyses a routine. The exits are known even when the last checks fail. -/
def analyse (symbols : Symbols) (r : Routine) : Option Exits × Except Fault Facts :=
  let s := r.setting symbols
  match s.globalType r.name, r.body with
  | .error f, _ => (none, .error f)
  | .ok ty, none => (none, .ok ⟨ty, [], []⟩)
  | .ok (.routine sig), some body =>
    match walk s sig body with
    | .error f => (none, .error f)
    | .ok t =>
      (some ⟨s, t.cx, t.exits⟩,
        (check s sig t).map fun cx => ⟨.routine sig, cx.gotos.map Ref.name, t.calls⟩)
  | .ok _, some _ => (none, .error .noConstraints)

end Routine

/-- The exits recorded so far, by routine. -/
abbrev ExitLog := Assoc String Exits

/-- The record as dumps write it. -/
def ExitLog.toJson (log : ExitLog) : Json :=
  .obj (log.entries.map fun e => (e.1, e.2.toJson))

namespace Program

/-- Analyses routines one after the other, up to the first that is not accepted. -/
def analyseAll (symbols : Symbols) :
    List Routine → ExitLog → ExitLog × Except Fault (List Analysed)
  | [], log => (log, .ok [])
  | r :: rest, log =>
    let (exits, facts) := r.analyse symbols
    let log := match exits with
      | none => log
      | some e => log.set r.name e
    match facts with
    | .error f => (log, .error f)
    | .ok facts =>
      let (log, more) := analyseAll symbols rest log
      (log, more.map (⟨r, facts⟩ :: ·))

/-- Analyses a program. -/
def analyse (symbols : Symbols) (p : Program) : ExitLog × Except Fault (List Analysed) :=
  analyseAll symbols p.routines ⟨[]⟩

end Program

end CheckedAsm
