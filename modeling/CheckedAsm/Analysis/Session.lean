import CheckedAsm.Analysis.Report
/-! # Working with contexts by hand

A session holds a stack of contexts of one routine and a stack of what was set aside. Requests act on
the context on top. A request that fails keeps what it had done before. -/

namespace CheckedAsm

/-- What a session may be asked to do. -/
inductive ContextRequest where
  | assertMeaningful (refs : List Ref) (note : Option String)
  | assertWriteable (refs : List Ref) (note : Option String)
  | touch (refs : List Ref)
  | makeMeaningful (refs : List Ref)
  | forget (refs : List Ref)
  | write (refs : List Ref)
  | lock (refs : List Ref)
  | unlock (refs : List Ref)
  | widen (r : Ref)
  | top (r : Ref)
  | bottom (r : Ref)
  | range (r : Ref)
  | maxRange (r : Ref)
  | isConstant (r : Ref)
  | setRange (r : Ref) (range : Range)
  | setTop (r : Ref) (top : Bound)
  | setBottom (r : Ref) (bottom : Bound)
  | copyRange (src dest : Ref)
  | assertInRange (index table offset : Ref)
  | meetGotos (refs : List Ref)
  | terminate
  | hasTerminated
  | extract (r : Ref)
  | reintroduce
  | setAssoc (pointer : Ref) (table : Option Ref)
  | getAssoc (pointer : Ref)
  | clone
  | updateFrom
  | describe

/-- What a session answers. -/
inductive ContextReply where
  | done
  | truth (b : Bool)
  | number (n : Nat)
  | bound (b : Bound)
  | range (r : Range)
  | text (s : Option String)
  | baton (b : Context.Baton)

/-- A stack of contexts, the current one apart, and what was set aside. -/
structure Session where
  setting : Setting
  current : Context
  below : List Context := []
  batons : List Context.Baton := []

namespace Session

/-- The session at the start of a routine. -/
def start (symbols : Symbols) (r : Routine) : Except Fault Session := do
  let s := r.setting symbols
  match ← s.globalType r.name with
  | .routine sig =>
    let cx ← Context.ofSignature s sig
    pure { setting := s, current := cx }
  | _ => .error .noConstraints

/-- The session with its current context changed. -/
def withContext (x : Session) (cx : Context) : Session := { x with current := cx }

/-- How many contexts there are. -/
def depth (x : Session) : Nat := x.below.length + 1

/-- Changes the context for one reference after the other, and keeps what was done before a fault. -/
def eachRef (change : Context → Ref → Except Fault Context) :
    List Ref → Context → Context × Except Fault ContextReply
  | [], cx => (cx, .ok .done)
  | r :: rest, cx =>
    match change cx r with
    | .ok cx => eachRef change rest cx
    | .error f => (cx, .error f)

/-- A check, which changes nothing. -/
def checked (x : Session) (result : Except Fault Unit) : Session × Except Fault ContextReply :=
  (x, result.map fun _ => .done)

/-- A change of the whole context, which fails as a whole. -/
def changed (x : Session) (result : Except Fault Context) : Session × Except Fault ContextReply :=
  match result with
  | .ok cx => (x.withContext cx, .ok .done)
  | .error f => (x, .error f)

/-- A question about the context. -/
def asked (x : Session) (result : Except Fault ContextReply) :
    Session × Except Fault ContextReply := (x, result)

/-- A change for one reference after the other. -/
def changedEach (x : Session) (change : Context → Ref → Except Fault Context) (refs : List Ref) :
    Session × Except Fault ContextReply :=
  let (cx, reply) := eachRef change refs x.current
  (x.withContext cx, reply)

/-- Does what is asked. -/
def run (x : Session) (request : ContextRequest) : Session × Except Fault ContextReply :=
  let s := x.setting
  let cx := x.current
  match request with
  | .assertMeaningful refs note =>
    x.checked (refs.forM (cx.assertMeaningfulAs s .unmeaningfulRead note))
  | .assertWriteable refs note => x.checked (refs.forM (cx.assertWriteable s note))
  | .touch refs => x.changed (.ok (cx.touchAll refs))
  | .makeMeaningful refs => x.changedEach (Context.makeMeaningful s) refs
  | .forget refs => x.changed (.ok (cx.forgetAll refs))
  | .write refs =>
    match refs.forM (cx.assertWriteable s none) with
    | .error f => (x, .error f)
    | .ok _ => (x.withContext (cx.touchAll refs)).changedEach (Context.makeMeaningful s) refs
  | .lock refs => x.changedEach Context.lock refs
  | .unlock refs => x.changed (.ok (refs.foldl Context.unlock cx))
  | .widen r => x.changed (cx.widen s r)
  | .top r => x.asked ((cx.getRange s r).map fun range => .bound range.top)
  | .bottom r => x.asked ((cx.getRange s r).map fun range => .bound range.bottom)
  | .range r => x.asked ((cx.getRange s r).map .range)
  | .maxRange r => x.asked ((s.maxRange r).map .range)
  | .isConstant r => x.asked ((s.isConstant r).map .truth)
  | .setRange r range => x.changed (cx.setRange s r range)
  | .setTop r top => x.changed (cx.setTop s r top)
  | .setBottom r bottom => x.changed (cx.setBottom s r bottom)
  | .copyRange src dest => x.changed (cx.copyRange s src dest)
  | .assertInRange index table offset => x.checked (cx.assertInRange s index table offset)
  | .meetGotos refs => x.changed (.ok (cx.meetGotos refs))
  | .terminate => x.changed (.ok cx.terminate)
  | .hasTerminated => x.asked (.ok (.truth cx.terminated))
  | .extract r =>
    let (baton, cx) := cx.extract r
    ({ x.withContext cx with batons := baton :: x.batons }, .ok (.baton baton))
  | .reintroduce =>
    match x.batons with
    | [] => (x, .error .exhausted)
    | baton :: rest => ({ x.withContext (cx.reintroduce baton) with batons := rest }, .ok .done)
  | .setAssoc pointer table => x.changed (.ok (cx.setAssoc pointer table))
  | .getAssoc pointer => x.asked (.ok (.text ((cx.getAssoc pointer).map Ref.name)))
  | .clone =>
    let x := { x with current := cx.branch, below := cx :: x.below }
    (x, .ok (.number x.depth))
  | .updateFrom =>
    match x.below with
    | [] => (x, .error .exhausted)
    | under :: rest =>
      let x := { x with current := under.updateFrom cx, below := rest }
      (x, .ok (.number x.depth))
  | .describe => x.asked (.ok (.text (some cx.describe)))

end Session

end CheckedAsm
