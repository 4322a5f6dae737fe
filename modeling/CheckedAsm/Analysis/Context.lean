import CheckedAsm.Fault
import CheckedAsm.Symbols
import CheckedAsm.Text.Json
/-! # Analysis contexts

While a routine is analysed, a context records which locations it has touched, which hold a value and
in which range, which may be written to, whether control can still reach this point, and which
routines were jumped to. A location is touched when it was, or may have been, changed; it is meaningful
when it has a range. Locals may always be written to. -/

namespace CheckedAsm

open Text (Json)

/-- The routine under analysis and what names mean in it. -/
structure Setting where
  symbols : Symbols
  routine : String
  line : Nat

namespace Setting

/-- Whether a name is local to the routine. -/
def isLocal (s : Setting) (name : String) : Bool := s.symbols.hasLocal s.routine name

/-- A breach of a rule, reported against the routine. -/
def reject (s : Setting) (rule : Rule) (detail : Detail) : Fault :=
  .rejected rule (.routine s.routine s.line) detail

/-- The type of a global name. -/
def globalType (s : Setting) (name : String) : Except Fault Ty :=
  match s.symbols.globalType? name with
  | some t => .ok t
  | none => .error (.unknownName name)

/-- The type of a name. Locals come first. -/
def typeOfName (s : Setting) (name : String) : Except Fault Ty :=
  match s.symbols.localType? s.routine name with
  | some t => .ok t
  | none => s.globalType name

/-- The type of a constant or a location. -/
def typeOf (s : Setting) : Ref → Except Fault Ty
  | .constant c => .ok c.ty
  | .location n => s.typeOfName n
  | r => .error (.noMeaning r)

/-- Whether the value of a reference stays the same as long as the program runs. -/
def isConstant (s : Setting) : Ref → Except Fault Bool
  | .constant _ => .ok true
  | .indirect _ | .indexed .. => .ok false
  | .location n => (s.globalType n).map Ty.isRoutine
  | .pending .. => .error .noAnswer

/-- The widest range a reference may have. -/
def maxRange (s : Setting) : Ref → Except Fault Range
  | .constant c => .ok (.ofInts (c.value, c.value))
  | r => (s.typeOfName r.name).map fun t => .ofInts t.maxRange

end Setting

namespace Bound

/-- The bound moved by a number. -/
def plus (b : Bound) (n : Int) : Except Fault Int :=
  match b with
  | .int m => .ok (m + n)
  | _ => .error .incomparable

/-- Whether the bound is above a number. -/
def above (b : Bound) (n : Int) : Except Fault Bool :=
  match b with
  | .int m => .ok (n < m)
  | _ => .error .incomparable

/-- Whether the bound is below a number. -/
def below (b : Bound) (n : Int) : Except Fault Bool :=
  match b with
  | .int m => .ok (m < n)
  | _ => .error .incomparable

end Bound

/-- What the analysis knows at one point of a routine. -/
structure Context where
  touched : List Ref := []
  ranges : Assoc Ref Range := ⟨[]⟩
  writeable : List Ref := []
  terminated : Bool := false
  gotos : List Ref := []
  assoc : Assoc Ref Ref := ⟨[]⟩

namespace Context

/-- The locations that hold a value. -/
def meaningful (cx : Context) : List Ref := cx.ranges.keys

/-- Whether the reference has a range. -/
def isMeaningful (cx : Context) (r : Ref) : Bool := cx.ranges.has r

/-! ### Checks -/

/-- Requires a range, and reports the lack of one as a breach of the given rule. -/
def requireRange (s : Setting) (cx : Context) (rule : Rule) (note : Option String) (r : Ref) :
    Except Fault Unit :=
  if cx.isMeaningful r then .ok () else .error (s.reject rule (.named r note))

/-- Requires a reference to have a value. Constants always have one; a cell of a table has one when its
table and its index have. -/
def assertMeaningfulAs (s : Setting) (cx : Context) (rule : Rule) (note : Option String) :
    Ref → Except Fault Unit
  | .constant _ => .ok ()
  | .location n =>
    if s.isLocal n then cx.requireRange s rule note (.location n)
    else
      match s.isConstant (.location n) with
      | .error f => .error f
      | .ok true => .ok ()
      | .ok false => cx.requireRange s rule note (.location n)
  | .pending n site =>
    if s.isLocal n then cx.requireRange s rule note (.pending n site) else .error .noAnswer
  | .indexed base _ index => do
    assertMeaningfulAs s cx rule note base
    assertMeaningfulAs s cx rule note index
  | .indirect base => .error (.noMeaning (.indirect base))

/-- Requires a reference to have a value where it is read. -/
def assertMeaningful (s : Setting) (cx : Context) (r : Ref) : Except Fault Unit :=
  cx.assertMeaningfulAs s .unmeaningfulRead none r

/-- Requires several references to have values. -/
def assertAllMeaningful (s : Setting) (cx : Context) (rs : List Ref) : Except Fault Unit :=
  rs.forM (cx.assertMeaningful s)

/-- Requires that a reference may be written to. -/
def assertWriteable (s : Setting) (cx : Context) (note : Option String) (r : Ref) :
    Except Fault Unit :=
  if s.isLocal r.name then .ok ()
  else if cx.writeable.contains r then .ok ()
  else .error (s.reject .forbiddenWrite (.named r note))

/-- The recorded range of a reference. -/
def rangeOf (cx : Context) (r : Ref) : Except Fault Range :=
  match cx.ranges.get? r with
  | some range => .ok range
  | none => .error (.unknownRef r)

/-- Requires the index, moved by a constant offset, to stay inside the bounds of a table. A table
without a value has the bounds of its type. -/
def assertInRange (s : Setting) (cx : Context) (index table offset : Ref) : Except Fault Unit := do
  match index, table with
  | .location _, .location _ =>
    let has ← cx.rangeOf index
    let allowed ← match cx.ranges.get? table with
      | some range => pure range
      | none => s.maxRange table
    match offset with
    | .constant c =>
      let breach := s.reject .rangeExceeded (.outside index has c table allowed)
      let low ← has.bottom.plus c.value
      if ← allowed.bottom.above low then .error breach
      let high ← has.top.plus c.value
      if ← allowed.top.below high then .error breach
    | _ => .error .noValue
  | _, _ => .error .notLocation

/-! ### Changes -/

/-- Marks a location as touched. -/
def touch (cx : Context) (r : Ref) : Context := { cx with touched := cx.touched.insert r }

/-- Marks locations as touched. -/
def touchAll (cx : Context) (rs : List Ref) : Context := rs.foldl touch cx

/-- Takes the value from a location. -/
def forget (cx : Context) (r : Ref) : Context := { cx with ranges := cx.ranges.erase r }

/-- Takes the values from locations. -/
def forgetAll (cx : Context) (rs : List Ref) : Context := rs.foldl forget cx

/-- Spoils a location: it is touched and has no value. -/
def spoil (cx : Context) (r : Ref) : Context := (cx.touch r).forget r

/-- Records a range as it is. -/
def putRange (cx : Context) (r : Ref) (range : Range) : Context :=
  { cx with ranges := cx.ranges.set r range }

/-- Gives a location a value. If it has none yet, any value of its type is possible. -/
def makeMeaningful (s : Setting) (cx : Context) (r : Ref) : Except Fault Context :=
  if cx.isMeaningful r then .ok cx else (s.maxRange r).map (cx.putRange r)

/-- Gives locations values. -/
def makeAllMeaningful (s : Setting) (cx : Context) (rs : List Ref) : Except Fault Context :=
  rs.foldlM (makeMeaningful s) cx

/-- Writes to locations: they may all be written to, and then are touched and have values. -/
def write (s : Setting) (cx : Context) (rs : List Ref) : Except Fault Context := do
  rs.forM (cx.assertWriteable s none)
  (cx.touchAll rs).makeAllMeaningful s rs

/-- Sets the range of a location that has a value. -/
def setRange (s : Setting) (cx : Context) (r : Ref) (range : Range) : Except Fault Context := do
  cx.assertMeaningful s r
  pure (cx.putRange r range)

/-- Sets the greatest value of a location. -/
def setTop (s : Setting) (cx : Context) (r : Ref) (top : Bound) : Except Fault Context := do
  cx.assertMeaningful s r
  let range ← cx.rangeOf r
  pure (cx.putRange r ⟨range.bottom, top⟩)

/-- Sets the least value of a location. What was the least value becomes the greatest. -/
def setBottom (s : Setting) (cx : Context) (r : Ref) (bottom : Bound) : Except Fault Context := do
  cx.assertMeaningful s r
  let range ← cx.rangeOf r
  pure (cx.putRange r ⟨bottom, range.bottom⟩)

/-- The range of a constant or of a location that has a value. -/
def getRange (s : Setting) (cx : Context) (r : Ref) : Except Fault Range :=
  match r with
  | .constant c => .ok (.ofInts (c.value, c.value))
  | r => do
    cx.assertMeaningful s r
    cx.rangeOf r

/-- Gives one location the range of another. -/
def copyRange (s : Setting) (cx : Context) (src dest : Ref) : Except Fault Context := do
  cx.assertMeaningful s src
  let range ← match cx.ranges.get? src with
    | some range => pure range
    | none => s.maxRange src
  pure (cx.putRange dest range)

/-- Gives a location the widest range of its type. -/
def widen (s : Setting) (cx : Context) (r : Ref) : Except Fault Context := do
  cx.assertMeaningful s r
  let range ← s.maxRange r
  pure (cx.putRange r range)

/-- Forbids writing to a location that could be written to. -/
def lock (cx : Context) (r : Ref) : Except Fault Context :=
  if cx.writeable.contains r then .ok { cx with writeable := cx.writeable.erase r }
  else .error (.unknownRef r)

/-- Allows writing to a location. -/
def unlock (cx : Context) (r : Ref) : Context := { cx with writeable := cx.writeable.insert r }

/-- Records jumps. -/
def meetGotos (cx : Context) (rs : List Ref) : Context :=
  { cx with gotos := rs.foldl (fun acc r => acc.insert r) cx.gotos }

/-- Records that control does not go on from here. -/
def terminate (cx : Context) : Context := { cx with terminated := true }

/-- The table that a pointer is associated with. -/
def getAssoc (cx : Context) (pointer : Ref) : Option Ref := cx.assoc.get? pointer

/-- Associates a pointer with a table, or with none. -/
def setAssoc (cx : Context) (pointer : Ref) : Option Ref → Context
  | some table => { cx with assoc := cx.assoc.set pointer table }
  | none => { cx with assoc := cx.assoc.erase pointer }

/-! ### Whole contexts -/

/-- The context at the start of a branch: control does reach it. -/
def branch (cx : Context) : Context := { cx with terminated := false }

/-- Takes over everything from another context but the jumps it met. -/
def updateFrom (cx other : Context) : Context := { other with gotos := cx.gotos }

/-- What a context knows about one location. -/
structure Baton where
  location : Ref
  touched : Bool
  range : Option Range
  writeable : Bool

/-- Sets aside what is known about a location, and allows writing to it. -/
def extract (cx : Context) (r : Ref) : Baton × Context :=
  (⟨r, cx.touched.contains r, cx.ranges.get? r, cx.writeable.contains r⟩, cx.unlock r)

/-- Restores what was set aside about a location. -/
def reintroduce (cx : Context) (b : Baton) : Context :=
  { cx with
    touched := if b.touched then cx.touched.insert b.location else cx.touched.erase b.location
    ranges := match b.range with
      | some range => cx.ranges.set b.location range
      | none => cx.ranges.erase b.location
    writeable := if b.writeable then cx.writeable.insert b.location
      else cx.writeable.erase b.location }

/-- The constraint of a routine that is a constant. -/
def refuseConstants (s : Setting) (refs : List Ref) : Except Fault Unit :=
  refs.forM fun r => do
    if ← s.isConstant r then .error (s.reject .constantConstraint (.named r none))

/-- The context at the start of a routine with the given constraints: the inputs have values, outputs
and trashes may be written to, and nothing is both an output and trashed. -/
def start (s : Setting) (inputs outputs trashes : List Ref) : Except Fault Context := do
  refuseConstants s inputs
  let ranges ← inputs.foldlM
    (fun (m : Assoc Ref Range) r => (s.maxRange r).map fun range => m.set r range) ⟨[]⟩
  refuseConstants s outputs
  trashes.forM fun r => do
    refuseConstants s [r]
    if outputs.any fun o => o.name = r.name then
      .error (s.reject .inconsistentConstraints (.named r none))
  let writeable := (outputs ++ trashes).foldl (fun acc r => acc.insert r) []
  pure { ranges, writeable }

/-- The context at the start of a routine of the given signature. -/
def ofSignature (s : Setting) (sig : Signature) : Except Fault Context :=
  start s (sig.inputs.map .ofSlot) (sig.outputs.map .ofSlot) (sig.trashes.map .ofSlot)

/-! ### Dumps -/

/-- Names in ascending order, divided by commas. -/
def commaNames (names : List String) : String :=
  ",".intercalate (names.mergeSort fun a b => a ≤ b)

/-- The context as dumps write it. Where two references share a name, the later range is shown. -/
def toJson (s : Setting) (cx : Context) : Json :=
  let sig := match s.symbols.globalType? s.routine with
    | some (.routine sig) => sig
    | _ => {}
  let names := fun refs : List Ref => Json.str (commaNames (refs.map Ref.name))
  let slots := fun slots : Slots => Json.str (commaNames (slots.map (·.name)))
  let ranges : Assoc String String :=
    cx.ranges.entries.foldl (fun m e => m.set e.1.name e.2.dashed) ⟨[]⟩
  .obj [("routine_inputs", slots sig.inputs), ("routine_outputs", slots sig.outputs),
    ("routine_trashes", slots sig.trashes), ("touched", names cx.touched),
    ("range", .obj (ranges.entries.map fun e => (e.1, .str e.2))),
    ("writeable", names cx.writeable), ("terminated", .bool cx.terminated),
    ("gotos_encountered", names cx.gotos)]

/-- The context as reports write it. -/
def describe (cx : Context) : String :=
  "AnalysisContext(\n  _touched=" ++ Ref.listed cx.touched ++ ",\n  _range="
    ++ Ref.listed cx.meaningful ++ ",\n  _writeable=" ++ Ref.listed cx.writeable ++ "\n)"

end Context

end CheckedAsm
