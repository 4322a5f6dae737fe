import CheckedAsm.Grammar.Parse
import CheckedAsm.Symbols
/-! # Constants, types and definitions

The productions that declare storage. They read names of types and constants from the symbol table and
do not change it. -/

namespace CheckedAsm.Grammar

open Parse

/-- A constant: a truth value, a number, a number said to be a word, or a named constant. -/
def const (s : Symbols) : Parse Const := do
  let t ← text?
  if t = some "on" then
    advance
    pure ⟨.bit, 1⟩
  else if t = some "off" then
    advance
    pure ⟨.bit, 0⟩
  else if ← ask fun c => c.here.token.isInteger then
    let n ← number t
    advance
    pure (Const.ofInt n)
  else if ← consume "word" then
    let n ← number (← text?)
    advance
    pure ⟨.word, n⟩
  else
    match t.bind s.consts.get? with
    | some c =>
      advance
      pure c
    | none => fail (.badConstant t)

/-- A location named in a constraint. It need not be declared yet. -/
def slot : Parse Slot := do
  let site ← ask Cursor.site
  let t ← take
  pure ⟨t.getD "", some site⟩

/-- A list of locations, if the given word announces one. -/
def constraint (word : String) : Parse Slots := do
  if ← consume word then
    let slots ← commaList slot
    pure (Slots.ofList slots)
  else pure []

/-- The constraints of a routine. -/
def signature : Parse Signature := do
  let inputs ← constraint "inputs"
  let outputs ← constraint "outputs"
  let trashes ← constraint "trashes"
  pure ⟨inputs, outputs, trashes⟩

/-- The size of a table between brackets. -/
def tableSize (s : Symbols) : Parse Int := do
  expect "["
  let c ← const s
  expect "]"
  pure c.value

/-- A type, given how to read one that is not a table. -/
def tableOf (s : Symbols) (term : Parse Ty) : Parse Ty := do
  let t ← term
  if ← consume "table" then
    let size ← tableSize s
    if size ≤ 0 ∨ size > 65536 then fail .badTableSize
    else pure (.table t size)
  else pure t

/-- The vector of a routine. -/
def vectorOf : Ty → Parse Ty
  | .routine sig => pure (.vector (.routine sig))
  | .bit => fail (.vectorOf "bit")
  | .byte => fail (.vectorOf "byte")
  | .word => fail (.vectorOf "word")
  | .pointer => fail (.vectorOf "pointer")
  | .vector _ | .table _ _ => abort .vectorOfCompound

/-- A type that is not a table, unless it stands in parentheses. Each level of nesting takes a token,
so as much `fuel` as there are lexemes suffices. -/
def typeTerm (s : Symbols) : Nat → Parse Ty
  | 0 => abort .tooDeep
  | fuel + 1 => do
    if ← consume "(" then
      let t ← tableOf s (typeTerm s fuel)
      expect ")"
      pure t
    else if ← consume "byte" then pure .byte
    else if ← consume "word" then pure .word
    else if ← consume "vector" then
      let t ← typeTerm s fuel
      vectorOf t
    else if ← consume "routine" then
      let sig ← signature
      pure (.routine sig)
    else if ← consume "pointer" then pure .pointer
    else
      let t ← take
      match t.bind s.typedefs.get? with
      | some ty => pure ty
      | none => fail (.undefinedType t)

/-- A type. -/
def type (s : Symbols) : Parse Ty := fun c => tableOf s (typeTerm s c.remaining) c

/-- The initial value of a location of the given type. -/
def initial (s : Symbols) (ty : Ty) : Parse Initial := do
  if ty.isTable then
    if ← ask fun c => c.here.token.isQuotation then
      let t ← take
      pure (.text (t.getD ""))
    else
      let cs ← commaList (const s)
      pure (.values (cs.map (·.value)))
  else
    let c ← const s
    pure (.value c.value)

/-- A definition of storage and its type. -/
def defn (s : Symbols) : Parse (Ty × Defn) := do
  let ty ← type s
  let name ← name
  let init ← if ← consume ":" then some <$> initial s ty else pure none
  let addr ← if ← consume "@" then some <$> integer else pure none
  if init.isSome ∧ addr.isSome then fail .initialAndAddress
  let line ← line
  pure (ty, ⟨line, name, addr, init⟩)

end CheckedAsm.Grammar
