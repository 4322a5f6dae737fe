import CheckedAsm.Cursor
import CheckedAsm.Text.Numeral
/-! # Parsers

A parser moves a cursor and gives a value or a fault. These are the moves that the productions of the
grammar are made of. -/

namespace CheckedAsm

open Text

/-- A parser. -/
abbrev Parse (α : Type) := StateT Cursor (Except Fault) α

namespace Parse

/-- Fails with a flaw at the cursor. -/
def fail {α : Type} (f : Flaw) : Parse α := fun c => .error (c.flaw f)

/-- Fails for a reason other than the grammar. -/
def abort {α : Type} (f : Fault) : Parse α := fun _ => .error f

/-- Asks the cursor. -/
def ask {α : Type} (f : Cursor → α) : Parse α := fun c => .ok (f c, c)

/-- The text of the token under the cursor. -/
def text? : Parse (Option String) := ask Cursor.text?

/-- The line of the token under the cursor. -/
def line : Parse Nat := ask fun c => c.here.line

/-- Whether the cursor is on the given token. -/
def on (token : String) : Parse Bool := ask fun c => c.on token

/-- Moves to the next token. -/
def advance : Parse Unit := fun c => .ok ((), c.advance)

/-- Takes the token under the cursor, whatever it is. -/
def take : Parse (Option String) := fun c => .ok (c.text?, c.advance)

/-- Passes the given token if it is there, and says whether it was. -/
def consume (token : String) : Parse Bool := fun c => .ok (c.consume token)

/-- Passes the given token, which has to be there. -/
def expect (token : String) : Parse Unit := fun c => (c.expect token).map fun c' => ((), c')

/-- Requires a token of the given kind. -/
def checkKind (kind : String) : Parse Unit := fun c => (c.checkKind kind).map fun u => (u, c)

/-- One item for each further comma. Commas are fewer than the lexemes left, so `fuel` suffices. -/
def afterCommas {α : Type} (item : Parse α) : Nat → Parse (List α)
  | 0 => abort .tooDeep
  | fuel + 1 => do
    if ← consume "," then
      let a ← item
      let rest ← afterCommas item fuel
      pure (a :: rest)
    else pure []

/-- Items divided by commas, at least one. -/
def commaList {α : Type} (item : Parse α) : Parse (List α) := do
  let a ← item
  let rest ← fun c => afterCommas item c.remaining c
  pure (a :: rest)

/-- A name: a word token. -/
def name : Parse String := do
  checkKind "identifier"
  let t ← take
  pure (t.getD "")

/-- The number that a text stands for. The end of the text stands for none. -/
def number (text : Option String) : Parse Int :=
  match text with
  | none => abort .numberMissing
  | some s =>
    match decimal? s with
    | none => abort .notNumeral
    | some n => pure n

/-- An integer token. -/
def integer : Parse Int := do
  checkKind "integer literal"
  let n ← number (← text?)
  advance
  pure n

end Parse

end CheckedAsm
