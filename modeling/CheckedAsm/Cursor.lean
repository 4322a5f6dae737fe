import CheckedAsm.Fault
import CheckedAsm.Lexeme
/-! # Cursors

A cursor stands on one lexeme of a file and moves forward only. At the end of the text it stays where
it is. The grammar asks a cursor which token it stands on; tokens are compared by their text, so a
quotation may stand for a word. -/

namespace CheckedAsm

/-- A position in the lexemes of a file. -/
structure Cursor where
  file : String
  here : Lexeme
  ahead : List Lexeme

namespace Cursor

/-- The cursor on the first lexeme of a list. -/
def ofLexemes (file : String) : List Lexeme → Cursor
  | [] => ⟨file, ⟨.finish, 1, 0⟩, []⟩
  | l :: rest => ⟨file, l, rest⟩

/-- The cursor at the beginning of a text. -/
def ofText (file text : String) : Cursor := ofLexemes file (lexemes text)

/-- The text of the token under the cursor. -/
def text? (c : Cursor) : Option String := c.here.token.text?

/-- How many lexemes are left, the one under the cursor included. -/
def remaining (c : Cursor) : Nat := c.ahead.length + 1

/-- Where the cursor stands. -/
def site (c : Cursor) : Site := ⟨c.file, c.here.pos, c.text?.isNone⟩

/-- Moves to the next lexeme. -/
def advance (c : Cursor) : Cursor :=
  match c.ahead with
  | [] => c
  | l :: rest => { c with here := l, ahead := rest }

/-- Whether the cursor is on the given token. -/
def on (c : Cursor) (token : String) : Bool := c.text? == some token

/-- Whether the cursor is on one of the given tokens. -/
def onAny (c : Cursor) (tokens : List String) : Bool := tokens.any c.on

/-- Whether the cursor is on a token of the given kind. -/
def onKind (c : Cursor) (kind : String) : Bool := c.here.token.kind == kind

/-- A flaw at the cursor's line. -/
def flaw (c : Cursor) (f : Flaw) : Fault := .flaw c.file c.here.line f

/-- Passes the given token, which has to be there. -/
def expect (c : Cursor) (token : String) : Except Fault Cursor :=
  if c.on token then .ok c.advance else .error (c.flaw (.expected token c.text?))

/-- Requires a token of the given kind. The report names the kind that was found. -/
def checkKind (c : Cursor) (kind : String) : Except Fault Unit :=
  if c.onKind kind then .ok () else .error (c.flaw (.misplaced c.here.token.kind c.text?))

/-- Passes the given token if it is there. -/
def consume (c : Cursor) (token : String) : Bool × Cursor :=
  if c.on token then (true, c.advance) else (false, c)

end Cursor

end CheckedAsm
