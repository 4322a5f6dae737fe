import CheckedAsm.Text.Printable
/-! # Quoted texts

A text shown inside a report stands between quotes. Single quotes are used unless the text has a
single quote and no double one. The quote in use and the backslash are escaped, the three common
controls have short escapes, and every other character that is not printable is written by its code
point in two, four or eight hexadecimal digits. -/

namespace CheckedAsm.Text

/-- The quote mark that needs the fewest escapes. -/
def quoteMark (s : List Char) : Char :=
  if s.contains '\'' && !s.contains '"' then '"' else '\''

/-- A number in lower-case hexadecimal, filled with zeros to the given width. -/
def hexPadded (width n : Nat) : List Char :=
  let digits := Nat.toDigits 16 n
  List.replicate (width - digits.length) '0' ++ digits

/-- One character as it stands between the given quote marks. -/
def escaped (mark c : Char) : List Char :=
  if c == mark || c == '\\' then ['\\', c]
  else if c == '\t' then ['\\', 't']
  else if c == '\n' then ['\\', 'n']
  else if c == '\r' then ['\\', 'r']
  else if isPrintable c then [c]
  else if c.toNat < 0x100 then '\\' :: 'x' :: hexPadded 2 c.toNat
  else if c.toNat < 0x10000 then '\\' :: 'u' :: hexPadded 4 c.toNat
  else '\\' :: 'U' :: hexPadded 8 c.toNat

/-- The text between quotes. -/
def quoted (s : String) : String :=
  let mark := quoteMark s.toList
  String.ofList (mark :: s.toList.flatMap (escaped mark) ++ [mark])

/-- A list between square brackets, the parts divided by a comma and a space. -/
def bracketed (parts : List String) : String :=
  "[" ++ ", ".intercalate parts ++ "]"

/-- A record: its name, then the names and the written values of its fields. -/
def record (name : String) (fields : List (String × String)) : String :=
  name ++ "(" ++ ", ".intercalate (fields.map fun f => f.1 ++ "=" ++ f.2) ++ ")"

/-- A table of written values by name. -/
def dictionary (entries : List (String × String)) : String :=
  "\x7b" ++ ", ".intercalate (entries.map fun e => quoted e.1 ++ ": " ++ e.2) ++ "\x7d"

/-- A tree node: its name around the table of its parts. -/
def node (name : String) (parts : List (String × String)) : String :=
  name ++ "(" ++ dictionary parts ++ ")"

/-- A value that may be missing. -/
def orNone : Option String → String
  | none => "None"
  | some s => s

/-- A truth value. -/
def truth (b : Bool) : String := if b then "True" else "False"

end CheckedAsm.Text
