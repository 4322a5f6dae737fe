import CheckedAsm.Text.Quoted
/-! # JSON documents

The machine-readable dumps are JSON: members of an object in ascending order of their names, four
blanks of indentation for each level, and only ASCII characters. -/

namespace CheckedAsm.Text

/-- A JSON document without fractions. -/
inductive Json where
  | null
  | bool (b : Bool)
  | int (n : Int)
  | str (s : String)
  | arr (items : List Json)
  | obj (members : List (String × Json))

namespace Json

/-- One UTF-16 unit as an escape. -/
def unitEscape (n : Nat) : List Char := '\\' :: 'u' :: hexPadded 4 n

/-- One character inside a JSON string. A character beyond the first plane is written as a
surrogate pair. -/
def escapeChar (c : Char) : List Char :=
  let n := c.toNat
  if c == '"' || c == '\\' then ['\\', c]
  else if c == '\n' then ['\\', 'n']
  else if c == '\r' then ['\\', 'r']
  else if c == '\t' then ['\\', 't']
  else if n == 8 then ['\\', 'b']
  else if n == 12 then ['\\', 'f']
  else if 32 ≤ n && n < 127 then [c]
  else if n < 0x10000 then unitEscape n
  else
    let m := n - 0x10000
    unitEscape (0xd800 + m / 0x400) ++ unitEscape (0xdc00 + m % 0x400)

/-- A JSON string with its quotes. -/
def string (s : String) : String :=
  String.ofList ('"' :: s.toList.flatMap escapeChar ++ ['"'])

/-- A new line, indented to the given level. -/
def newline (level : Nat) : String :=
  "\n" ++ String.ofList (List.replicate (4 * level) ' ')

/-- Members between the given brackets, one to a line. -/
def layOut (opening closing : String) (level : Nat) (lines : List String) : String :=
  if lines.isEmpty then opening ++ closing
  else opening ++ newline (level + 1) ++ ("," ++ newline (level + 1)).intercalate lines
    ++ newline level ++ closing

mutual

/-- The document, its inner lines indented from the given level. -/
def renderAt (level : Nat) : Json → String
  | .null => "null"
  | .bool b => if b then "true" else "false"
  | .int n => toString n
  | .str s => string s
  | .arr items => layOut "[" "]" level (renderItems (level + 1) items)
  | .obj members =>
    let lines := renderMembers (level + 1) members
    layOut "\x7b" "\x7d" level ((lines.mergeSort fun p q => p.1 ≤ q.1).map (·.2))

/-- The items of an array. -/
def renderItems (level : Nat) : List Json → List String
  | [] => []
  | j :: rest => renderAt level j :: renderItems level rest

/-- The members of an object, each with its name to sort by. -/
def renderMembers (level : Nat) : List (String × Json) → List (String × String)
  | [] => []
  | (k, j) :: rest => (k, string k ++ ": " ++ renderAt level j) :: renderMembers level rest

end

/-- The whole document. -/
def render (j : Json) : String := renderAt 0 j

end Json

end CheckedAsm.Text
