import CheckedAsm.Fault
/-! # File trees

Programs are read from a small tree of text files. A path is walked part by part from the working
directory: an empty part and `.` stay, `..` goes up, a name goes down. What lies above the working
directory is known to be there, and nothing in it is known by name. -/

namespace CheckedAsm

/-- A file by the names of the directories above it and its own. -/
structure TreeFile where
  parts : List String
  text : String

/-- A tree of text files, and texts known by a whole path. Directories are there because files are in
them. In an open tree every path can be written to. -/
structure Files where
  entries : List TreeFile
  known : List (String × String) := []
  openEnded : Bool := false

/-- What a path leads to. -/
inductive Stat where
  | file (text : String)
  | directory
  | missing
  | blocked

/-- Where a walk along a path stands: in a directory of the tree, outside the tree, or at an end. -/
inductive Whereabouts where
  | inside (parts : List String)
  | outside
  | ended (stat : Stat)

namespace Files

/-- The tree of the given files. -/
def ofList (files : List (String × String)) : Files :=
  { entries := files.map fun f => ⟨f.1.splitOn "/" |>.filter (· ≠ ""), f.2⟩ }

/-- The text of a file. -/
def text? (fs : Files) (parts : List String) : Option String :=
  (fs.entries.find? fun f => f.parts == parts).map (·.text)

/-- Whether there is such a directory. -/
def hasDirectory (fs : Files) (parts : List String) : Bool :=
  parts.isEmpty || fs.entries.any fun f => parts.isPrefixOf f.parts && f.parts ≠ parts

/-- One step of a walk. Below a file there is nothing to walk to. -/
def step (fs : Files) (w : Whereabouts) (part : String) : Whereabouts :=
  match w with
  | .ended (.file _) => .ended .blocked
  | .ended s => .ended s
  | .outside => if part = "" ∨ part = "." ∨ part = ".." then .outside else .ended .missing
  | .inside parts =>
    if part = "" ∨ part = "." then .inside parts
    else if part = ".." then if parts.isEmpty then .outside else .inside parts.dropLast
    else
      let down := parts ++ [part]
      match fs.text? down with
      | some text => .ended (.file text)
      | none => if fs.hasDirectory down then .inside down else .ended .missing

/-- What a walk along a path leads to. -/
def follow (fs : Files) (path : String) : Stat :=
  if path = "" then .missing
  else
    let start := if path.startsWith "/" then Whereabouts.outside else .inside []
    match (path.splitOn "/").foldl fs.step start with
    | .ended s => s
    | _ => .directory

/-- What a path leads to. -/
def stat (fs : Files) (path : String) : Stat :=
  match fs.known.lookup path with
  | some text => .file text
  | none => fs.follow path

/-- Whether a path leads to anything. -/
def exists? (fs : Files) (path : String) : Bool :=
  match fs.stat path with
  | .file _ | .directory => true
  | .missing | .blocked => false

/-- Line ends of every convention as the one the grammar knows. -/
def unifyNewlines : List Char → List Char
  | '\r' :: '\n' :: rest => '\n' :: unifyNewlines rest
  | '\r' :: rest => '\n' :: unifyNewlines rest
  | c :: rest => c :: unifyNewlines rest
  | [] => []

/-- The text of the file that a path leads to. -/
def read (fs : Files) (path : String) : Except Fault String :=
  if path.contains '\x00' then .error .badFileName
  else
    match fs.stat path with
    | .file text => .ok (String.ofList (unifyNewlines text.toList))
    | .directory => .error .isDirectory
    | .missing => .error .noSuchFile
    | .blocked => .error .notDirectory

/-- A name taken relative to a directory. -/
def join (dir name : String) : String :=
  if name.startsWith "/" then name
  else if dir = "" ∨ dir.endsWith "/" then dir ++ name
  else dir ++ "/" ++ name

/-- The path under which an included file is found: the first directory that has it, or else the name
itself. -/
def locate (fs : Files) (path : List String) (name : String) : String :=
  match path.find? fun dir => fs.exists? (join dir name) with
  | some dir => join dir name
  | none => name

/-- Whether a file can be made or replaced at a path. -/
def canWrite (fs : Files) (path : String) : Except Fault Unit :=
  if path.contains '\x00' then .error .badFileName
  else if fs.openEnded then .ok ()
  else
    match fs.stat path with
    | .file _ => .ok ()
    | .directory => .error .isDirectory
    | .blocked => .error .notDirectory
    | .missing =>
      let parts := path.splitOn "/"
      if path = "" then .error .noSuchFile
      else if parts.getLast? = some "" then
        match fs.stat ("/".intercalate (parts.dropLast.dropLast ++ ["."])) with
        | .directory => .error .isDirectory
        | .blocked => .error .notDirectory
        | _ => .error .noSuchFile
      else
        let parent := if parts.length ≤ 1 then "." else "/".intercalate parts.dropLast ++ "/."
        match fs.stat parent with
        | .directory => if path.startsWith "/" then .error .noSuchFile else .ok ()
        | .blocked => .error .notDirectory
        | _ => .error .noSuchFile

/-- The name within the tree of a file that would be new there. -/
def newName? (fs : Files) (path : String) : Option String :=
  match fs.stat path with
  | .missing =>
    let parts := path.splitOn "/"
    match parts.dropLast.foldl fs.step (.inside []) with
    | .inside dirs => some ("/".intercalate (dirs ++ parts.getLast?.toList))
    | _ => none
  | _ => none

end Files

end CheckedAsm
