import CheckedAsm.Text.DecimalDigit
/-! # Options

The words of a command line are sorted first: which of them are switches, and which switch each one
means. A long switch may be cut short as long as only one switch starts that way. After that the words
are taken from left to right. The first run of plain words names the files; switches that nobody knows
and plain words after that run are passed over. -/

namespace CheckedAsm.Cli

open Text

/-- Switches that are on or off. -/
inductive Flag where
  | analyzeOnly
  | dumpExitContexts
  | optimizeFallthru
  | dumpFallthruInfo
  | pruneUnreachable
  | dumpCallGraph
  | parseOnly
  | debug
  | traceback
  deriving DecidableEq

/-- Switches that take a value. -/
inductive Parameter where
  | output
  | origin
  | format
  | includePath
  | runOn
  deriving DecidableEq

/-- What a switch asks for. -/
inductive Switch where
  | flag (f : Flag)
  | parameter (p : Parameter)
  | version
  | help

/-- The switches by their names. -/
def switches : List (String × Switch) :=
  [("-h", .help), ("--help", .help),
    ("--output", .parameter .output), ("-o", .parameter .output),
    ("--origin", .parameter .origin),
    ("--output-format", .parameter .format),
    ("--include-path", .parameter .includePath), ("-I", .parameter .includePath),
    ("--analyze-only", .flag .analyzeOnly),
    ("--dump-exit-contexts", .flag .dumpExitContexts),
    ("--optimize-fallthru", .flag .optimizeFallthru),
    ("--dump-fallthru-info", .flag .dumpFallthruInfo),
    ("--prune-unreachable-routines", .flag .pruneUnreachable),
    ("--dump-callgraph", .flag .dumpCallGraph),
    ("--parse-only", .flag .parseOnly),
    ("--debug", .flag .debug),
    ("--run-on", .parameter .runOn),
    ("--traceback", .flag .traceback),
    ("--version", .version)]

/-- The switch of a name. -/
def switch? (name : String) : Option Switch := switches.lookup name

/-- What a command line asks for. -/
structure Options where
  files : List String := []
  output : Option String := none
  origin : Option String := none
  format : String := "raw"
  includePath : String := "."
  runOn : Option String := none
  flags : List Flag := []

namespace Options

/-- Whether a flag is given. -/
def has (o : Options) (f : Flag) : Bool := o.flags.contains f

/-- The options with a flag given. -/
def raise (o : Options) (f : Flag) : Options := { o with flags := f :: o.flags }

/-- The options with a value given. The last one counts. -/
def assign (o : Options) (v : String) : Parameter → Options
  | .output => { o with output := some v }
  | .origin => { o with origin := some v }
  | .format => { o with format := v }
  | .includePath => { o with includePath := v }
  | .runOn => { o with runOn := some v }

/-- The options with one more file. -/
def addFile (o : Options) (file : String) : Options := { o with files := o.files ++ [file] }

end Options

/-- Why a command line leads to no run. -/
inductive Stop where
  | usage
  | version
  | help

/-- A word of a command line. A switch may bring its value with it. -/
inductive Word where
  | plain (s : String)
  | mark
  | switch (short : Bool) (s : Switch) (value : Option String)
  | unknown

/-- A text cut at its first `=`. -/
def cutValue (s : String) : String × Option String :=
  match s.toList.span (· ≠ '=') with
  | (name, _ :: value) => (String.ofList name, some (String.ofList value))
  | (_, []) => (s, none)

/-- Whether a text reads as a number below zero; a line end may follow. -/
def isNegativeNumber (s : String) : Bool :=
  match s.toList with
  | '-' :: rest =>
    let body := if rest.getLast? = some '\n' then rest.dropLast else rest
    match body.span isDecimalDigit with
    | (digits, []) => !digits.isEmpty
    | (_, '.' :: more) => !more.isEmpty && more.all isDecimalDigit
    | _ => false
  | _ => false

/-- The readings of a text as a switch that is cut short, or as a short switch with its value after
it. -/
def readings (s : String) : List Word :=
  if s.startsWith "--" then
    let (name, value) := cutValue s
    (switches.filter fun e => e.1.startsWith name).map fun e => .switch false e.2 value
  else
    let name := String.ofList (s.toList.take 2)
    (switches.filter fun e => e.1 = name).map fun e =>
      .switch true e.2 (some (String.ofList (s.toList.drop 2)))

/-- What a text is that has no other reading: numbers and texts with blanks are plain words. -/
def leftover (s : String) : Word :=
  if isNegativeNumber s || s.contains ' ' then .plain s else .unknown

/-- Sorts one word. More than one reading is an error. -/
def Word.ofText (s : String) : Except Stop Word :=
  if !s.startsWith "-" || s = "-" then .ok (.plain s)
  else
    let (name, value) := cutValue s
    let short := !s.startsWith "--"
    match switch? s, value.bind fun _ => switch? name with
    | some sw, _ => .ok (.switch short sw none)
    | none, some sw => .ok (.switch short sw value)
    | none, none =>
      match readings s with
      | [] => .ok (leftover s)
      | [w] => .ok w
      | _ => .error .usage

/-- Sorts the words of a command line. After the mark that ends all switches, all words are plain. -/
def sortWords : List String → Except Stop (List Word)
  | [] => .ok []
  | s :: rest =>
    if s = "--" then .ok (.mark :: rest.map .plain)
    else do
      let w ← Word.ofText s
      let ws ← sortWords rest
      pure (w :: ws)

/-- Whether the first run of plain words is still to come, under way or over. -/
inductive Phase where
  | before
  | during
  | after

/-- The phase after a word that is not plain. -/
def Phase.leave : Phase → Phase
  | before => before
  | during | after => after

/-- Takes a switch that wants no value. -/
def takeBare (o : Options) : Switch → Except Stop Options
  | .flag f => .ok (o.raise f)
  | .version => .error .version
  | .help => .error .help
  | .parameter _ => .error .usage

/-- Takes a switch with the text that it brought along. Short switches that want no value can be
followed by others. -/
def takeBrought (o : Options) (short : Bool) (sw : Switch) (value : String) :
    Except Stop Options :=
  match sw with
  | .parameter s => .ok (o.assign value s)
  | _ =>
    match short, value.toList with
    | true, c :: _ =>
      if (switch? (String.ofList ['-', c])).isSome then takeBare o sw else .error .usage
    | _, _ => .error .usage

/-- Takes words from left to right. -/
def takeWords (o : Options) : Phase → List Word → Except Stop Options
  | _, [] => if o.files.isEmpty then .error .usage else .ok o
  | .after, .plain _ :: rest => takeWords o .after rest
  | _, .plain s :: rest => takeWords (o.addFile s) .during rest
  | p, .mark :: rest => takeWords o p rest
  | p, .unknown :: rest => takeWords o p.leave rest
  | p, .switch _ (.parameter s) none :: .plain v :: rest =>
    takeWords (o.assign v s) p.leave rest
  | p, .switch _ sw none :: rest => do
    let o ← takeBare o sw
    takeWords o p.leave rest
  | p, .switch short sw (some v) :: rest => do
    let o ← takeBrought o short sw v
    takeWords o p.leave rest

/-- The options of a command line. -/
def Options.ofArgs (args : List String) : Except Stop Options := do
  let words ← sortWords args
  takeWords {} .before words

end CheckedAsm.Cli
