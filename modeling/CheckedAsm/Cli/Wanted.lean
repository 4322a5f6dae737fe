import CheckedAsm.Cli.Run
/-! # Wanted files

Which paths a run may read, as far as the texts already at hand tell. Reading what is wanted until
nothing new is wanted gathers all that the run needs. -/

namespace CheckedAsm.Cli

/-- The tokens that follow an `include`. -/
def namesIncluded : List Lexeme → List String
  | l :: m :: rest =>
    if l.token.text? = some "include" then m.token.text?.toList ++ namesIncluded (m :: rest)
    else namesIncluded (m :: rest)
  | _ => []

/-- The paths that a run may read, given some texts. -/
def wanted (args texts : List String) : List String :=
  match Options.ofArgs args with
  | .error _ => []
  | .ok o =>
    let names := texts.flatMap fun t => namesIncluded (lexemes t)
    o.files ++ names.flatMap fun n => (o.includePath.splitOn ":").map (Files.join · n) ++ [n]

end CheckedAsm.Cli
