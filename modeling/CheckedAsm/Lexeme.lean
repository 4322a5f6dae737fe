import CheckedAsm.Text.DecimalDigit
import CheckedAsm.Text.WordChar
/-! # Lexemes

A program text is read as a list of lexemes. Blanks and comments between them are passed over; a
comment runs from `//` to the end of its line, and the end of the line belongs to it, so a `//` on a
last line that is not ended starts no comment. Each lexeme records the line and the position reached
when it had been read. The list always ends with the one lexeme that stands for the end of the text. -/

namespace CheckedAsm

open Text

/-- What a lexeme is. -/
inductive Token where
  | operator (mark : Char)
  | integer (digits : String)
  | quotation (text : String)
  | word (text : String)
  | stray (mark : Char)
  | finish
  deriving DecidableEq

namespace Token

/-- The text by which the grammar knows a token. The end of the text has none. -/
def text? : Token → Option String
  | operator c => some c.toString
  | integer s => some s
  | quotation s => some s
  | word s => some s
  | stray c => some c.toString
  | finish => none

/-- The name of the token's kind, as reports give it. -/
def kind : Token → String
  | operator _ => "operator"
  | integer _ => "integer literal"
  | quotation _ => "string literal"
  | word _ => "identifier"
  | stray _ => "unknown character"
  | finish => "EOF"

/-- Whether the token is an integer. -/
def isInteger : Token → Bool
  | integer _ => true
  | _ => false

/-- Whether the token is a quotation. -/
def isQuotation : Token → Bool
  | quotation _ => true
  | _ => false

/-- Whether the token is a word. -/
def isWord : Token → Bool
  | word _ => true
  | _ => false

end Token

/-- A token with the line and the position reached when it had been read. -/
structure Lexeme where
  token : Token
  line : Nat
  pos : Nat
  deriving DecidableEq

/-- A place in a text: what is still to be read, how many characters were read, and the line. -/
structure Place where
  rest : List Char
  pos : Nat
  line : Nat

/-- Blanks between lexemes. -/
def isGap (c : Char) : Bool := c == ' ' || c == '\t' || c == '\n' || c == '\r'

/-- The two characters that end a comment. -/
def isLineEnd (c : Char) : Bool := c == '\n' || c == '\r'

/-- The marks that are tokens by themselves. -/
def isOperator (c : Char) : Bool :=
  [',', '@', '+', ':', '<', '>', '\x7b', '\x7d', '[', ']', '^'].contains c

/-- The comment at the head of a text, and what follows it. -/
def comment? : List Char → Option (List Char × List Char)
  | '/' :: '/' :: body =>
    match body.dropWhile fun c => !isLineEnd c with
    | [] => none
    | e :: rest => some ('/' :: '/' :: (body.takeWhile fun c => !isLineEnd c) ++ [e], rest)
  | _ => none

/-- The number that a run of hexadecimal digits stands for. -/
def hexNumber (digits : List Char) : Nat :=
  digits.foldl (fun acc c => acc * 16 + (hexValue? c).getD 0) 0

/-- The token at the head of a text that starts with `c`: the token, the characters it takes, and
what follows them. -/
def readToken (c : Char) (rest : List Char) : Token × List Char × List Char :=
  if isOperator c then (.operator c, [c], rest)
  else if isDecimalDigit c then
    let run := rest.takeWhile isDecimalDigit
    (.integer (String.ofList (c :: run)), c :: run, rest.dropWhile isDecimalDigit)
  else if c == '$' then
    let run := rest.takeWhile isHexDigit
    if run.isEmpty then (.stray c, [c], rest)
    else (.integer (toString (hexNumber run)), c :: run, rest.dropWhile isHexDigit)
  else if c == '"' then
    match rest.dropWhile fun d => d != '"' with
    | [] => (.stray c, [c], rest)
    | e :: tail =>
      let run := rest.takeWhile fun d => d != '"'
      (.quotation (String.ofList run), c :: run ++ [e], tail)
  else if isWordChar c then
    let run := rest.takeWhile isWordChar
    (.word (String.ofList (c :: run)), c :: run, rest.dropWhile isWordChar)
  else (.stray c, [c], rest)

theorem length_dropWhile_le (p : Char → Bool) (s : List Char) :
    (s.dropWhile p).length ≤ s.length :=
  (List.dropWhile_suffix p).length_le

theorem comment?_shorter {s taken rest : List Char} (h : comment? s = some (taken, rest)) :
    rest.length < s.length := by
  unfold comment? at h
  split at h
  · next body =>
    split at h
    · simp at h
    · next e tail he =>
      have hle : (e :: tail).length ≤ body.length := he ▸ length_dropWhile_le _ body
      simp only [Option.some.injEq, Prod.mk.injEq] at h
      obtain ⟨-, rfl⟩ := h
      simp only [List.length_cons] at hle ⊢
      omega
  · simp at h

theorem readToken_shorter (c : Char) (rest : List Char) :
    (readToken c rest).2.2.length ≤ rest.length := by
  have drop := fun p : Char → Bool => length_dropWhile_le p rest
  unfold readToken
  split
  · simp
  split
  · exact drop _
  split
  · dsimp only
    split
    · simp
    · exact drop _
  split
  · split
    · simp
    · next e tail he =>
      have := drop fun d => d != '"'
      rw [he] at this
      simp only [List.length_cons] at this ⊢
      omega
  split
  · exact drop _
  · simp

namespace Place

/-- The beginning of a text. -/
def start (text : String) : Place := ⟨text.toList, 0, 1⟩

/-- The place after some characters, when `rest` follows them. -/
def pass (p : Place) (taken rest : List Char) : Place :=
  ⟨rest, p.pos + taken.length, p.line + taken.count '\n'⟩

/-- Passes over blanks. -/
def skipBlanks (p : Place) : Place :=
  p.pass (p.rest.takeWhile isGap) (p.rest.dropWhile isGap)

theorem length_skipBlanks (p : Place) : p.skipBlanks.rest.length ≤ p.rest.length :=
  length_dropWhile_le _ _

/-- Passes over blanks and comments. -/
def skipGaps (p : Place) : Place :=
  match _h : comment? p.skipBlanks.rest with
  | some (taken, rest) => (p.skipBlanks.pass taken rest).skipGaps
  | none => p.skipBlanks
termination_by p.rest.length
decreasing_by exact Nat.lt_of_lt_of_le (comment?_shorter _h) p.length_skipBlanks

theorem length_skipGaps (p : Place) : p.skipGaps.rest.length ≤ p.rest.length := by
  fun_induction skipGaps p with
  | case1 p taken rest h ih =>
    exact Nat.le_trans ih (Nat.le_of_lt
      (Nat.lt_of_lt_of_le (comment?_shorter h) p.length_skipBlanks))
  | case2 p h => exact p.length_skipBlanks

/-- The next token and the place after it. -/
def scan (p : Place) : Token × Place :=
  let q := p.skipGaps
  match q.rest with
  | [] => (.finish, q)
  | c :: rest =>
    let (token, taken, after) := readToken c rest
    (token, q.pass taken after)

theorem readToken_ne_finish (c : Char) (rest : List Char) : (readToken c rest).1 ≠ .finish := by
  unfold readToken
  repeat' split
  all_goals first | (dsimp only; split) | skip
  all_goals simp

theorem scan_shorter (p : Place) (h : p.scan.1 ≠ .finish) :
    p.scan.2.rest.length < p.rest.length := by
  have hq := p.length_skipGaps
  unfold scan at h ⊢
  dsimp only at h ⊢
  split
  · next hr => simp [hr] at h
  · next c rest hr =>
    rw [hr, List.length_cons] at hq
    exact Nat.lt_of_le_of_lt (readToken_shorter c rest) hq

/-- All lexemes from a place on. -/
def lexemes (p : Place) : List Lexeme :=
  let lexeme : Lexeme := ⟨p.scan.1, p.scan.2.line, p.scan.2.pos⟩
  if p.scan.1 = .finish then [lexeme] else lexeme :: p.scan.2.lexemes
termination_by p.rest.length
decreasing_by exact p.scan_shorter (by assumption)

end Place

/-- The lexemes of a text. -/
def lexemes (text : String) : List Lexeme := (Place.start text).lexemes

end CheckedAsm
