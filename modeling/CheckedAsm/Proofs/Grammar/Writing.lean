import CheckedAsm.Proofs.Grammar.Resolution
import Mathlib.Data.List.Forall2
/-! # Reading what was written

A block is written as a list of tokens by the rules of the grammar. Where such a list comes next, the block is read back, and
nothing after it is touched. At most one token is looked at ahead: what follows a cell must not go on with `+`, a list not with a comma,
and an `if` not with `else`. -/

namespace CheckedAsm

open List Grammar Text

/-! ### Trees as tokens

The trees here have no line numbers, and no places where names were left pending. -/

/-- Stands for itself wherever a constant or a location can be. -/
def IsName (n : String) : Prop := (∀ c ∈ n.toList, isWordChar c = true) ∧ n ∉ ["on", "off", "word"]

/-- The ways to write a constant. -/
inductive Const.Written (s : Symbols) : Const → List Token → Prop
  | on : Written s ⟨.bit, 1⟩ [.word "on"]
  | off : Written s ⟨.bit, 0⟩ [.word "off"]
  | number {t n} : decimal? t = some n → Written s (.ofInt n) [.integer t]
  | word {t n} : decimal? t = some n → Written s ⟨.word, n⟩ [.word "word", .integer t]
  | named {n c} : IsName n → s.consts.get? n = some c → Written s c [.word n]

/-- The ways to write a constant or a location. -/
inductive Ref.Plain (sc : Scope) : Ref → List Token → Prop
  | constant {c ts} : c.Written sc.symbols ts → Plain sc (.constant c) ts
  | named {n} : IsName n → sc.symbols.consts.has n = false → Plain sc (sc.lookup n ⟨"", 0, false⟩) [.word n]

/-- Whether the token starts an offset. -/
def Grammar.Scope.opensOffset (sc : Scope) (t : Token) : Bool := sc.isConst t.text? || t.isInteger

/-- The ways to write a constant, a location or a cell of a table. -/
inductive Ref.Cell (sc : Scope) : Ref → List Token → Prop
  | plain {r ts} : r.Plain sc ts → Cell sc r ts
  | direct {b i ts us} : b.Plain sc ts → i.Plain sc us → (∀ t ∈ us.head?, sc.opensOffset t = false) →
      Cell sc (.indexed b (.constant ⟨.byte, 0⟩) i) (ts ++ .operator '+' :: us)
  | offset {b c i ts t us} : b.Plain sc ts → c.Written sc.symbols [t] → sc.opensOffset t = true → i.Plain sc us →
      Cell sc (.indexed b (.constant c) i) (ts ++ .operator '+' :: t :: .operator '+' :: us)

/-- The ways to write any operand. -/
inductive Ref.Written (sc : Scope) : Ref → List Token → Prop
  | cell {r ts} : r.Cell sc ts → Written sc r ts
  | behind {b ts} : b.Plain sc ts → Written sc (.indirect b) (.operator '[' :: (ts ++ [.operator ']', .operator '+', .word "y"]))

/-- Which operands an operation takes in some place. -/
inductive Form where
  | plain
  | cell
  | any

/-- The ways to write an operand of the form. -/
def Form.Written (sc : Scope) : Form → Ref → List Token → Prop
  | .plain => Ref.Plain sc
  | .cell => Ref.Cell sc
  | .any => Ref.Written sc

/-- The operands in the order they are written in. -/
def Op.operands : Op → List (Form × Ref)
  | .ld r q | .st r q => [(.plain, r), (.any, q)]
  | .add r q | .sub r q | .cmp r q | .and r q | .or r q | .xor r q => [(.plain, r), (.cell, q)]
  | .shl r | .shr r | .inc r | .dec r => [(.cell, r)]
  | .nop => []
  | .copy r q => [(.any, r), (.any, q)]
  | .trash r => [(.plain, r)]

/-- The ways to write the operands of an operation. -/
inductive Ref.Listed (sc : Scope) : List (Form × Ref) → List Token → Prop
  | none : Listed sc [] []
  | one {f r ts} : f.Written sc r ts → Listed sc [(f, r)] ts
  | two {f g r q ts us} : f.Written sc r ts → g.Written sc q us → Listed sc [(f, r), (g, q)] (ts ++ .operator ',' :: us)

/-- The ways to write a condition, inverted or not. -/
inductive Ref.Tested (sc : Scope) (r : Ref) : Bool → List Token → Prop
  | plain {ts} : r.Plain sc ts → (∀ t ∈ ts.head?, t.text? ≠ some "not") → Tested sc r false ts
  | inverted {ts} : r.Plain sc ts → Tested sc r true (.word "not" :: ts)

/-- Between braces. -/
def braced (ts : List Token) : List Token := .operator '\x7b' :: ts ++ [.operator '\x7d']

/-- The word for a direction. -/
def Direction.word : Direction → String
  | .up => "up"
  | .down => "down"

mutual

/-- The ways to write an instruction. -/
inductive Instr.Written (sc : Scope) : Instr → List Token → Prop
  | op {op : Op} {ts} : Ref.Listed sc op.operands ts → Instr.Written sc (.op 0 op) (.word op.opcode :: ts)
  | reset {r c ts us} : r.Plain sc ts → c.Written sc.symbols us → Instr.Written sc (.reset 0 r c) (.word "reset" :: (ts ++ us))
  | call {t} : Instr.Written sc (.call 0 t) [.word "call", .word t]
  | goto {t} : Instr.Written sc (.goto 0 t) [.word "goto", .word t]
  | ifThen {r v b ts us} : r.Tested sc v ts → Block.Written sc b us → Instr.Written sc (.ifThen 0 r v b) (.word "if" :: (ts ++ braced us))
  | ifElse {r v b d ts us vs} : r.Tested sc v ts → Block.Written sc b us → Block.Written sc d vs →
      Instr.Written sc (.ifElse 0 r v b d) (.word "if" :: (ts ++ (braced us ++ .word "else" :: braced vs)))
  | untilTest {r v b ts us} : r.Tested sc v ts → Block.Written sc b us →
      Instr.Written sc (.loop 0 (some r) v b) (.word "repeat" :: (braced us ++ .word "until" :: ts))
  | forever {b us} : Block.Written sc b us → Instr.Written sc (.loop 0 none false b) (.word "repeat" :: (braced us ++ [.word "forever"]))
  | count {r d c b ts us vs} : r.Plain sc ts → c.Written sc.symbols us → Block.Written sc b vs →
      Instr.Written sc (.count 0 r d c b) (.word "for" :: (ts ++ .word d.word :: .word "to" :: (us ++ braced vs)))
  | interruptsOff {b us} : Block.Written sc b us →
      Instr.Written sc (.interruptsOff 0 b) (.word "with" :: .word "interrupts" :: .word "off" :: braced us)
  | save {r rs b ts tss us} : r.Plain sc ts → Forall₂ (Ref.Plain sc) rs tss → Block.Written sc b us →
      Instr.Written sc (.save 0 (r :: rs) b) (.word "save" :: (ts ++ tss.flatMap (.operator ',' :: ·) ++ braced us))
  | pointInto {p r b ts us vs} : p.Plain sc ts → r.Plain sc us → Block.Written sc b vs →
      Instr.Written sc (.pointInto 0 p r b) (.word "point" :: (ts ++ .word "into" :: (us ++ braced vs)))

/-- The ways to write the instructions of a block. A jump to another routine is the last one. -/
inductive Block.Written (sc : Scope) : Block → List Token → Prop
  | nil : Block.Written sc (.nil 0) []
  | cons {i b ts us} : Instr.Written sc i ts → Block.Written sc b us → (i.isGoto = true → b = .nil 0) → Block.Written sc (.cons i b) (ts ++ us)

end

/-- The reference without the place where it was left pending. -/
def Ref.bare : Ref → Ref
  | .pending n _ => .pending n ⟨"", 0, false⟩
  | .indexed b o i => .indexed b.bare o i.bare
  | .indirect b => .indirect b.bare
  | r => r

mutual

/-- The instruction without line numbers and places. -/
def Instr.bare : Instr → Instr
  | .op _ op => .op 0 (op.mapRefs Ref.bare)
  | .reset _ r c => .reset 0 r.bare c
  | .call _ t => .call 0 t
  | .goto _ t => .goto 0 t
  | .ifThen _ r v b => .ifThen 0 r.bare v b.bare
  | .ifElse _ r v b d => .ifElse 0 r.bare v b.bare d.bare
  | .loop _ r v b => .loop 0 (r.map Ref.bare) v b.bare
  | .count _ r d c b => .count 0 r.bare d c b.bare
  | .interruptsOff _ b => .interruptsOff 0 b.bare
  | .save _ rs b => .save 0 (rs.map Ref.bare) b.bare
  | .pointInto _ p r b => .pointInto 0 p.bare r.bare b.bare

/-- The block without line numbers and places. -/
def Block.bare : Block → Block
  | .nil _ => .nil 0
  | .cons i b => .cons i.bare b.bare

end

/-! ### Parsers and the tokens they take -/

/-- The cursor comes to the other one over these tokens. -/
def Cursor.Reads : List Token → Cursor → Cursor → Prop
  | [], c, c' => c = c'
  | t :: ts, c, c' => c.here.token = t ∧ c.ahead ≠ [] ∧ c.advance.Reads ts c'

namespace Cursor

variable {ts us : List Token} {c c' : Cursor}

theorem reads_append : c.Reads (ts ++ us) c' ↔ ∃ m, c.Reads ts m ∧ m.Reads us c' := by
  induction ts generalizing c with
  | nil => simp [Reads]
  | cons t ts ih => simp [Reads, ih, and_assoc]

theorem Reads.head {t : Token} (h : c.Reads ts c') (ht : t ∈ (ts ++ [c'.here.token]).head?) : c.here.token = t := by
  cases ts with
  | nil => exact h ▸ Option.some.inj ht
  | cons => exact h.1.trans (Option.some.inj ht)

theorem Reads.remaining (h : c.Reads ts c') : c.remaining = ts.length + c'.remaining := by
  induction ts generalizing c with
  | nil => simp [show c = c' from h]
  | cons t ts ih =>
    obtain ⟨-, hne, h⟩ := h
    obtain ⟨l, rest, hl⟩ := exists_cons_of_ne_nil hne
    have hrest : c.advance.remaining = rest.length + 1 := by rw [advance, hl]; rfl
    rw [ih h] at hrest
    simp only [Cursor.remaining, hl, length_cons] at hrest ⊢
    omega

end Cursor

namespace Parse

variable {α β : Type} {p : Parse α} {ts us : List Token} {t : Token} {w : String} {P : α → Prop} {R : β → Prop} {next next' : Token → Prop}

/-- The parser takes these tokens and no more where the next one is as said, and gives something with the property. -/
def Accepts (p : Parse α) (ts : List Token) (P : α → Prop) (next : Token → Prop := fun _ => True) : Prop :=
  ∀ ⦃c c' : Cursor⦄, c.Reads ts c' → next c'.here.token → ∃ a, p c = .ok (a, c') ∧ P a

namespace Accepts

theorem pure {a : α} (h : P a) : Accepts (Pure.pure a) [] P next := fun _ _ hc _ => ⟨a, hc ▸ rfl, h⟩

theorem mono {Q : α → Prop} (h : p.Accepts ts P next') (hnext : ∀ t, next t → next' t) (hPQ : ∀ a, P a → Q a) : p.Accepts ts Q next := by
  intro c c' hc ht
  obtain ⟨a, hp, ha⟩ := h hc (hnext _ ht)
  exact ⟨a, hp, hPQ a ha⟩

/-- A parser that looks one token ahead. -/
theorem bindNext {f : α → Parse β} (hp : p.Accepts ts P next') (hnext : ∀ t, next t → ∀ u ∈ (us ++ [t]).head?, next' u)
    (hf : ∀ a, P a → (f a).Accepts us R next) : (p >>= f).Accepts (ts ++ us) R next := by
  intro c c' hc ht
  obtain ⟨m, hm, hc'⟩ := Cursor.reads_append.1 hc
  have hhead : next' m.here.token := by
    cases us with
    | nil => exact hnext _ ht _ (congrArg some (congrArg (·.here.token) (show m = c' from hc').symm))
    | cons u us => exact hnext _ ht _ (congrArg some hc'.1.symm)
  obtain ⟨a, hpa, ha⟩ := hp hm hhead
  obtain ⟨b, hfb, hb⟩ := hf a ha hc' ht
  refine ⟨b, ?_, hb⟩
  show p c >>= (fun r => f r.1 r.2) = _
  rw [hpa]
  exact hfb

theorem look {f : α → Parse β} (hp : p.Accepts [] P next') (hnext : ∀ t, next t → ∀ u ∈ (us ++ [t]).head?, next' u)
    (hf : ∀ a, P a → (f a).Accepts us R next) : (p >>= f).Accepts us R next :=
  nil_append us ▸ hp.bindNext hnext hf

theorem bind {f : α → Parse β} (hp : p.Accepts ts P) (hf : ∀ a, P a → (f a).Accepts us R next) : (p >>= f).Accepts (ts ++ us) R next :=
  hp.bindNext (fun _ _ _ _ => trivial) hf

theorem cons {f : α → Parse β} (hp : p.Accepts [t] P) (hf : ∀ a, P a → (f a).Accepts us R next) : (p >>= f).Accepts (t :: us) R next :=
  hp.bind hf

/-- Nothing more is taken. -/
theorem lastNext {f : α → Parse β} (hp : p.Accepts ts P next') (hnext : ∀ t, next t → next' t)
    (hf : ∀ a, P a → (f a).Accepts [] R next) : (p >>= f).Accepts ts R next :=
  append_nil ts ▸ hp.bindNext (fun t ht _ h => Option.some.inj h ▸ hnext t ht) hf

theorem last {f : α → Parse β} (hp : p.Accepts ts P) (hf : ∀ a, P a → (f a).Accepts [] R next) : (p >>= f).Accepts ts R next :=
  hp.lastNext (fun _ _ => trivial) hf

/-- What is asked for is known of the cursor. -/
theorem ask {f : Cursor → β} {g : β → Parse α} (h : ∀ c : Cursor, c.here.token = t → (g (f c)).Accepts (t :: ts) P next) :
    (Parse.ask f >>= g).Accepts (t :: ts) P next :=
  fun c _ hc ht => h c hc.1 hc ht

/-- A parser that is told how many lexemes are left. -/
theorem remaining {f : Nat → Parse α} (h : ∀ k, ts.length < k → (f k).Accepts ts P next) : Accepts (fun c => f c.remaining c) ts P next :=
  fun c _ hc ht => h _ (by rw [hc.remaining]; exact Nat.lt_add_of_pos_right (Nat.succ_pos _)) hc ht

end Accepts

theorem ask_accepts {f : Cursor → α} : (ask f).Accepts [] (fun _ => True) := fun c _ hc _ => ⟨f c, hc ▸ rfl, trivial⟩

theorem advance_accepts : advance.Accepts [t] fun _ => True := fun _ _ hc _ => ⟨(), by rw [← hc.2.2]; rfl, trivial⟩

theorem take_accepts : take.Accepts [t] (· = t.text?) := fun _ _ hc _ => ⟨_, by rw [← hc.2.2]; rfl, congrArg Token.text? hc.1⟩

theorem consume_accepts (h : t.text? = some w) : (consume w).Accepts [t] (· = true) := by
  rintro c c' ⟨rfl, -, rfl⟩ -
  exact ⟨true, by simp [consume, Cursor.consume, Cursor.on, Cursor.text?, h], rfl⟩

theorem consume_passes : (consume w).Accepts [] (· = false) (·.text? ≠ some w) := by
  rintro c c' rfl ht
  exact ⟨false, by simp [consume, Cursor.consume, Cursor.on, Cursor.text?, ht], rfl⟩

theorem Accepts.given {p q : Parse α} (ht : t.text? = some w) (h : p.Accepts ts P next) :
    Accepts (consume w >>= fun b => if b = true then p else q) (t :: ts) P next :=
  (consume_accepts ht).cons fun _ hb => by rwa [hb]

theorem Accepts.absent {p q : Parse α} (ht : ∀ t, next t → ∀ u ∈ (ts ++ [t]).head?, u.text? ≠ some w) (h : q.Accepts ts P next) :
    Accepts (consume w >>= fun b => if b = true then p else q) ts P next :=
  consume_passes.look ht fun _ hb => by rwa [hb]

theorem expect_accepts (h : t.text? = some w) : (expect w).Accepts [t] fun _ => True := by
  rintro c c' ⟨rfl, -, rfl⟩ -
  exact ⟨(), by simp [expect, Cursor.expect, Cursor.on, Cursor.text?, h, Except.map], trivial⟩

end Parse

/-! ### Operands -/

open Parse

theorem IsName.ne {n w : String} (h : IsName n) (hw : w ∈ ["on", "off", "word"]) : some n ≠ some w :=
  fun heq => h.2 (Option.some.inj heq ▸ hw)

theorem IsName.ne_bracket {n : String} (h : IsName n) : some n ≠ some "[" := by
  rintro ⟨⟩
  cases h.1 '[' (by decide)

theorem number_pure {t : String} {n : Int} (h : decimal? t = some n) : Parse.number (some t) = pure n := by
  simp only [Parse.number, h]

theorem Const.Written.accepts {s : Symbols} {k : Const} {ts : List Token} (h : k.Written s ts) : (const s).Accepts ts (· = k) := by
  cases h <;> refine .ask fun c hc => ?_ <;> rw [Cursor.text?, hc, Token.text?]
  case on | off => exact advance_accepts.last fun _ _ => .pure rfl
  case number hn =>
    rw [if_neg, if_neg]
    · refine .ask fun c hc => ?_
      rw [hc, number_pure hn, pure_bind]
      exact advance_accepts.last fun _ _ => .pure rfl
    all_goals rintro ⟨⟩; cases hn
  case word hn =>
    refine .ask fun c hc => ?_
    rw [hc]
    refine .given rfl (.ask fun c hc => ?_)
    rw [Cursor.text?, hc, Token.text?, number_pure hn, pure_bind]
    exact advance_accepts.last fun _ _ => .pure rfl
  case named n hn hk =>
    rw [if_neg (hn.ne (by decide)), if_neg (hn.ne (by decide))]
    refine .ask fun c hc => ?_
    rw [hc]
    refine .absent (fun _ _ _ h => Option.some.inj h ▸ hn.ne (by decide)) ?_
    simp only [Option.bind, hk]
    exact advance_accepts.last fun _ _ => .pure rfl

variable {sc : Scope} {r : Ref} {ts us : List Token}

theorem Const.Written.opens {k : Const} (h : k.Written sc.symbols ts) : ∃ t us, ts = t :: us ∧ t.text? ≠ some "["
    ∧ (t.text? = some "on" ∨ t.text? = some "off" ∨ t.text? = some "word" ∨ sc.isConst t.text? = true ∨ t.isInteger = true) := by
  cases h with
  | on => exact ⟨_, _, rfl, by decide, .inl rfl⟩
  | off => exact ⟨_, _, rfl, by decide, .inr (.inl rfl)⟩
  | word => exact ⟨_, _, rfl, by decide, .inr (.inr (.inl rfl))⟩
  | number hn => exact ⟨_, _, rfl, (by rintro ⟨⟩; cases hn), by simp [Token.isInteger]⟩
  | named hn hk => exact ⟨_, _, rfl, hn.ne_bracket, by simp [Token.text?, Scope.isConst, Assoc.has, hk]⟩

theorem Ref.Plain.opens (h : r.Plain sc ts) : ∃ t us, ts = t :: us ∧ t.text? ≠ some "[" := by
  cases h with
  | constant hk =>
    obtain ⟨t, us, hts, ht, -⟩ := hk.opens
    exact ⟨t, us, hts, ht⟩
  | named hn => exact ⟨_, _, rfl, hn.ne_bracket⟩

theorem Ref.Plain.accepts (h : r.Plain sc ts) : (operand sc).Accepts ts (·.bare = r) := by
  cases h with
  | constant hk =>
    obtain ⟨t, us, rfl, -, ht⟩ := hk.opens
    refine .ask fun c hc => .ask fun c' hc' => ?_
    rw [Cursor.text?, hc, hc', if_pos ht]
    exact hk.accepts.last fun _ hk => .pure (hk ▸ rfl)
  | @named n hn hk =>
    refine .ask fun c hc => .ask fun c' hc' => ?_
    rw [Cursor.text?, hc, hc', if_neg]
    · refine .ask fun c hc => advance_accepts.last fun _ _ => .pure ?_
      unfold Scope.lookup
      split_ifs <;> rfl
    · simp [Token.text?, Scope.isConst, hk, Token.isInteger, hn.ne]

theorem Ref.Cell.accepts (h : r.Cell sc ts) : (indexedOperand sc).Accepts ts (·.bare = r) (·.text? ≠ some "+") := by
  cases h with
  | plain h => exact h.accepts.last fun b hb => .absent (fun _ ht _ h => Option.some.inj h ▸ ht) (.pure hb)
  | direct hb hi hhead =>
    refine hb.accepts.bind fun b hb => .given rfl ?_
    obtain ⟨t, us, rfl, -⟩ := hi.opens
    refine .ask fun c hc => .ask fun c' hc' => ?_
    have ht := hhead t rfl
    rw [Cursor.text?, hc, hc', if_neg (by simpa [Scope.opensOffset] using ht)]
    exact hi.accepts.last fun i hi => .pure (by rw [Ref.bare, hb, hi])
  | offset hb hk ht hi =>
    refine hb.accepts.bind fun b hb => .given rfl (.ask fun c hc => .ask fun c' hc' => ?_)
    rw [Cursor.text?, hc, hc', if_pos (by simpa [Scope.opensOffset] using ht)]
    refine hk.accepts.bind fun k hk => (expect_accepts rfl).cons fun _ _ => ?_
    exact hi.accepts.last fun i hi => .pure (by rw [Ref.bare, hb, hi, hk])

theorem Ref.Cell.opens (h : r.Cell sc ts) : ∃ t us, ts = t :: us ∧ t.text? ≠ some "[" := by
  cases h with
  | plain h => exact h.opens
  | direct h | offset h =>
    obtain ⟨t, us, rfl, ht⟩ := h.opens
    exact ⟨t, _, rfl, ht⟩

theorem Ref.Written.accepts (h : r.Written sc ts) : (anyOperand sc).Accepts ts (·.bare = r) (·.text? ≠ some "+") := by
  cases h with
  | cell h =>
    refine .absent ?_ h.accepts
    obtain ⟨t, us, rfl, ht⟩ := h.opens
    exact fun _ _ _ h => Option.some.inj h ▸ ht
  | behind h =>
    refine .given rfl (h.accepts.bind fun b hb => (expect_accepts rfl).cons fun _ _ => ?_)
    exact (expect_accepts rfl).cons fun _ _ => (expect_accepts rfl).last fun _ _ => .pure (congrArg _ hb)

/-- The parser for a form. -/
def Form.parse (sc : Scope) : Form → Parse Ref
  | .plain => operand sc
  | .cell => indexedOperand sc
  | .any => anyOperand sc

theorem Form.Written.accepts {f : Form} (h : f.Written sc r ts) : (f.parse sc).Accepts ts (·.bare = r) (·.text? ≠ some "+") := by
  cases f with
  | plain => exact (Ref.Plain.accepts h).mono (fun _ _ => trivial) fun _ => id
  | cell => exact Ref.Cell.accepts h
  | any => exact Ref.Written.accepts h

/-! ### Instructions and blocks -/

/-- What can stand after an instruction. -/
def Token.Ends (t : Token) : Prop := t.text? ≠ some "+" ∧ t.text? ≠ some "else"

theorem atLine_accepts {make : Nat → Instr} {P : Instr → Prop} {next : Token → Prop} (h : ∀ l, P (make l)) :
    (atLine make).Accepts [] P next :=
  fun c _ hc _ => ⟨make c.here.line, hc ▸ rfl, h _⟩

variable {block : Parse Block}

theorem instr_accepts {w : String} {p : Parse Instr} {P : Instr → Prop} {next : Token → Prop}
    (hp : ((singleOp sc w).orElse fun _ => structured sc block w) = some (advance >>= fun _ => p)) (h : p.Accepts ts P next) :
    (instr sc block).Accepts (.word w :: ts) P next := by
  refine .ask fun c hc => ?_
  rw [Cursor.text?, hc]
  simp only [Token.text?, Option.bind_some, hp]
  exact advance_accepts.cons fun _ _ => h

theorem operands_accepts {f g : Form} {q : Ref} (hr : f.Written sc r ts) (hq : g.Written sc q us) :
    (operands (f.parse sc) (g.parse sc)).Accepts (ts ++ .operator ',' :: us) (fun x => x.1.bare = r ∧ x.2.bare = q) (·.text? ≠ some "+") := by
  refine hr.accepts.bindNext (fun _ _ _ h => Option.some.inj h ▸ by decide) fun x hx => ?_
  exact (expect_accepts rfl).cons fun _ _ => hq.accepts.lastNext (fun _ => id) fun y hy => .pure ⟨hx, hy⟩

theorem Ref.Listed.accepts {op : Op} (h : Ref.Listed sc op.operands ts) :
    (instr sc block).Accepts (.word op.opcode :: ts) (·.bare = .op 0 op) Token.Ends := by
  generalize hop : op.operands = l at h
  cases h with
  | none =>
    cases op <;> cases hop
    exact instr_accepts rfl (atLine_accepts fun _ => rfl)
  | one h =>
    cases op <;> cases hop
    all_goals exact instr_accepts rfl (h.accepts.lastNext (fun _ h => h.1) fun _ hr => atLine_accepts fun _ => hr ▸ rfl)
  | two hr hq =>
    cases op <;> cases hop
    all_goals
      refine instr_accepts rfl ((operands_accepts hr hq).lastNext (fun _ h => h.1) fun _ hx => ?_)
      exact atLine_accepts fun _ => hx.1 ▸ hx.2 ▸ rfl

theorem Ref.Tested.accepts {v : Bool} (h : r.Tested sc v ts) : (condition sc).Accepts ts fun x => x.1 = v ∧ x.2.bare = r := by
  cases h with
  | plain h hne =>
    refine consume_passes.look ?_ fun _ hv => h.accepts.last fun _ hr => .pure ⟨hv, hr⟩
    obtain ⟨t, us, rfl, -⟩ := h.opens
    exact fun _ _ => hne
  | inverted h => exact (consume_accepts rfl).cons fun _ hv => h.accepts.last fun _ hr => .pure ⟨hv, hr⟩

theorem direction_accepts (d : Direction) : direction.Accepts [.word d.word] (· = d) := by
  cases d with
  | down => exact .given rfl (.pure rfl)
  | up => exact .absent (fun _ _ _ h => Option.some.inj h ▸ by decide) (.given rfl (.pure rfl))

theorem afterCommas_accepts {rs : List Ref} {tss : List (List Token)} (h : Forall₂ (Ref.Plain sc) rs tss) :
    ∀ k, (tss.flatMap (.operator ',' :: ·)).length < k →
      (afterCommas (operand sc) k).Accepts (tss.flatMap (.operator ',' :: ·)) (·.map Ref.bare = rs) (·.text? ≠ some ",") := by
  induction h with
  | nil => exact fun
    | 0, hk => absurd hk (Nat.not_lt_zero _)
    | k + 1, _ => .absent (fun _ ht _ h => Option.some.inj h ▸ ht) (.pure rfl)
  | cons hr _ ih => exact fun
    | 0, hk => absurd hk (Nat.not_lt_zero _)
    | k + 1, hk => by
      simp only [flatMap_cons, length_append, length_cons] at hk
      refine .given rfl (hr.accepts.bind fun _ hr => (ih k (by omega)).lastNext (fun _ => id) fun _ hrs => .pure ?_)
      exact hr ▸ hrs ▸ rfl

theorem commaList_accepts {rs : List Ref} {tss : List (List Token)} (hr : r.Plain sc ts) (hrs : Forall₂ (Ref.Plain sc) rs tss) :
    (commaList (operand sc)).Accepts (ts ++ tss.flatMap (.operator ',' :: ·)) (·.map Ref.bare = r :: rs) (·.text? ≠ some ",") :=
  hr.accepts.bind fun _ hr => (Accepts.remaining (afterCommas_accepts hrs)).lastNext (fun _ => id) fun _ hrs => .pure (hr ▸ hrs ▸ rfl)

theorem Instr.Written.accepts {i : Instr} {n : Nat} (h : i.Written sc ts) (hn : ts.length ≤ n)
    (hblock : ∀ b us, Block.Written sc b us → us.length < n → block.Accepts (braced us) (·.bare = b)) :
    (instr sc block).Accepts ts (·.bare = i) Token.Ends := by
  cases h <;> simp only [braced, length_cons, length_append] at hn
  case op h => exact h.accepts
  case reset hr hk =>
    exact instr_accepts rfl (hr.accepts.bind fun _ hr => hk.accepts.last fun _ hk => atLine_accepts fun _ => hr ▸ hk ▸ rfl)
  case call | goto => exact instr_accepts rfl (take_accepts.last fun _ ht => atLine_accepts fun _ => ht ▸ rfl)
  case ifThen hr hb =>
    refine instr_accepts rfl (hr.accepts.bind fun _ hr => (hblock _ _ hb (by omega)).last fun _ hb => .absent ?_ ?_)
    · exact fun _ ht _ h => Option.some.inj h ▸ ht.2
    · exact atLine_accepts fun _ => hr.1 ▸ hr.2 ▸ hb ▸ rfl
  case ifElse hr hb hd =>
    refine instr_accepts rfl (hr.accepts.bind fun _ hr => (hblock _ _ hb (by omega)).bind fun _ hb => .given rfl ?_)
    exact (hblock _ _ hd (by omega)).last fun _ hd => atLine_accepts fun _ => hr.1 ▸ hr.2 ▸ hb ▸ hd ▸ rfl
  case untilTest hr hb =>
    refine instr_accepts rfl ((hblock _ _ hb (by omega)).bind fun _ hb => .given rfl (hr.accepts.last fun _ hr => ?_))
    exact atLine_accepts fun _ => hr.1 ▸ hr.2 ▸ hb ▸ rfl
  case forever hb =>
    refine instr_accepts rfl ((hblock _ _ hb (by omega)).bind fun _ hb => .absent ?_ ?_)
    · exact fun _ _ _ h => Option.some.inj h ▸ by decide
    · exact (expect_accepts rfl).last fun _ _ => atLine_accepts fun _ => hb ▸ rfl
  case count d hr hk hb =>
    refine instr_accepts rfl (hr.accepts.bind fun _ hr => (direction_accepts _).cons fun _ hd => (expect_accepts rfl).cons fun _ _ => ?_)
    refine hk.accepts.bind fun _ hk => (hblock _ _ hb (by omega)).last fun _ hb => ?_
    exact atLine_accepts fun _ => hr ▸ hd ▸ hk ▸ hb ▸ rfl
  case interruptsOff hb =>
    refine instr_accepts rfl ((expect_accepts rfl).cons fun _ _ => (expect_accepts rfl).cons fun _ _ => ?_)
    exact (hblock _ _ hb (by omega)).last fun _ hb => atLine_accepts fun _ => hb ▸ rfl
  case save hr hrs hb =>
    refine instr_accepts rfl ((commaList_accepts hr hrs).bindNext (fun _ _ _ h => Option.some.inj h ▸ by decide) fun _ hrs => ?_)
    exact (hblock _ _ hb (by omega)).last fun _ hb => atLine_accepts fun _ => hrs ▸ hb ▸ rfl
  case pointInto hp hr hb =>
    refine instr_accepts rfl (hp.accepts.bind fun _ hp => (expect_accepts rfl).cons fun _ _ => hr.accepts.bind fun _ hr => ?_)
    exact (hblock _ _ hb (by omega)).last fun _ hb => atLine_accepts fun _ => hp ▸ hr ▸ hb ▸ rfl

theorem Instr.Written.opens {i : Instr} (h : i.Written sc ts) : ∃ w us, ts = .word w :: us ∧ w ≠ "\x7d" ∧ (Token.word w).Ends := by
  unfold Token.Ends
  cases h with
  | @op op _ _ => exact ⟨_, _, rfl, by cases op <;> simp [Op.opcode, Token.text?]⟩
  | _ => exact ⟨_, _, rfl, by decide⟩

theorem isGoto_bare (i : Instr) : i.bare.isGoto = i.isGoto := by cases i <;> rfl

theorem instrs_accepts {item : Parse Instr} {n : Nat}
    (hitem : ∀ i ts, Instr.Written sc i ts → ts.length ≤ n → item.Accepts ts (·.bare = i) Token.Ends) :
    ∀ (b : Block) (us : List Token) (k : Nat), b.Written sc us → us.length ≤ n → us.length < k →
      (instrs item k).Accepts us (fun is => ∀ l, (Block.ofList l is).bare = b) (· = .operator '\x7d')
  | _, _, 0, _, _, hk => absurd hk (Nat.not_lt_zero _)
  | .nil _, _, k + 1, .nil, _, _ => by
    rintro c _ rfl ht
    have hon : c.on "\x7d" = true := by rw [Cursor.on, Cursor.text?, ht]; rfl
    refine ⟨[], ?_, fun _ => rfl⟩
    show (if c.on "\x7d" = true then pure [] else _ : Parse (List Instr)) c = _
    rw [if_pos hon]
    rfl
  | .cons i b, _, k + 1, @Block.Written.cons _ _ _ ts us hi hb hlast, hn, hk => by
    have hhead := hitem i ts hi (by simp at hn; omega)
    obtain ⟨w, ts, rfl, hw, -⟩ := hi.opens
    simp only [length_append, length_cons] at hn hk
    have hends : ∀ t, t = .operator '\x7d' → ∀ u ∈ (us ++ [t]).head?, u.Ends := by
      rintro _ rfl u hu
      cases hb with
      | nil => 
        cases hu
        unfold Token.Ends
        decide
      | cons hj =>
        obtain ⟨w, vs, rfl, -, hends⟩ := hj.opens
        cases hu
        exact hends
    refine .ask fun c hc => ?_
    rw [if_neg (by simpa [Cursor.on, Cursor.text?, hc, Token.text?] using hw)]
    refine hhead.bindNext hends fun j hj => ?_
    have hgo : j.isGoto = i.isGoto := by rw [← isGoto_bare, hj]
    rw [hgo]
    by_cases hi : i.isGoto = true
    · rw [if_pos hi]
      cases hlast hi
      cases hb
      exact .pure fun _ => congrArg (Block.cons · _) hj
    · rw [if_neg hi]
      refine (instrs_accepts hitem b us k hb (by omega) (by omega)).lastNext (fun _ => id) fun is his => .pure fun l => ?_
      exact congrArg₂ Block.cons hj (his l)

theorem blockWithin_accepts (k : Nat) : ∀ b us, Block.Written sc b us → us.length < k → (blockWithin sc k).Accepts (braced us) (·.bare = b) := by
  induction k with
  | zero => exact fun _ _ _ hk => absurd hk (Nat.not_lt_zero _)
  | succ k ih =>
    intro b us hb hk
    have hinstr (i : Instr) (ts : List Token) (hi : i.Written sc ts) (hn : ts.length ≤ us.length) :=
      hi.accepts hn fun b vs hb hlt => ih b vs hb (by omega)
    have hinstrs := Accepts.remaining (f := fun j => instrs (instr sc (blockWithin sc k)) (j + 1)) fun j hj =>
      instrs_accepts hinstr b us (j + 1) hb (Nat.le_refl _) (by omega)
    refine (expect_accepts rfl).cons fun _ _ => hinstrs.bindNext (fun _ _ _ h => (Option.some.inj h).symm) fun is his => ?_
    exact (expect_accepts rfl).last fun _ _ => ask_accepts.last fun _ _ => .pure (his _)

theorem block_accepts {b : Block} (h : b.Written sc ts) : (Grammar.block sc).Accepts (braced ts) (·.bare = b) :=
  .remaining (f := fun k => blockWithin sc (k + 1)) fun k hk => blockWithin_accepts (k + 1) b ts h (by simp [braced] at hk; omega)

/-- Where a block was written it is read back, and nothing after it is taken. In every block that is read, with whatever is declared,
and so in all that is read from files, a jump to another routine is the last instruction of its block. -/
theorem Block.read_back :
    (∀ (sc : Scope) (b : Block) (ts : List Token) (c c' : Cursor), b.Written sc ts → c.Reads (braced ts) c' →
        ∃ b', Grammar.block sc c = .ok (b', c') ∧ b'.bare = b)
      ∧ (∀ (sc : Scope) (b : Block) (c c' : Cursor), sc.symbols.Readable → c.Sound → Grammar.block sc c = .ok (b, c') → b.Spelled)
      ∧ ∀ (fs : Files) (path mains : List String) (s : Symbols) (ps : List Program), fs.loadAll path .initial mains = .ok (s, ps) →
        ∀ r ∈ (Program.merge ps).routines, ∀ b, r.body = some b → b.Spelled := by
  refine ⟨fun _ _ _ _ _ hb hc => block_accepts hb hc trivial, fun sc b c c' hs hc hb => ?_,
    fun fs _ _ _ _ hread r hr => (fs.read_agree hread).declares.bodies r hr _ fun _ _ => trivial⟩
  obtain ⟨b', c₁, hb', -, hspelled⟩ | ⟨f, hf, -⟩ := block_yields hs (fun _ _ => trivial) hc (Nat.le_refl _)
  · cases hb.symm.trans hb'
    exact hspelled
  · cases hb.symm.trans hf

/-- A cursor on the first of these tokens. -/
def Cursor.over (ts : List Token) : Cursor := .ofLexemes "" (ts.map (⟨·, 1, 0⟩))

/-- A choice and a jump are read back, with the next token left; and so the routine that was read ends with its jump. -/
theorem Block.jump_read_back :
    (∃ b, Grammar.block ⟨.initial, "main"⟩ (.over [.operator '\x7b', .word "if", .word "c", .operator '\x7b', .word "nop", .operator '\x7d',
        .word "goto", .word "next", .operator '\x7d', .word "define"]) = .ok (b, .over [.word "define"])
      ∧ b.bare = .cons (.ifThen 0 .c false (.cons (.op 0 .nop) (.nil 0))) (.cons (.goto 0 "next") (.nil 0)))
    ∧ ∃ s ps r b, dangling.loadAll [] .initial ["m"] = .ok (s, ps) ∧ r ∈ (Program.merge ps).routines ∧ r.body = some b
      ∧ b.Contains (.goto 1 "next") ∧ b.Spelled := by
  have hflag : Ref.Plain ⟨.initial, "main"⟩ .c [.word "c"] := .named (n := "c") ⟨by simp [isWordChar, Char.isAlphanum], by decide⟩ rfl
  obtain ⟨hback, -, hlast⟩ := Block.read_back
  refine ⟨hback _ _ _ _ _ (.cons (.ifThen (.plain hflag (by decide)) (.cons (.op .none) .nil (by simp [Instr.isGoto])))
    (.cons .goto .nil fun _ => rfl) (by simp [Instr.isGoto])) ?_, ?_⟩
  · repeat' constructor
    all_goals exact cons_ne_nil _ _
  · obtain ⟨s, ps, r, b, hread, hr, hb, hgoto, -⟩ := dangling_read
    exact ⟨s, ps, r, b, hread, hr, hb, hgoto, hlast _ _ _ _ _ hread r hr b hb⟩

end CheckedAsm
