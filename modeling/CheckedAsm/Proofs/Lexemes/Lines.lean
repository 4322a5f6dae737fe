import CheckedAsm.Cursor
import CheckedAsm.Proofs.Lexemes.Tokens
/-! # Lines

A place in a text keeps count of the line ends before it, whatever they were passed in: blanks, comments or quotations. Lexemes take
their lines from such places, and a cursor goes from one of them to the next or stays, also where it refuses what it is asked for. -/

namespace CheckedAsm

open List

/-- The lexeme ends within the text, and its line is the one that the text has come to there. -/
def Lexeme.Lined (text : String) (l : Lexeme) : Prop :=
  l.pos ≤ text.length ∧ l.line = 1 + (text.toList.take l.pos).count '\n'

namespace Place

variable {text : String} {p q : Place}

theorem Before.lined {t : Token} (h : (start text).Before q) : Lexeme.Lined text ⟨t, q.line, q.pos⟩ := by
  obtain ⟨taken, htext, hq⟩ := h
  have hpos : q.pos = taken.length := (congrArg Place.pos hq).trans (Nat.zero_add _)
  have hline : q.line = 1 + taken.count '\n' := congrArg Place.line hq
  have htext : text.toList = taken ++ q.rest := htext
  refine ⟨?_, ?_⟩
  · rw [← String.length_toList, htext, hpos, length_append]
    exact Nat.le_add_right ..
  · rw [hpos, htext, take_left, hline]

theorem scan_after (p : Place) : p.Before p.scan.2 := by
  obtain ⟨-, -, hafter⟩ | ⟨q, -, -, hq, hafter, -⟩ := p.scan_cases
  · exact hafter
  · exact hq.trans hafter

theorem lexemes_lined (h : (start text).Before p) : ∀ l ∈ p.lexemes, l.Lined text := by
  fun_induction lexemes p with
  | case1 p lexeme _ => exact fun l hl => mem_singleton.1 hl ▸ (h.trans p.scan_after).lined
  | case2 p lexeme _ ih => exact forall_mem_cons.2 ⟨(h.trans p.scan_after).lined, ih (h.trans p.scan_after)⟩

end Place

namespace Cursor

/-- What a cursor can be asked to do. -/
inductive Call where
  | advance
  | expect (token : String)
  | consume (token : String)
  | on (tokens : List String)
  | onKind (kind : String)
  | checkKind (kind : String)

/-- The cursor after a call, and its answer: a truth value, nothing, or the report of what was refused. -/
def Call.run (c : Cursor) : Call → Cursor × Except Fault (Option Bool)
  | .advance => (c.advance, .ok none)
  | .expect token =>
    match c.expect token with
    | .ok c' => (c', .ok none)
    | .error f => (c, .error f)
  | .consume token => ((c.consume token).2, .ok (some (c.consume token).1))
  | .on tokens => (c, .ok (some (c.onAny tokens)))
  | .onKind kind => (c, .ok (some (c.onKind kind)))
  | .checkKind kind => (c, (c.checkKind kind).map fun _ => none)

/-- The cursor is in the file, and has its lexemes before it. -/
structure Lined (file text : String) (c : Cursor) : Prop where
  file : c.file = file
  lexemes : ∀ l ∈ c.here :: c.ahead, l.Lined text

variable {file text : String} {c : Cursor}

theorem ofText_lined (file text : String) : (ofText file text).Lined file text := by
  have hall : ∀ l ∈ lexemes text, l.Lined text := (Place.start text).lexemes_lined ⟨[], rfl, rfl⟩
  unfold ofText
  cases hl : lexemes text with
  | nil => exact ⟨rfl, fun l hmem => by simp_all [ofLexemes, Lexeme.Lined]⟩
  | cons l rest => exact ⟨rfl, hl ▸ hall⟩

theorem Lined.advance (h : c.Lined file text) : c.advance.Lined file text := by
  unfold Cursor.advance
  split
  case h_1 => exact h
  case h_2 l rest hahead => exact ⟨h.file, fun k hk => h.lexemes k (mem_cons_of_mem _ (hahead ▸ hk))⟩

/-- A call moves the cursor on or leaves it where it is, and a report names its line. -/
theorem Call.run_cases (c : Cursor) (call : Call) : ((call.run c).1 = c ∨ (call.run c).1 = c.advance)
    ∧ ∀ f, (call.run c).2 = .error f → ∃ flaw, f = .flaw c.file c.here.line flaw := by
  cases call with
  | advance => exact ⟨.inr rfl, fun _ h => nomatch h⟩
  | on | onKind => exact ⟨.inl rfl, fun _ h => nomatch h⟩
  | expect token =>
    simp only [run, Cursor.expect]
    split_ifs
    · exact ⟨.inr rfl, fun _ h => nomatch h⟩
    · exact ⟨.inl rfl, fun _ h => ⟨_, (Except.error.inj h).symm⟩⟩
  | consume token =>
    simp only [run, Cursor.consume]
    split_ifs
    · exact ⟨.inr rfl, fun _ h => nomatch h⟩
    · exact ⟨.inl rfl, fun _ h => nomatch h⟩
  | checkKind kind =>
    refine ⟨.inl rfl, fun f h => ?_⟩
    simp only [run, Cursor.checkKind] at h
    split_ifs at h
    · cases h
    · exact ⟨_, (Except.error.inj h).symm⟩

theorem Lined.run (h : c.Lined file text) (call : Call) : (call.run c).1.Lined file text := by
  obtain hsame | hmoved := (call.run_cases c).1
  · rwa [hsame]
  · rw [hmoved]
    exact h.advance

theorem Lined.runs (h : c.Lined file text) (calls : List Call) :
    (calls.foldl (fun c call => (call.run c).1) c).Lined file text := by
  induction calls generalizing c with
  | nil => exact h
  | cons call calls ih => exact ih (h.run call)

/-- After any calls, refused or not, the line of the cursor is one more than the line ends before its position, and what is
refused then is reported there. -/
theorem lines_exact (file text : String) (calls : List Call) :
    let c := calls.foldl (fun c call => (call.run c).1) (ofText file text)
    c.here.pos ≤ text.length ∧ c.here.line = 1 + (text.toList.take c.here.pos).count '\n'
      ∧ ∀ call f, (Call.run c call).2 = .error f → ∃ flaw, f = .flaw file c.here.line flaw := by
  have hrun := (ofText_lined file text).runs calls
  dsimp only
  generalize calls.foldl (fun c call => (call.run c).1) (ofText file text) = c at hrun ⊢
  obtain ⟨hpos, hline⟩ := hrun.lexemes _ mem_cons_self
  exact ⟨hpos, hline, fun call f herr => hrun.file ▸ (call.run_cases c).2 f herr⟩

end Cursor

end CheckedAsm
