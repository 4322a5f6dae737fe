import CheckedAsm.Lexeme
import Mathlib
/-! # Tokens and their characters

Which token stands at the head of a text hangs on its own characters and, where a longer token could begin with them, on what
follows. A blank ends every token, so tokens that are written out with a blank between them are read again as they were. -/

namespace CheckedAsm

open List Text

variable {p q : Place} {t : Token} {l taken : List Char}

/-- The token stands at the head of a text: its characters, and what follows them. -/
inductive Token.Heads : Token → List Char → List Char → Prop
  | operator {c rest} : isOperator c = true → Heads (.operator c) [c] rest
  | integer {c run rest} : (∀ d ∈ c :: run, isDecimalDigit d = true) → (∀ d ∈ rest.head?, isDecimalDigit d = false) →
      Heads (.integer (.ofList (c :: run))) (c :: run) rest
  | hexadecimal {run rest} : run ≠ [] → (∀ d ∈ run, isHexDigit d = true) → (∀ d ∈ rest.head?, isHexDigit d = false) →
      Heads (.integer (toString (hexNumber run))) ('$' :: run) rest
  | quotation {run rest} : '"' ∉ run → Heads (.quotation (.ofList run)) ('"' :: (run ++ ['"'])) rest
  | word {c run rest} : isOperator c = false → isDecimalDigit c = false → (∀ d ∈ c :: run, isWordChar d = true) →
      (∀ d ∈ rest.head?, isWordChar d = false) → Heads (.word (.ofList (c :: run))) (c :: run) rest
  | stray {c rest} : isOperator c = false → isDecimalDigit c = false → isWordChar c = false →
      (c = '$' → ∀ d ∈ rest.head?, isHexDigit d = false) → (c = '"' → '"' ∉ rest) → Heads (.stray c) [c] rest

section

variable {p : Char → Bool} {run rest after : List Char} {c : Char}

/-! ### Reading the token at the head -/

theorem takeWhile_run {r : List Char} (hrun : ∀ d ∈ l, p d = true) (hrest : ∀ d ∈ r.head?, p d = false) :
    (l ++ r).takeWhile p = l ∧ (l ++ r).dropWhile p = r := by
  rw [takeWhile_append_of_pos hrun, dropWhile_append_of_pos hrun]
  cases r with
  | nil => simp
  | cons d r => simp [hrest d rfl]

theorem dropWhile_stops : ∀ d ∈ (l.dropWhile p).head?, p d = false := by
  intro d hd
  have hstop := head?_dropWhile_not p l
  rw [hd] at hstop
  simpa using hstop

theorem isDecimalDigit_of_isOperator (h : isOperator c = true) : isDecimalDigit c = false := by
  simp only [isOperator, contains_eq_mem, decide_eq_true_eq, mem_cons, not_mem_nil, or_false] at h
  rcases h with rfl | rfl | rfl | rfl | rfl | rfl | rfl | rfl | rfl | rfl | rfl <;> decide

/-- What is read at the head of a text stands there. -/
theorem readToken_heads (c : Char) (rest : List Char) :
    ∃ t run after, readToken c rest = (t, c :: run, after) ∧ t.Heads (c :: run) after ∧ rest = run ++ after := by
  have hsplit (p : Char → Bool) : rest = rest.takeWhile p ++ rest.dropWhile p := takeWhile_append_dropWhile.symm
  unfold readToken
  split
  case isTrue hop => exact ⟨_, _, _, rfl, .operator hop, rfl⟩
  case isFalse hop =>
  have hop := eq_false_of_ne_true hop
  split
  case isTrue hdigit =>
    exact ⟨_, _, _, rfl, .integer (forall_mem_cons.2 ⟨hdigit, fun _ => mem_takeWhile_imp⟩) dropWhile_stops, hsplit _⟩
  case isFalse hdigit =>
  have hdigit := eq_false_of_ne_true hdigit
  split
  case isTrue hc =>
    obtain rfl : c = '$' := by simpa using hc
    dsimp only
    split
    case isTrue hempty =>
      have hrest : rest = rest.dropWhile isHexDigit := by simpa [isEmpty_iff.1 hempty] using hsplit isHexDigit
      exact ⟨_, _, _, rfl, .stray hop hdigit (by decide) (fun _ => hrest ▸ dropWhile_stops) (fun h => absurd h (by decide)), rfl⟩
    case isFalse hrun =>
      exact ⟨_, _, _, rfl, .hexadecimal (by simpa using hrun) (fun _ => mem_takeWhile_imp) dropWhile_stops, hsplit _⟩
  case isFalse hdollar =>
  split
  case isTrue hc =>
    obtain rfl : c = '"' := by simpa using hc
    split
    case h_1 hnil =>
      have hnone : '"' ∉ rest := fun hmem => by simpa using dropWhile_eq_nil_iff.1 hnil _ hmem
      exact ⟨_, _, _, rfl, .stray hop hdigit (by decide) (fun h => absurd h (by decide)) fun _ => hnone, rfl⟩
    case h_2 e tail hcons =>
      obtain rfl : e = '"' := by simpa [hcons] using dropWhile_stops (p := fun d => d != '"') (l := rest)
      refine ⟨_, _, _, rfl, .quotation fun hmem => by simpa using mem_takeWhile_imp hmem, ?_⟩
      simpa [hcons] using hsplit fun d => d != '"'
  case isFalse hquote =>
  split
  case isTrue hword =>
    exact ⟨_, _, _, rfl, .word hop hdigit (forall_mem_cons.2 ⟨hword, fun _ => mem_takeWhile_imp⟩) dropWhile_stops, hsplit _⟩
  case isFalse hword =>
    exact ⟨_, _, _, rfl, .stray hop hdigit (eq_false_of_ne_true hword) (fun h => absurd h (by simpa using hdollar))
      fun h => absurd h (by simpa using hquote), rfl⟩

/-- What stands at the head of a text is read there. -/
theorem Token.Heads.readToken_eq (h : t.Heads (c :: run) rest) : readToken c (run ++ rest) = (t, c :: run, rest) := by
  unfold readToken
  cases h with
  | operator hop => simp [hop]
  | integer hrun hrest =>
    obtain ⟨hc, hrun⟩ := forall_mem_cons.1 hrun
    have hop : isOperator c = false := by
      by_contra hop
      simp [isDecimalDigit_of_isOperator (by simpa using hop)] at hc
    obtain ⟨htake, hdrop⟩ := takeWhile_run hrun hrest
    simp [hop, hc, htake, hdrop]
  | hexadecimal hne hrun hrest =>
    obtain ⟨htake, hdrop⟩ := takeWhile_run hrun hrest
    simp [show isOperator '$' = false by decide, show isDecimalDigit '$' = false by decide, htake, hdrop, hne]
  | @quotation run _ hrun =>
    have hall : ∀ d ∈ run, (d != '"') = true := fun d hd => by simpa using fun h : d = '"' => hrun (h ▸ hd)
    obtain ⟨htake, hdrop⟩ := takeWhile_run (r := '"' :: rest) hall (by simp)
    simp [show isOperator '"' = false by decide, show isDecimalDigit '"' = false by decide, htake, hdrop]
  | word hop hdigit hrun hrest =>
    obtain ⟨hc, hrun⟩ := forall_mem_cons.1 hrun
    obtain ⟨htake, hdrop⟩ := takeWhile_run hrun hrest
    have hdollar : c ≠ '$' := by rintro rfl; exact absurd hc (by decide)
    have hquote : c ≠ '"' := by rintro rfl; exact absurd hc (by decide)
    simp [hop, hdigit, hdollar, hquote, hc, htake, hdrop]
  | stray hop hdigit hword hhex hquote =>
    by_cases hdollar : c = '$'
    · have htake := (takeWhile_run (l := []) (by simp) (hhex hdollar)).1
      simp_all
    · by_cases hc : c = '"'
      · have hdrop : rest.dropWhile (fun d => d != '"') = [] :=
          dropWhile_eq_nil_iff.2 fun d hd => by simpa using fun h : d = '"' => hquote hc (h ▸ hd)
        subst hc
        simp [hop, hdigit, hdrop]
      · simp [hop, hdigit, hdollar, hc, hword]

/-! ### Writing tokens -/

/-- A token as a text: a quotation in quotes, any other token as the grammar knows it. -/
def Token.written : Token → String
  | .quotation s => "\"" ++ s ++ "\""
  | t => t.text?.getD ""

theorem isDecimalDigit_of_mem_toString {n : Nat} {d : Char} (h : d ∈ (toString n).toList) : isDecimalDigit d = true := by
  rw [Nat.toString_eq_repr, Nat.repr, String.toList_ofList] at h
  have hdigit := Nat.isDigit_of_mem_toDigits (by decide) (by decide) h
  have hsmall : d.toNat < 128 := by
    have := (Bool.and_eq_true_iff.1 hdigit).2
    have hle : d.val ≤ 57 := by simpa using this
    exact Nat.lt_of_le_of_lt (UInt32.le_iff_toNat_le.1 hle) (by decide)
  simp [isDecimalDigit, digitValue?, hsmall, hdigit]

/-- A token that was read can be read again where it is written out, if a blank or nothing follows. -/
theorem Token.Heads.again (h : t.Heads (c :: run) rest) (hgap : isGap c = false) (hafter : ∀ d ∈ after.head?, d = ' ')
    (hquote : t = .stray '"' → '"' ∉ after) :
    ∃ d more, t.written.toList = d :: more ∧ t.Heads (d :: more) after ∧ isGap d = false := by
  have hstop {p : Char → Bool} (hp : p ' ' = false) : ∀ d ∈ after.head?, p d = false := fun d hd => hafter d hd ▸ hp
  have hdigits {d : Char} {ds : List Char} (hall : ∀ e ∈ d :: ds, isDecimalDigit e = true) :
      (Token.integer (.ofList (d :: ds))).Heads (d :: ds) after ∧ isGap d = false := by
    refine ⟨.integer hall (hstop (by decide)), ?_⟩
    by_contra hd
    simp only [isGap, Bool.not_eq_false, Bool.or_eq_true, beq_iff_eq] at hd
    have := hall d mem_cons_self
    rcases hd with ((rfl | rfl) | rfl) | rfl <;> cases this
  cases h with
  | operator hop => exact ⟨c, [], by simp [written, text?], .operator hop, hgap⟩
  | integer hrun => exact ⟨c, run, by simp [written, text?], hdigits hrun⟩
  | @hexadecimal run =>
    cases hlist : (toString (hexNumber run)).toList with
    | nil => simp [Nat.toString_eq_repr] at hlist
    | cons d more =>
      refine ⟨d, more, hlist, ?_⟩
      rw [← String.ofList_toList (s := toString (hexNumber run)), hlist]
      exact hdigits (hlist ▸ fun e he => isDecimalDigit_of_mem_toString he)
  | @quotation run _ hrun => exact ⟨'"', run ++ ['"'], by simp [written], .quotation hrun, hgap⟩
  | word hop hdigit hrun => exact ⟨c, run, by simp [written, text?], .word hop hdigit hrun (hstop (by decide)), hgap⟩
  | stray hop hdigit hword =>
    refine ⟨c, [], by simp [written, text?], .stray hop hdigit hword (fun _ => hstop (by decide)) ?_, hgap⟩
    rintro rfl
    exact hquote rfl

/-- Where a blank or nothing follows, no token starts a comment. -/
theorem Token.Heads.comment?_eq (h : t.Heads (c :: run) after) (hafter : ∀ d ∈ after.head?, d = ' ') :
    comment? (c :: run ++ after) = none := by
  unfold comment?
  split
  case h_2 => rfl
  case h_1 body heq =>
    obtain ⟨rfl, heq⟩ := cons_eq_cons.1 heq
    cases h with
    | operator hop => exact absurd hop (by decide)
    | integer hrun => exact absurd (hrun _ mem_cons_self) (by decide)
    | word _ _ hrun => exact absurd (hrun _ mem_cons_self) (by decide)
    | stray => exact absurd (hafter '/' (by simp_all)) (by decide)

/-- No quote is written that was not read. -/
theorem Token.Heads.quote_notMem (h : t.Heads (c :: run) rest) (hnone : '"' ∉ c :: run) : '"' ∉ t.written.toList := by
  cases h with
  | operator | integer | word | stray => simpa [written, text?] using hnone
  | hexadecimal => exact fun hmem => absurd (isDecimalDigit_of_mem_toString hmem) (by decide)
  | quotation => exact absurd mem_cons_self hnone

end

/-! ### Moving on in a text -/

theorem comment?_split {rest : List Char} (h : comment? l = some (taken, rest)) : l = taken ++ rest := by
  unfold comment? at h
  split at h
  case h_1 body =>
    split at h
    case h_1 => cases h
    case h_2 e tail hcons =>
      cases h
      simp [← hcons]
  case h_2 => cases h

namespace Place

variable {r : Place} {c : Char} {run rest : List Char}

/-- The second place comes after the first one, past the characters between them. -/
def Before (p q : Place) : Prop := ∃ taken, p.rest = taken ++ q.rest ∧ q = p.pass taken q.rest

theorem Before.pass (h : p.rest = taken ++ rest) : p.Before (p.pass taken rest) := ⟨taken, h, rfl⟩

theorem Before.trans (h : p.Before q) (h' : q.Before r) : p.Before r := by
  obtain ⟨taken, hp, hq⟩ := h
  obtain ⟨taken', hq', hr⟩ := h'
  refine ⟨taken ++ taken', by rw [hp, hq', append_assoc], ?_⟩
  rw [hr, hq]
  simp [Place.pass, Nat.add_assoc]

theorem skipBlanks_after (p : Place) : p.Before p.skipBlanks := .pass takeWhile_append_dropWhile.symm

theorem skipGaps_after (p : Place) : p.Before p.skipGaps ∧ ∀ d ∈ p.skipGaps.rest.head?, isGap d = false := by
  fun_induction skipGaps p with
  | case1 p taken rest h ih => exact ⟨(p.skipBlanks_after.trans (.pass (comment?_split h))).trans ih.1, ih.2⟩
  | case2 p h => exact ⟨p.skipBlanks_after, dropWhile_stops⟩

/-- The text has ended, or its next token stood at the head of what was left after blanks and comments. -/
theorem scan_cases (p : Place) : p.scan.1 = .finish ∧ p.scan.2.rest = [] ∧ p.Before p.scan.2
    ∨ ∃ q c run, p.Before q ∧ q.Before p.scan.2 ∧ q.rest = c :: run ++ p.scan.2.rest ∧ isGap c = false
      ∧ p.scan.1.Heads (c :: run) p.scan.2.rest := by
  obtain ⟨hafter, hgap⟩ := p.skipGaps_after
  unfold scan
  dsimp only
  split
  case h_1 hnil => exact .inl ⟨rfl, hnil, hafter⟩
  case h_2 c rest hcons =>
    obtain ⟨t, run, after, hread, hheads, rfl⟩ := readToken_heads c rest
    rw [hread]
    exact .inr ⟨_, c, run, hafter, .pass hcons, hcons, hgap c (by rw [hcons]; rfl), hheads⟩

theorem skipGaps_comment (h : comment? p.skipBlanks.rest = some (taken, rest)) :
    p.skipGaps = (p.skipBlanks.pass taken rest).skipGaps := by
  rw [skipGaps]
  split
  case h_1 h' =>
    cases h.symm.trans h'
    rfl
  case h_2 h' => cases h.symm.trans h'

theorem skipGaps_eq (h : comment? p.skipBlanks.rest = none) : p.skipGaps = p.skipBlanks := by
  rw [skipGaps]
  split
  case h_1 h' => cases h.symm.trans h'
  case h_2 => rfl

/-- At the end of the text the scan stays where it is. -/
theorem scan_end (h : p.rest = []) : p.scan = (.finish, p) := by
  have hblanks : p.skipBlanks = p := by
    cases p
    simp_all [skipBlanks, pass]
  have hgaps : p.skipGaps = p := (skipGaps_eq (by rw [hblanks, h]; rfl)).trans hblanks
  simp [scan, hgaps, h]

end Place

/-! ### Whole texts -/

namespace Place

variable {c : Char} {run rest : List Char}

/-- The tokens from a place on. -/
def tokens (p : Place) : List Token := p.lexemes.map (·.token)

theorem tokens_eq (p : Place) : p.tokens = if p.scan.1 = .finish then [.finish] else p.scan.1 :: p.scan.2.tokens := by
  rw [tokens, lexemes]
  split
  case isTrue h => simp [h]
  case isFalse => rfl

/-- Which token comes next hangs on what is left after the blanks. -/
theorem scan_congr (h : p.rest.dropWhile isGap = q.rest.dropWhile isGap) :
    p.scan.1 = q.scan.1 ∧ p.scan.2.rest = q.scan.2.rest := by
  have hgaps : p.skipGaps.rest = q.skipGaps.rest := by
    fun_induction skipGaps p generalizing q with
    | case1 p taken rest hc ih =>
      rw [skipGaps_comment (p := q) ((congrArg comment? h).symm.trans hc)]
      exact ih rfl
    | case2 p hc =>
      rw [skipGaps_eq ((congrArg comment? h).symm.trans hc)]
      exact h
  unfold scan
  dsimp only
  rw [hgaps]
  split
  · exact ⟨rfl, hgaps⟩
  · exact ⟨rfl, rfl⟩

theorem tokens_congr {p q : Place} (h : p.rest.dropWhile isGap = q.rest.dropWhile isGap) : p.tokens = q.tokens := by
  obtain ⟨htoken, hrest⟩ := scan_congr h
  rw [p.tokens_eq, q.tokens_eq, ← htoken]
  split
  · rfl
  · rw [tokens_congr (congrArg _ hrest)]
termination_by p.rest.length
decreasing_by exact p.scan_shorter (by assumption)

/-- A token at the head of what is left is the next one. -/
theorem scan_heads (h : t.Heads (c :: run) rest) (hp : p.rest = c :: run ++ rest) (hgap : isGap c = false)
    (hcomment : comment? p.rest = none) : p.scan.1 = t ∧ p.scan.2.rest = rest := by
  have hblanks : p.skipBlanks.rest = p.rest := by simp [skipBlanks, pass, hp, hgap]
  have hgaps : p.skipGaps.rest = c :: (run ++ rest) := by rw [skipGaps_eq (hblanks ▸ hcomment), hblanks, hp, cons_append]
  simp [scan, hgaps, h.readToken_eq, pass]

/-- Tokens that are written out with blanks between them are read again. -/
theorem tokens_spaced (p : Place) :
    let spaced := (" ".intercalate ((p.tokens.takeWhile (· ≠ .finish)).map Token.written)).toList
    ('"' ∉ p.rest → '"' ∉ spaced) ∧ ∀ q : Place, q.rest = spaced → q.tokens = p.tokens := by
  fun_induction lexemes p with
  | case1 p _ hfinish =>
    rw [p.tokens_eq, if_pos hfinish]
    refine ⟨fun _ => by simp, fun q hq => ?_⟩
    have hq : q.rest = [] := by simpa using hq
    obtain ⟨hend, -⟩ | ⟨r, c, run, ⟨taken, hr, -⟩, -, hrest, -⟩ := q.scan_cases
    · rw [q.tokens_eq, if_pos hend]
    · simp [hq, hrest] at hr
  | case2 p _ hmore ih =>
    rw [p.tokens_eq, if_neg hmore, takeWhile_cons_of_pos (by simpa using hmore), map_cons]
    dsimp only at ih
    generalize hts : (p.scan.2.tokens.takeWhile (· ≠ .finish)).map Token.written = ts at ih ⊢
    -- What is written after the token: nothing, or a blank and the other tokens.
    obtain ⟨after, hafter, hspaced, hblank, htokens⟩ : ∃ after, (∀ d ∈ after.head?, d = ' ') ∧
        (" ".intercalate (p.scan.1.written :: ts)).toList = p.scan.1.written.toList ++ after ∧
        ('"' ∉ (" ".intercalate ts).toList → '"' ∉ after) ∧ after.dropWhile isGap = (" ".intercalate ts).toList.dropWhile isGap := by
      cases ts with
      | nil => exact ⟨[], by simp⟩
      | cons w ts => exact ⟨' ' :: (" ".intercalate (w :: ts)).toList, by simp [String.toList_intercalate, isGap]⟩
    rw [hspaced]
    obtain ⟨hend, -⟩ | ⟨r, c, run, ⟨taken, hr, -⟩, -, hrest, hgap, hheads⟩ := p.scan_cases
    · exact absurd hend hmore
    have hquote : '"' ∉ p.scan.2.rest → '"' ∉ after := fun h => hblank (ih.1 h)
    rw [hrest] at hr
    have hstray : p.scan.1 = .stray '"' → '"' ∉ after := fun h => hquote (by cases h ▸ hheads with | stray _ _ _ _ hnone => exact hnone rfl)
    refine ⟨fun hnone => ?_, fun q hq => ?_⟩
    · simp only [hr, mem_append, not_or] at hnone
      exact fun hmem => (mem_append.1 hmem).elim (hheads.quote_notMem hnone.2.1) (hquote hnone.2.2)
    · obtain ⟨d, more, hwritten, hagain, hd⟩ := hheads.again hgap hafter hstray
      rw [hwritten] at hq
      obtain ⟨htoken, hleft⟩ := scan_heads hagain hq hd (hq ▸ hagain.comment?_eq hafter)
      rw [q.tokens_eq, htoken, if_neg hmore, ← ih.2 ⟨(" ".intercalate ts).toList, 0, 1⟩ rfl]
      exact congrArg _ (tokens_congr (by rw [hleft, htokens]))

end Place

/-- Tokens that are written out with blanks between them are read again. -/
theorem lexemes_spaced (text : String) :
    (lexemes (" ".intercalate ((((lexemes text).map (·.token)).takeWhile (· ≠ .finish)).map Token.written))).map (·.token)
      = (lexemes text).map (·.token) :=
  (Place.start text).tokens_spaced.2 (.start _) rfl

end CheckedAsm
