import CheckedAsm.Proofs.Lexemes.Tokens
/-! # The end of a text

A line end at the end of a text is a blank like any other and ends no token that would go on, so the tokens are the same with it
and without it. Only a comment needs it: on a last line that is not ended, `//` starts none, and what stands there is read as
tokens. -/

namespace CheckedAsm

open List Text

/-- A line end after a text lets the token at its head stand. -/
theorem Token.Heads.newline {t : Token} {l rest : List Char} (h : t.Heads l rest) : t.Heads l (rest ++ ['\n']) := by
  have hstop {p : Char → Bool} (hp : p '\n' = false) (hrest : ∀ d ∈ rest.head?, p d = false) : ∀ d ∈ (rest ++ ['\n']).head?, p d = false := by
    cases rest with
    | nil => simpa using hp
    | cons d rest => simpa using hrest
  cases h with
  | operator hop => exact .operator hop
  | integer hrun hrest => exact .integer hrun (hstop (by decide) hrest)
  | hexadecimal hne hrun hrest => exact .hexadecimal hne hrun (hstop (by decide) hrest)
  | quotation hrun => exact .quotation hrun
  | word hop hdigit hrun hrest => exact .word hop hdigit hrun (hstop (by decide) hrest)
  | stray hop hdigit hword hhex hquote =>
    exact .stray hop hdigit hword (fun hc => hstop (by decide) (hhex hc)) fun hc => by simpa using hquote hc

theorem comment?_eq_none {l : List Char} (h : ¬ ['/', '/'] <+: l) : comment? l = none := by
  unfold comment?
  split
  case h_1 body => exact absurd ⟨body, rfl⟩ h
  case h_2 => rfl

/-- A line end closes the comment at the head of a text, if nothing in the text does. -/
theorem comment?_newline (l : List Char) : comment? (l ++ ['\n']) =
    match comment? l with
    | some (taken, rest) => some (taken, rest ++ ['\n'])
    | none => if ['/', '/'] <+: l then some (l ++ ['\n'], []) else none := by
  by_cases hslashes : ['/', '/'] <+: l
  case neg =>
    rw [comment?_eq_none hslashes, comment?_eq_none, if_neg hslashes]
    rw [prefix_concat_iff]
    rintro (hall | hpre)
    · have := congrArg getLast? hall
      simp at this
    · exact hslashes hpre
  case pos =>
    obtain ⟨body, rfl⟩ := hslashes
    have hstop : ∀ d ∈ (body.dropWhile (fun c => !isLineEnd c) ++ ['\n']).head?, (!isLineEnd d) = false := by
      cases hdrop : body.dropWhile fun c => !isLineEnd c with
      | nil => simp [isLineEnd]
      | cons e rest => simpa [hdrop] using dropWhile_stops (p := fun c => !isLineEnd c) (l := body)
    obtain ⟨htake, hdrop⟩ := takeWhile_run (l := body.takeWhile fun c => !isLineEnd c) (fun _ => mem_takeWhile_imp) hstop
    rw [← append_assoc, takeWhile_append_dropWhile] at htake hdrop
    simp only [comment?, cons_append, nil_append, htake, hdrop]
    cases hend : body.dropWhile fun c => !isLineEnd c with
    | nil =>
      have hbody := takeWhile_append_dropWhile (p := fun c => !isLineEnd c) (l := body)
      rw [hend, append_nil] at hbody
      simp [hbody]
    | cons e rest => simp

namespace Place

variable {p q : Place}

/-- What comes before the next token is a comment that nothing ends. -/
def Unclosed (p : Place) : Prop := ['/', '/'] <+: p.skipGaps.rest

/-- Up to the next token, or to the end of both texts, or of the one in which a comment is closed. -/
theorem skipGaps_newline (h : q.rest = p.rest ++ ['\n']) :
    (¬ p.Unclosed ∧ p.skipGaps.rest ≠ [] ∧ q.skipGaps.rest = p.skipGaps.rest ++ ['\n'])
      ∨ (p.Unclosed ∨ p.skipGaps.rest = []) ∧ q.skipGaps.rest = [] := by
  unfold Unclosed
  have hblanks (p q : Place) (h : q.rest = p.rest ++ ['\n']) (hne : p.skipBlanks.rest ≠ []) :
      q.skipBlanks.rest = p.skipBlanks.rest ++ ['\n'] := by
    have hne : p.rest.dropWhile isGap ≠ [] := hne
    simp [skipBlanks, pass, h, dropWhile_append, hne]
  fun_induction skipGaps p generalizing q with
  | case1 p taken rest hc ih =>
    have hne : p.skipBlanks.rest ≠ [] := fun hnil => by simp [hnil, comment?] at hc
    rw [skipGaps_comment (p := q) (by rw [hblanks p q h hne, comment?_newline, hc])]
    exact ih rfl
  | case2 p hc =>
    by_cases hnil : p.skipBlanks.rest = []
    · have hempty : q.skipBlanks.rest = [] := by
        have hnil : p.rest.dropWhile isGap = [] := hnil
        simp [skipBlanks, pass, h, dropWhile_append, hnil, isGap]
      rw [skipGaps_eq (by rw [hempty]; rfl)]
      exact .inr ⟨.inr hnil, hempty⟩
    have hq := comment?_newline p.skipBlanks.rest
    rw [hc, ← hblanks p q h hnil] at hq
    by_cases hslashes : ['/', '/'] <+: p.skipBlanks.rest
    · rw [skipGaps_comment (hq.trans (if_pos hslashes))]
      refine .inr ⟨.inl hslashes, length_eq_zero_iff.1 (Nat.le_zero.1 (length_skipGaps _))⟩
    · rw [skipGaps_eq (hq.trans (if_neg hslashes))]
      exact .inl ⟨hslashes, hnil, hblanks p q h hnil⟩

/-- The next token is the same, unless a comment is closed in place of it. -/
theorem scan_newline (h : q.rest = p.rest ++ ['\n']) :
    p.Unclosed ∧ p.scan.1 = .stray '/' ∧ q.scan.1 = .finish
      ∨ ¬ p.Unclosed ∧ q.scan.1 = p.scan.1 ∧ (p.scan.1 ≠ .finish → q.scan.2.rest = p.scan.2.rest ++ ['\n']) := by
  obtain ⟨hclosed, hne, hq⟩ | ⟨hp, hq⟩ := skipGaps_newline h
  · obtain ⟨c, rest, hcons⟩ := exists_cons_of_ne_nil hne
    obtain ⟨t, run, after, hread, hheads, rfl⟩ := readToken_heads c rest
    rw [hcons, cons_append, append_assoc] at hq
    exact .inr ⟨hclosed, by simp [scan, hcons, hq, hread, hheads.newline.readToken_eq],
      fun _ => by simp [scan, hcons, hq, hread, hheads.newline.readToken_eq, pass]⟩
  · obtain hopen | hnil := hp
    · obtain ⟨body, hbody⟩ := id hopen
      have hstray : (readToken '/' ('/' :: body)).1 = .stray '/' := rfl
      exact .inl ⟨hopen, by simpa [scan, ← hbody] using hstray, by simp [scan, hq]⟩
    · exact .inr ⟨by simp [Unclosed, hnil], by simp [scan, hq, hnil], by simp [scan, hnil]⟩

theorem not_unclosed_of_end (h : p.rest = []) (n : Nat) : ¬ ((·.scan.2)^[n] p).Unclosed := by
  rw [Function.iterate_fixed (by rw [scan_end h])]
  have hgaps : p.skipGaps.rest = [] := length_eq_zero_iff.1 (Nat.le_zero.1 (p.length_skipGaps.trans (h ▸ Nat.le_refl 0)))
  simp [Unclosed, hgaps]

/-- The tokens are the same, or somewhere a comment comes that nothing ends. -/
theorem tokens_newline (h : q.rest = p.rest ++ ['\n']) : q.tokens = p.tokens ↔ ∀ n, ¬ ((·.scan.2)^[n] p).Unclosed := by
  induction p using lexemes.induct generalizing q with
  | case1 p hend =>
    obtain ⟨-, hstray, -⟩ | ⟨hclosed, hsame, -⟩ := scan_newline h
    · cases hstray.symm.trans hend
    · refine iff_of_true (by rw [q.tokens_eq, p.tokens_eq, if_pos hend, if_pos (hsame.trans hend)]) fun n => ?_
      cases n with
      | zero => exact hclosed
      | succ n =>
        obtain ⟨-, hrest, -⟩ | ⟨_, _, _, -, -, -, -, hheads⟩ := p.scan_cases
        · exact not_unclosed_of_end hrest n
        · rw [hend] at hheads
          cases hheads
  | case2 p hmore ih =>
    rw [p.tokens_eq, if_neg hmore, q.tokens_eq]
    obtain ⟨hopen, hstray, hend⟩ | ⟨hclosed, hsame, hrest⟩ := scan_newline h
    · rw [if_pos hend, hstray]
      exact iff_of_false (by simp) fun hall => hall 0 hopen
    · rw [if_neg (hsame ▸ hmore), hsame, cons_inj_right, ih (hrest hmore)]
      refine ⟨fun hall n => ?_, fun hall n => hall (n + 1)⟩
      cases n with
      | zero => exact hclosed
      | succ n => exact hall n

end Place

/-- A line end at the end of a text changes no tokens, unless the text ends in a comment that needs it. -/
theorem lexemes_newline (text : String) : (lexemes (text ++ "\n")).map (·.token) = (lexemes text).map (·.token)
    ↔ ∀ n, ¬ ((fun p : Place => p.scan.2)^[n] (.start text)).Unclosed :=
  Place.tokens_newline (by simp [Place.start])

/-- Without its line end a comment is read as tokens. -/
theorem comment_at_end_read : (lexemes "// x").map (·.token) = [.stray '/', .stray '/', .word "x", .finish]
    ∧ (lexemes ("// x" ++ "\n")).map (·.token) = [.finish] := by
  decide +kernel

end CheckedAsm
