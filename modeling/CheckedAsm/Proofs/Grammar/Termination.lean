import CheckedAsm.Proofs.Grammar.Declarations
import CheckedAsm.Proofs.Lexemes.Tokens
/-! # Texts come to their end

Scanning moves on in the text until nothing is left of it, and then stays there. The loops and recursions of the grammar are given as
many steps as lexemes are left, and each step takes a lexeme or stops, so the steps never run out: no text is nested too deep. -/

namespace CheckedAsm

open Grammar List Parse

namespace Place

variable {p q : Place} {n : Nat}

/-- How many characters were read and how many are left add up to the length of the text. -/
theorem Before.lengths (h : p.Before q) : p.pos ≤ q.pos ∧ q.pos + q.rest.length = p.pos + p.rest.length := by
  obtain ⟨taken, hp, hq⟩ := h
  have hpos : q.pos = p.pos + taken.length := congrArg Place.pos hq
  rw [hp, length_append]
  omega

/-- The scan comes to the end of the text, or it moves on. -/
theorem scan_advances (p : Place) :
    p.Before p.scan.2 ∧ (p.scan.1 = .finish ∧ p.scan.2.rest = [] ∨ p.scan.1 ≠ .finish ∧ p.pos < p.scan.2.pos) := by
  obtain ⟨hfinish, hrest, hafter⟩ | ⟨q, c, run, hq, hafter, hrest, -, hheads⟩ := p.scan_cases
  · exact ⟨hafter, .inl ⟨hfinish, hrest⟩⟩
  · have hlength : q.rest.length = run.length + p.scan.2.rest.length + 1 := by simp [hrest]
    have hne : p.scan.1 ≠ .finish := by
      intro hfinish
      rw [hfinish] at hheads
      cases hheads
    have := hq.lengths
    have := hafter.lengths
    exact ⟨hq.trans hafter, .inr ⟨hne, by omega⟩⟩

/-- The place after some scans: so many characters were read, unless the text has ended. -/
theorem scans_advance (p : Place) (n : Nat) : p.Before ((·.scan.2)^[n] p)
    ∧ (((·.scan.2)^[n] p).rest = [] ∨ p.pos + n ≤ ((·.scan.2)^[n] p).pos) := by
  induction n with
  | zero => exact ⟨⟨[], rfl, rfl⟩, .inr (Nat.le_refl _)⟩
  | succ n ih =>
    rw [Function.iterate_succ_apply']
    generalize (·.scan.2)^[n] p = q at ih ⊢
    obtain ⟨hafter, ⟨-, hend⟩ | ⟨hmore, hpos⟩⟩ := q.scan_advances
    · exact ⟨ih.1.trans hafter, .inl hend⟩
    · refine ⟨ih.1.trans hafter, .inr ?_⟩
      obtain hrest | hle := ih.2
      · exact absurd (by rw [scan_end hrest]) hmore
      · omega

end Place

variable {fs : Files} {path : List String} {s : Symbols}

/-- Every scan of a text ends it or moves on in it, and within one scan more than it has characters the text has ended, and stays so.
A file with no directives at its head, read on top of any files, is never found to be nested too deep. -/
theorem Files.text_finishes {earlier : List String} {before : List Program} (hs : fs.loadAll path .initial earlier = .ok (s, before))
    {file text : String} (hplain : (Cursor.ofText file text).on "include" = false) (load : Include) :
    (∀ n, let p := (fun p : Place => p.scan.2)^[n] (.start text)
      (p.scan.1 = .finish ∧ p.scan.2.pos = text.length ∧ p.scan.2.scan = (.finish, p.scan.2)
        ∨ p.scan.1 ≠ .finish ∧ p.pos < p.scan.2.pos ∧ p.scan.2.pos ≤ text.length)
      ∧ (text.length ≤ n → p.scan.1 = .finish))
    ∧ Program.ofText load s file text ≠ .error .tooDeep := by
  refine ⟨fun n => ?_, ?_⟩
  · obtain ⟨hafter, hpos⟩ := (Place.start text).scans_advance n
    dsimp only
    generalize (fun p : Place => p.scan.2)^[n] (.start text) = p at hafter hpos ⊢
    obtain ⟨hscan, hcases⟩ := p.scan_advances
    have hlengths := hafter.lengths
    have hlengths' := (hafter.trans hscan).lengths
    have hstart : (Place.start text).pos = 0 ∧ (Place.start text).rest.length = text.length := ⟨rfl, String.length_toList⟩
    refine ⟨hcases.imp ?_ fun ⟨hmore, hlt⟩ => ⟨hmore, hlt, by omega⟩, fun hn => ?_⟩
    · rintro ⟨hfinish, hend⟩
      rw [hend, length_nil] at hlengths'
      exact ⟨hfinish, by omega, Place.scan_end hend⟩
    · have hend : p.rest = [] := hpos.elim id fun hle => length_eq_zero_iff.1 (by omega)
      rw [Place.scan_end hend]
  · intro hdeep
    have hagree : s.Agrees (.merge before ++ .merge []) := by simpa [Program.merge] using fs.read_agree hs
    have hown := own_yields hagree (Cursor.ofText_sound file text) (Nat.le_refl _)
    rw [Program.ofText, unit_eq, Cursor.remaining, includes_succ, if_neg (by simp [hplain])] at hdeep
    change (own s [] (.ofText file text)).map _ = _ at hdeep
    obtain ⟨_, _, hok, -⟩ | ⟨f, herr, hf⟩ := hown
    · rw [hok] at hdeep
      cases hdeep
    · rw [herr] at hdeep
      cases hdeep
      exact hf rfl

/-- A text that breaks off. -/
theorem truncated_finishes : (Cursor.ofText "m" "define main routine \x7b repeat \x7b if z").on "include" = false
    ∧ Program.ofText (fun _ _ => .error .fileNameMissing) .initial "m" "define main routine \x7b repeat \x7b if z" ≠ .error .tooDeep := by
  have hempty : ({ entries := [] } : Files).loadAll [""] .initial [] = .ok (.initial, []) := rfl
  have hplain : (Cursor.ofText "m" "define main routine \x7b repeat \x7b if z").on "include" = false := by decide +kernel
  exact ⟨hplain, (Files.text_finishes hempty hplain _).2⟩

end CheckedAsm
