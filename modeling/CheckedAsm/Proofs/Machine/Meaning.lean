import CheckedAsm.Proofs.Machine.Text
/-! # Meanings of structured code

A meaning says, for each state, how a piece of code may end and whether it never ends. Meanings are put
together as the structure of the code is: one after the other, as a choice, as a loop. A text realises a
meaning between two addresses when the machine, started at the first, ends as the meaning does, at the
second address or by a jump, and lasts for any number of steps where the meaning has no end. Each way of
putting meanings together has its own pattern of jumps that realises it. -/

namespace CheckedAsm

/-- How code comes to its end: it goes on with what follows, or leaves by a jump. -/
inductive Outcome where
  | done (σ : Cpu)
  | left (target : Operand) (σ : Cpu)

/-- Where the machine is at an outcome, when what follows stands at an address. -/
def Outcome.status (q : Int) : Outcome → Status
  | done σ => .here q σ
  | left t σ => .left t σ

theorem Outcome.status_inj {q : Int} {o o' : Outcome} (h : o.status q = o'.status q) : o = o' := by
  cases o <;> cases o' <;> cases h <;> rfl

/-- What a piece of code does: how it ends from each state, and from which states it never ends. -/
structure Meaning where
  ends : Cpu → Outcome → Prop
  diverges : Cpu → Prop

/-- Rounds of a loop up to the one after which it stops, or in which it is left. -/
inductive Rounds (M : Meaning) (stop : Cpu → Bool) : Cpu → Outcome → Prop
  | left {σ t σ'} : M.ends σ (.left t σ') → Rounds M stop σ (.left t σ')
  | last {σ σ'} : M.ends σ (.done σ') → stop σ' = true → Rounds M stop σ (.done σ')
  | more {σ σ' o} : M.ends σ (.done σ') → stop σ' = false → Rounds M stop σ' o → Rounds M stop σ o

/-- Rounds of a loop without an end: there are states from which the body either never ends, or comes
to such a state again without stopping the loop. -/
def Endless (M : Meaning) (stop : Cpu → Bool) (σ : Cpu) : Prop :=
  ∃ P : Cpu → Prop, P σ
    ∧ ∀ τ, P τ → M.diverges τ ∨ ∃ τ', M.ends τ (.done τ') ∧ stop τ' = false ∧ P τ'

namespace Meaning

/-- Changes the state as a relation says. -/
def acts (R : Cpu → Cpu → Prop) : Meaning := ⟨fun σ o => ∃ σ', R σ σ' ∧ o = .done σ', fun _ => False⟩

/-- Changes the state by a function. -/
def basic (f : Cpu → Cpu) : Meaning := acts fun σ σ' => σ' = f σ

/-- Changes nothing. -/
def skip : Meaning := basic id

/-- Does what a called routine does, which may never return. -/
def call (f : Cpu → Option Cpu) : Meaning :=
  ⟨fun σ o => ∃ σ', f σ = some σ' ∧ o = .done σ', fun σ => f σ = none⟩

/-- Jumps away. -/
def leave (t : Operand) : Meaning := ⟨fun σ o => o = .left t σ, fun _ => False⟩

/-- Has no behaviour at all. -/
def stuck : Meaning := ⟨fun _ _ => False, fun _ => False⟩

/-- One after the other. -/
def seq (M N : Meaning) : Meaning where
  ends σ o := (∃ t σ', M.ends σ (.left t σ') ∧ o = .left t σ')
    ∨ ∃ σ', M.ends σ (.done σ') ∧ N.ends σ' o
  diverges σ := M.diverges σ ∨ ∃ σ', M.ends σ (.done σ') ∧ N.diverges σ'

/-- One or the other, by a test. -/
def choice (test : Cpu → Bool) (M N : Meaning) : Meaning where
  ends σ o := if test σ then M.ends σ o else N.ends σ o
  diverges σ := if test σ then M.diverges σ else N.diverges σ

/-- Again and again, at least once, up to the round after which a test holds. -/
def loop (M : Meaning) (stop : Cpu → Bool) : Meaning := ⟨Rounds M stop, Endless M stop⟩

/-- Never goes on with what follows. -/
def Leaves (M : Meaning) : Prop := ∀ σ σ', ¬ M.ends σ (.done σ')

theorem Leaves.seq_left {M N : Meaning} (hM : M.Leaves) : (M.seq N).Leaves := by
  rintro σ σ' (⟨t, τ, -, ho⟩ | ⟨τ, hτ, -⟩)
  · cases ho
  · exact hM σ τ hτ

theorem Leaves.seq_right {M N : Meaning} (hN : N.Leaves) : (M.seq N).Leaves := by
  rintro σ σ' (⟨t, τ, -, ho⟩ | ⟨τ, -, hτ⟩)
  · cases ho
  · exact hN τ σ' hτ

end Meaning

/-- Between two addresses, a text does what a meaning says. -/
structure Text.Realises (T : Text) (h : Host) (p q : Int) (M : Meaning) : Prop where
  total : ∀ σ, (∃ o, M.ends σ o) ∨ M.diverges σ
  ends : ∀ σ o, M.ends σ o → T.Reaches h (.here p σ) (o.status q)
  lasts : ∀ σ, M.diverges σ → ∀ n, T.Lasts h n (.here p σ)

/-- At an address the machine goes one of two ways, by a test, and changes nothing. -/
def Text.Forks (T : Text) (h : Host) (p : Int) (test : Cpu → Bool) (q r : Int) : Prop :=
  (T.fetch p).isSome ∧ ∀ σ, T.step h (.here p σ) = .here (if test σ then q else r) σ

namespace Text

variable {T : Text} {h : Host} {p q r m : Int} {M N : Meaning} {test : Cpu → Bool}

theorem forks_branch {k : Mnemonic} {id : LabelId} (hf : T.fetch p = some (.code k (.relative id)))
    (hk : ∀ σ, k.taken? σ = some (!test σ)) : T.Forks h p test (p + 2) (h.labels.place id) := by
  refine ⟨by rw [hf]; rfl, fun σ => ?_⟩
  rw [step_branch hf (hk σ)]
  cases test σ <;> rfl

theorem forks_jump {id : LabelId} (hf : T.fetch p = some (.code .jmp (.wide id)))
    (hid : T.inner id = true) : T.Forks h p (fun _ => false) q (h.labels.place id) := by
  refine ⟨by rw [hf]; rfl, fun σ => ?_⟩
  have hs := step_of_fetch (h := h) (σ := σ) (c := ⟨.jmp, .wide id⟩) hf
  rw [hs]
  simp [perform, Mnemonic.taken?, Text.jump, Operand.wide, hid]

/-! ### Straight-line code -/

theorem realises_acts {R : Cpu → Cpu → Prop} (ht : ∀ σ, ∃ σ', R σ σ')
    (hr : ∀ σ σ', R σ σ' → T.Reaches h (.here p σ) (.here q σ')) : T.Realises h p q (.acts R) where
  total σ := by
    obtain ⟨σ', hσ⟩ := ht σ
    exact .inl ⟨.done σ', σ', hσ, rfl⟩
  ends := by
    rintro σ o ⟨σ', hσ, rfl⟩
    exact hr σ σ' hσ
  lasts _ hd := hd.elim

theorem realises_codes {cs : List Code} (hc : T.Holds p cs) (hp : ∀ c ∈ cs, c.mnemonic.isPlain) :
    T.Realises h p (p + Code.room cs) (.basic (Code.execAll h.labels cs)) := by
  refine realises_acts (fun σ => ⟨_, rfl⟩) ?_
  rintro σ σ' rfl
  exact reaches_plain hc hp

theorem realises_skip : T.Realises h p p .skip := by
  refine realises_acts (fun σ => ⟨_, rfl⟩) ?_
  rintro σ σ' rfl
  exact .refl _

theorem realises_call {o : Operand} (hf : T.fetch p = some (.code .jsr o)) :
    T.Realises h p (p + (1 + o.size)) (.call (h.callee o)) where
  total σ := by
    cases hc : h.callee o σ with
    | none => exact .inr hc
    | some σ' => exact .inl ⟨_, σ', hc, rfl⟩
  ends := by
    rintro σ _ ⟨σ', hc, rfl⟩
    have hs := step_of_fetch (h := h) (σ := σ) (c := ⟨.jsr, o⟩) hf
    simp only [perform, Mnemonic.taken?, hc] at hs
    exact .step hs (.refl _)
  lasts σ hd n := by
    -- a callee that does not return keeps the machine at the call
    have hc : h.callee o σ = none := hd
    have hs := step_of_fetch (h := h) (σ := σ) (c := ⟨.jsr, o⟩) hf
    simp only [perform, Mnemonic.taken?, hc] at hs
    induction n with
    | zero => exact ⟨p, σ, rfl, by rw [hf]; rfl⟩
    | succ n ih => exact ih.succ hs

theorem realises_leave {o : Operand} (hf : T.fetch p = some (.code .jmp o))
    (ho : ∀ σ, T.jump h σ o = .left o σ) : T.Realises h p q (.leave o) where
  total σ := .inl ⟨_, rfl⟩
  ends := by
    rintro σ _ rfl
    have hs := step_of_fetch (h := h) (σ := σ) (c := ⟨.jmp, o⟩) hf
    simp only [perform, Mnemonic.taken?, ho] at hs
    exact .step hs (.refl _)
  lasts _ hd := hd.elim

/-! ### Sequences and choices -/

theorem Realises.seq (hM : T.Realises h p m M) (hN : T.Realises h m q N) :
    T.Realises h p q (M.seq N) where
  total σ := by
    obtain ⟨_ | _, ho⟩ | hd := hM.total σ
    case inl.done σ' =>
      obtain ⟨o, hN'⟩ | hd := hN.total σ'
      · exact .inl ⟨o, .inr ⟨σ', ho, hN'⟩⟩
      · exact .inr (.inr ⟨σ', ho, hd⟩)
    case inl.left t σ' => exact .inl ⟨_, .inl ⟨t, σ', ho, rfl⟩⟩
    case inr => exact .inr (.inl hd)
  ends := by
    rintro σ o (⟨t, σ', hl, rfl⟩ | ⟨σ', hd, ho⟩)
    · exact hM.ends σ _ hl
    · exact (hM.ends σ _ hd).trans (hN.ends σ' o ho)
  lasts := by
    rintro σ (hd | ⟨σ', ho, hd⟩) n
    · exact hM.lasts σ hd n
    · exact (hN.lasts σ' hd n).of_reaches (hM.ends σ _ ho)

theorem Realises.choice (hf : T.Forks h p test m r) (hM : T.Realises h m q M)
    (hN : T.Realises h r q N) : T.Realises h p q (.choice test M N) where
  total σ := by
    have hf := hf.2 σ
    unfold Meaning.choice
    split at hf
    case isTrue ht => simpa [ht] using hM.total σ
    case isFalse ht => simpa [ht] using hN.total σ
  ends σ o ho := by
    have hf := hf.2 σ
    unfold Meaning.choice at ho
    split at hf
    case isTrue ht => exact .step hf (hM.ends σ o (by simpa [ht] using ho))
    case isFalse ht => exact .step hf (hN.ends σ o (by simpa [ht] using ho))
  lasts σ hd n := by
    have hf := hf.2 σ
    unfold Meaning.choice at hd
    split at hf
    case isTrue ht => exact (hM.lasts σ (by simpa [ht] using hd) n).of_reaches (.step hf (.refl _))
    case isFalse ht => exact (hN.lasts σ (by simpa [ht] using hd) n).of_reaches (.step hf (.refl _))

/-- Code that never goes on does not mind what follows. -/
theorem Realises.of_leaves (hM : T.Realises h p q M) (hl : M.Leaves) : T.Realises h p r M where
  total := hM.total
  ends σ o ho := by
    cases o with
    | done σ' => exact (hl σ σ' ho).elim
    | left t σ' => exact hM.ends σ _ ho
  lasts := hM.lasts

/-- Code may go on elsewhere by a jump at its end. -/
theorem Realises.jump (hM : T.Realises h p m M) (hj : T.Forks h m (fun _ => false) r q) :
    T.Realises h p q M where
  total := hM.total
  ends σ o ho := by
    cases o with
    | done σ' => exact (hM.ends σ _ ho).trans (.step (hj.2 σ') (.refl _))
    | left t σ' => exact hM.ends σ _ ho
  lasts := hM.lasts

/-! ### Loops -/

theorem rounds_or_endless (hM : ∀ σ, (∃ o, M.ends σ o) ∨ M.diverges σ) (stop : Cpu → Bool) (σ : Cpu) :
    (∃ o, Rounds M stop σ o) ∨ Endless M stop σ := by
  by_cases hσ : ∃ o, Rounds M stop σ o
  · exact .inl hσ
  · refine .inr ⟨fun τ => ¬ ∃ o, Rounds M stop τ o, hσ, fun τ hτ => ?_⟩
    obtain ⟨_ | _, ho⟩ | hd := hM τ
    case inl.done τ' =>
      cases hs : stop τ' with
      | true => exact (hτ ⟨_, .last ho hs⟩).elim
      | false => exact .inr ⟨τ', ho, hs, fun ⟨o, hr⟩ => hτ ⟨o, .more ho hs hr⟩⟩
    case inl.left t τ' => exact (hτ ⟨_, .left ho⟩).elim
    case inr => exact .inl hd

theorem Realises.loop (hM : T.Realises h p m M) (hf : T.Forks h m test q p) :
    T.Realises h p q (M.loop test) where
  total := rounds_or_endless hM.total test
  ends σ o hr := by
    induction hr with
    | left ho => exact hM.ends _ _ ho
    | @last σ σ' ho hs =>
      have hf := hf.2 σ'
      rw [hs] at hf
      exact (hM.ends _ _ ho).trans (.step hf (.refl _))
    | @more σ σ' o ho hs _ ih =>
      have hf := hf.2 σ'
      rw [hs] at hf
      exact (hM.ends _ _ ho).trans (.step hf ih)
  lasts := by
    rintro σ ⟨P, hP, hnext⟩ n
    -- each round takes a step at least, the one that goes back to the beginning
    induction n generalizing σ with
    | zero =>
      obtain hd | ⟨σ', ho, hs, -⟩ := hnext σ hP
      · exact hM.lasts σ hd 0
      · exact Lasts.of_reaches (hM.ends _ _ ho) ⟨m, σ', rfl, hf.1⟩
    | succ n ih =>
      obtain hd | ⟨σ', ho, hs, hP'⟩ := hnext σ hP
      · exact hM.lasts σ hd (n + 1)
      · have hf := hf.2 σ'
        rw [hs] at hf
        exact ((ih σ' hP').succ hf).of_reaches (hM.ends _ _ ho)

end Text

end CheckedAsm
