import CheckedAsm.Proofs.Analysis.Comparison
/-! # Loops after the second lap

The body of a loop is walked twice, but it may run any number of times. From the first lap on, the same locations have values and may
be written to, so that a further lap can fail at nothing but a range; and not even there if the second lap has left the ranges as the
first one did. A variable that is counted without a bound has another range after each lap, though, and leaves a table only in the
third. -/

namespace CheckedAsm

open Context

/-- Walks the body of a loop and looks at its test, as often as is asked for. -/
def Block.laps (s : Setting) (src : Option Ref) (body : Block) : Nat → Trail → Except Fault Trail
  | 0, t => .ok t
  | n + 1, t => do
    let t ← body.walk s t
    src.forM (t.cx.assertMeaningful s)
    body.laps s src n t

section

variable {s : Setting} {src : Option Ref} {body : Block} {t t1 t2 : Trail}

/-- Where a lap began and ended in alike contexts, further laps go on. -/
theorem Block.laps_goes_on {w : Leeway} (hnone : w.extra ⊆ ∅) (n : Nat) {t t1 : Trail} (halike : Alike s w t.cx t1.cx)
    (h : body.walk s t = .ok t1) (htest : src.forM (t1.cx.assertMeaningful s) = .ok ()) :
    (∃ t', body.laps s src n t1 = .ok t') ∨ (w = .lax ∧ ∃ f, body.laps s src n t1 = .error f ∧ f.isRange = true) := by
  induction n generalizing t t1 with
  | zero => exact .inl ⟨t1, rfl⟩
  | succ n ih =>
    rcases body.walk_meets s (.refl body) .empty hnone halike t1 h with ⟨t2, h2, h12⟩ | ⟨hw, f, hf, hrange⟩
    · rcases h12.cx.assertTest src () htest with ⟨⟨⟩, htest2, -⟩ | ⟨hw, f, hf, hrange⟩
      · simp only [laps, h2, htest2, bind, Except.bind]
        exact ih h12.cx h2 htest2
      · simp only [laps, h2, hf, bind, Except.bind]
        exact .inr ⟨hw, f, rfl, hrange⟩
    · simp only [laps, hf, bind, Except.bind]
      exact .inr ⟨hw, f, rfl, hrange⟩

/-- After the first and after the second lap the contexts are alike but for their ranges. -/
theorem Block.alike_laps (hfree : body.isJumpFree = true) (hw : t.cx.writeable.Nodup) (h1 : body.walk s t = .ok t1)
    (h2 : body.walk s t1 = .ok t2) (hgotos : t1.cx.gotos = []) : Alike s .lax t1.cx t2.cx := by
  have hw1 := (body.walk_orderly s h1).writeable hw
  have hw2 := (body.walk_orderly s h2).writeable hw1.1
  refine ⟨fun r => ?_, nofun, ⟨hw1.1, hw2.1⟩, fun r => (hw2.2 r).symm, ?_, fun r => ?_, (body.walk_keeps s h2).assoc⟩
  · by_cases hr : ∃ c, r = .constant c
    · exact .inl hr
    · exact .inr (congrArg Standing.held (body.walk_twice hfree h1 h2 fun c hc => hr ⟨c, hc⟩).1)
  · rw [body.walk_closes s h2, body.closes_of_jumpFree hfree]
  · have hmet := (body.walk_twice hfree h1 h2 (r := .a) nofun).2
    rw [hgotos] at hmet ⊢
    rw [List.subset_nil.1 hmet]

end

/-- A loop that was accepted can go on for any number of laps, unless it comes to fail at a range; and if the second lap has left the
ranges as the first one did, it does not fail at all. -/
theorem Instr.further_laps_fail_at_ranges (s : Setting) (line : Nat) (src : Option Ref) (inv : Bool) (body : Block) (t t' : Trail)
    (hw : t.cx.writeable.Nodup) (h : (Instr.loop line src inv body).walk s t = .ok t') :
    (∀ n f, body.laps s src n t' = .error f → f.isRange = true)
      ∧ ∀ t₁, body.walk s t = .ok t₁ → (∀ r, t'.cx.range? r = t₁.cx.range? r) → ∀ n, ∃ t'', body.laps s src n t' = .ok t'' := by
  have hfree := (Instr.loop line src inv body).jumpFree_of_refusesGotos h rfl (List.mem_singleton_self body)
  simp only [Instr.walk, bind_eq_ok, pure_eq_ok] at h
  obtain ⟨t₁, h₁, ⟨⟩, -, ⟨⟩, hnone, t₂, h₂, ⟨⟩, htest, rfl⟩ := h
  have halike := body.alike_laps hfree hw h₁ h₂ (Focus.refuseGotos_ok hnone)
  constructor
  · intro n f hf
    rcases Block.laps_goes_on (Set.empty_subset _) n halike h₂ htest with ⟨t', ht'⟩ | ⟨-, f', hf', hrange⟩
    · cases hf.symm.trans ht'
    · cases hf.symm.trans hf'
      exact hrange
  · intro u hu hsame n
    cases h₁.symm.trans hu
    have hsame : Alike s (.more ∅) t₁.cx t₂.cx := { halike with range := fun r => .inl (hsame r), touched := by rintro ⟨⟩ }
    exact (Block.laps_goes_on (Set.empty_subset _) n hsame h₂ htest).resolve_right (by rintro ⟨⟨⟩, -⟩)

/-! ### A table left in the third lap -/

/-- A routine that reads the cells of a table may change the accumulator, `x` and the flags. -/
def scanningSignature : Signature :=
  { inputs := [⟨"tab", none⟩], trashes := [⟨"a", none⟩, ⟨"x", none⟩, ⟨"z", none⟩, ⟨"n", none⟩] }

/-- A table of two bytes, and the routine. -/
def scanningSymbols : Symbols :=
  (Symbols.initial.declare "tab" ⟨.builtin, .table .byte 2⟩).declare "main" ⟨.builtin, .routine scanningSignature⟩

/-- The setting of the routine. -/
def scanningSetting : Setting := ⟨scanningSymbols, "main", 0⟩

/-- Reads a cell of the table, and then does something to `x`. -/
def scanning (op : Op) : Block :=
  .cons (.op 0 (.ld .a (.indexed (.location "tab") (.constant ⟨.byte, 0⟩) .x))) (.cons (.op 0 op) (.nil 0))

/-- The routine: starts at the first cell, and goes on until the zero flag is set. -/
def scanningRoutine (op : Op) : Routine :=
  ⟨0, "main", none, [], some (.cons (.op 0 (.ld .x (.constant ⟨.byte, 0⟩))) (.cons (.loop 0 (some .z) false (scanning op)) (.nil 0))), false⟩

/-- Where the loop begins. -/
def scanningStart : Trail :=
  ⟨{ ranges := ⟨[(.location "tab", .ofInts (0, 1)), (.x, .ofInts (0, 0))]⟩, writeable := [.a, .x, .z, .n] }, [], []⟩

/-- If `x` is set to the second cell in each lap, the second lap leaves the ranges as the first one did, and the loop can go on. -/
theorem scanning_goes_on :
    let body := scanning (.ld .x (.constant ⟨.byte, 1⟩))
    ∃ t₁ t', body.walk scanningSetting scanningStart = .ok t₁
      ∧ (Instr.loop 0 (some .z) false body).walk scanningSetting scanningStart = .ok t'
      ∧ (∀ r, t'.cx.range? r = t₁.cx.range? r) ∧ ∀ n, ∃ t'', body.laps scanningSetting (some .z) n t' = .ok t'' := by
  intro body
  have hruns : (body.walk scanningSetting scanningStart >>= fun t₁ =>
      ((Instr.loop 0 (some .z) false body).walk scanningSetting scanningStart).map fun t' =>
        decide (t'.cx.ranges.entries = t₁.cx.ranges.entries)).toOption = some true := by
    decide +kernel
  simp only [toOption_eq_some, bind_eq_ok, map_eq_ok, decide_eq_true_eq] at hruns
  obtain ⟨t₁, h₁, t', h, hentries⟩ := hruns
  have hsame : ∀ r, t'.cx.range? r = t₁.cx.range? r := fun r => by rw [range?, range?, Assoc.get?, Assoc.get?, hentries]
  exact ⟨t₁, t', h₁, h, hsame,
    (Instr.further_laps_fail_at_ranges scanningSetting 0 (some .z) false body scanningStart t' (by decide) h).2 t₁ h₁ hsame⟩

/-- If `x` is counted up, the routine is accepted, but it reads beyond the table in the third lap. -/
theorem scanning_leaves_table :
    let body := scanning (.inc .x)
    ((scanningRoutine (.inc .x)).analyse scanningSymbols).2.isOk = true
      ∧ ∃ t', (Instr.loop 0 (some .z) false body).walk scanningSetting scanningStart = .ok t'
        ∧ (body.laps scanningSetting (some .z) 1 t').isOk = false := by
  intro body
  refine ⟨by decide +kernel, ?_⟩
  have hruns : (((Instr.loop 0 (some .z) false body).walk scanningSetting scanningStart).map fun t' =>
      (body.laps scanningSetting (some .z) 1 t').isOk).toOption = some false := by
    decide +kernel
  simpa only [toOption_eq_some, map_eq_ok] using hruns

end CheckedAsm
