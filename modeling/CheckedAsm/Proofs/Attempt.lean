/-! # Computations that may fail

A computation that came to its end tells what each of its steps gave. -/

namespace CheckedAsm

variable {α β ε : Type}

theorem bind_eq_ok {x : Except ε α} {f : α → Except ε β} {b : β} : (x >>= f) = .ok b ↔ ∃ a, x = .ok a ∧ f a = .ok b := by
  cases x <;> simp [bind, Except.bind]

theorem pure_eq_ok {a b : α} : (pure a : Except ε α) = .ok b ↔ a = b := by
  simp [pure, Except.pure]

theorem map_eq_ok {x : Except ε α} {f : α → β} {b : β} : x.map f = .ok b ↔ ∃ a, x = .ok a ∧ f a = b := by
  cases x <;> simp [Except.map]

theorem toOption_eq_some {x : Except ε α} {a : α} : x.toOption = some a ↔ x = .ok a := by
  cases x <;> simp [Except.toOption]

theorem isOk_iff {x : Except ε α} : x.isOk = true ↔ ∃ a, x = .ok a := by
  cases x <;> simp [Except.isOk, Except.toBool]

theorem error_bind_ne_ok {e : ε} {f : α → Except ε β} {b : β} : ((Except.error e : Except ε α) >>= f) = .ok b ↔ False := by
  simp [bind, Except.bind]

/-- A check that failed ends the computation. -/
theorem guard_eq_ok {c : Prop} [Decidable c] {e : ε} {f : α → Except ε β} {x : Except ε β} {b : β} :
    (if c then (Except.error e : Except ε α) >>= f else x) = .ok b ↔ ¬ c ∧ x = .ok b := by
  by_cases h : c <;> simp [h, bind, Except.bind]

theorem forM_eq_ok {f : α → Except ε Unit} {l : List α} : l.forM f = .ok () ↔ ∀ a ∈ l, f a = .ok () := by
  induction l with
  | nil => simp [List.forM, pure, Except.pure]
  | cons a l ih =>
    change (f a >>= fun _ => l.forM f) = _ ↔ _
    rw [bind_eq_ok]
    constructor
    · rintro ⟨⟨⟩, ha, hl⟩
      exact List.forall_mem_cons.2 ⟨ha, ih.1 hl⟩
    · intro h
      exact ⟨(), h a (by simp), ih.2 fun b hb => h b (by simp [hb])⟩

/-- What holds from each state to the next holds from the first to the last. -/
theorem foldlM_induct {f : β → α → Except ε β} {R : β → β → Prop} (hrefl : ∀ b, R b b)
    (htrans : ∀ {b b1 b'}, R b b1 → R b1 b' → R b b') (hstep : ∀ {b a b'}, f b a = .ok b' → R b b') {l : List α}
    {b b' : β} (h : l.foldlM f b = .ok b') : R b b' := by
  induction l generalizing b with
  | nil =>
    cases h
    exact hrefl _
  | cons a l ih =>
    rw [List.foldlM_cons, bind_eq_ok] at h
    obtain ⟨b1, h1, h2⟩ := h
    exact htrans (hstep h1) (ih h2)

/-- What no step changes is the same in the end. -/
theorem foldl_keeps {γ : Type} (f : β → α → β) (g : β → γ) (h : ∀ b a, g (f b a) = g b) {l : List α} {b : β} :
    g (l.foldl f b) = g b := by
  induction l generalizing b with
  | nil => rfl
  | cons a l ih => exact ih.trans (h b a)

/-! ### Computations side by side -/

/-- Where the first computation comes to its end, so does the second, with a related result. -/
def Tracks (R : α → β → Prop) (x : Except ε α) (y : Except ε β) : Prop :=
  ∀ a, x = .ok a → ∃ b, y = .ok b ∧ R a b

namespace Tracks

variable {γ δ : Type} {R : α → β → Prop} {Q : γ → δ → Prop} {x : Except ε α} {y : Except ε β}

theorem pure {a : α} {b : β} (h : R a b) : Tracks (ε := ε) R (pure a) (pure b) := by
  intro a' ha
  rw [pure_eq_ok] at ha
  exact ⟨b, rfl, ha ▸ h⟩

theorem bind {f : α → Except ε γ} {g : β → Except ε δ} (h : Tracks R x y)
    (hf : ∀ a b, x = .ok a → R a b → Tracks Q (f a) (g b)) : Tracks Q (x >>= f) (y >>= g) := by
  intro c hc
  obtain ⟨a, ha, hc⟩ := bind_eq_ok.1 hc
  obtain ⟨b, hb, hab⟩ := h a ha
  obtain ⟨d, hd, hcd⟩ := hf a b ha hab c hc
  exact ⟨d, bind_eq_ok.2 ⟨b, hb, hd⟩, hcd⟩

/-- The first step may be the same in both. -/
theorem after {f : α → Except ε γ} {g : α → Except ε δ} (hf : ∀ a, x = .ok a → Tracks Q (f a) (g a)) :
    Tracks Q (x >>= f) (x >>= g) := by
  have hx : Tracks (fun a b => a = b) x x := fun a ha => ⟨a, ha, rfl⟩
  exact hx.bind fun a b ha hab => hab ▸ hf a ha

end Tracks

end CheckedAsm
