import CheckedAsm.Proofs.Codegen.Flow
/-! # Instructions that come in pairs

A byte that is put on the stack is to be taken off again, and interrupts that are held off are to be let in again. Along a
path of control, an instruction that opens such a pair is open until one that closes it takes it away, the last one first.
Code nests where what is open at each of its places is the same by whichever way control comes there. Stretches of code that
nest are put together as the structure of the code is: one after the other, as a choice, as a loop. -/

namespace CheckedAsm

open List

/-- A pair of instructions: to put a byte on the stack and to take one off, or to hold interrupts off and to let them in. -/
inductive Bracket where
  | stack
  | interrupts
  deriving DecidableEq

variable {α : Type} {B : Bracket} {b m : Mnemonic} {T : Text} {ls : Labels} {xs : List Int} {k : Code} {pc pc' : Int}
  {ks : List Code}

namespace Bracket

def opening : Bracket → Mnemonic
  | stack => .pha
  | interrupts => .sei

def closing : Bracket → Mnemonic
  | stack => .pla
  | interrupts => .cli

variable {β : Type} {x y : α} {xs : List α}

/-- What is open after an instruction. One that closes needs something to close. -/
def after (B : Bracket) (m : Mnemonic) (x : α) (xs : List α) : Option (List α) :=
  if m = B.opening then some (x :: xs) else if m = B.closing then xs.tail? else some xs

theorem after_opening : B.after B.opening x xs = some (x :: xs) := if_pos rfl

theorem after_closing : B.after B.closing x (y :: xs) = some xs := by
  cases B <;> rfl

theorem after_other (ho : m ≠ B.opening) (hc : m ≠ B.closing) : B.after m x xs = some xs := by
  rw [after, if_neg ho, if_neg hc]

theorem ne_of_sparesSystem (hm : m.sparesSystem = true) : m ≠ B.opening ∧ m ≠ B.closing := by
  cases B <;> constructor <;> rintro rfl <;> cases hm

theorem after_map (f : α → β) : (B.after m x xs).map (List.map f) = B.after m (f x) (xs.map f) := by
  unfold after
  split
  · rfl
  · split
    · cases xs <;> rfl
    · rfl

end Bracket

theorem Mnemonic.not_isPlain_of_isBranch (hm : m.isBranch = true) : m.isPlain = false := by
  cases m <;> first | rfl | cases hm

theorem Mnemonic.sparesSystem_of_isBranch (hm : m.isBranch = true) : m.sparesSystem = true := by
  cases m <;> first | rfl | cases hm

/-! ### Paths -/

namespace Text

variable {path : List Int}

/-- Control passes the places of a path, the last one first in the list, and comes to a place. -/
inductive Passes (T : Text) (ls : Labels) : List Int → Int → Prop
  | start : T.Passes ls [] T.start
  | step {path : List Int} {pc pc' : Int} : T.Passes ls path pc → T.Goes ls pc pc' → T.Passes ls (pc :: path) pc'

/-- What the instruction at a place does. -/
def mnemonic? (T : Text) (pc : Int) : Option Mnemonic :=
  match T.fetch pc with
  | some (.code m _) => some m
  | _ => none

theorem mnemonic?_of_fetch (h : T.fetch pc = some k.item) : T.mnemonic? pc = some k.mnemonic := by
  simp only [mnemonic?, h, Code.item]

/-- The members of a path that are open at its end, the last one first; none if something was closed that was not open. -/
def opened (T : Text) (B : Bracket) (place : α → Int) : List α → Option (List α)
  | [] => some []
  | x :: path => (T.opened B place path).bind fun xs =>
    match T.mnemonic? (place x) with
    | some m => B.after m x xs
    | none => some xs

theorem opened_cons {place : α → Int} {x : α} {path xs : List α} (h : T.opened B place path = some xs)
    (hf : T.fetch (place x) = some k.item) : T.opened B place (x :: path) = B.after k.mnemonic x xs := by
  rw [opened, h, Option.bind_some, mnemonic?_of_fetch hf]

/-- A member more of a path opens, closes or does neither. -/
theorem opened_cases {place : α → Int} {x : α} {path xs : List α} (h : T.opened B place (x :: path) = some xs) :
    ∃ ys, T.opened B place path = some ys
      ∧ ((T.mnemonic? (place x) = some B.opening ∧ xs = x :: ys)
        ∨ (T.mnemonic? (place x) = some B.closing ∧ ∃ y, ys = y :: xs)
        ∨ (T.mnemonic? (place x) ≠ some B.opening ∧ T.mnemonic? (place x) ≠ some B.closing ∧ xs = ys)) := by
  rw [opened, Option.bind_eq_some_iff] at h
  obtain ⟨ys, hys, h⟩ := h
  refine ⟨ys, hys, ?_⟩
  cases hm : T.mnemonic? (place x) with
  | none =>
    rw [hm] at h
    exact .inr (.inr ⟨nofun, nofun, (Option.some.inj h).symm⟩)
  | some m =>
    rw [hm] at h
    have h : B.after m x ys = some xs := h
    by_cases ho : m = B.opening
    · rw [ho, Bracket.after_opening] at h
      exact .inl ⟨congrArg some ho, (Option.some.inj h).symm⟩
    · by_cases hc : m = B.closing
      · rw [hc] at h
        cases ys with
        | nil => cases B <;> cases h
        | cons y ys =>
          rw [Bracket.after_closing] at h
          exact .inr (.inl ⟨congrArg some hc, y, by rw [Option.some.inj h]⟩)
      · rw [Bracket.after_other ho hc] at h
        exact .inr (.inr ⟨fun h => ho (Option.some.inj h), fun h => hc (Option.some.inj h), (Option.some.inj h).symm⟩)

/-- What is open was passed. -/
theorem opened_subset (h : T.opened B id path = some xs) : xs ⊆ path := by
  induction path generalizing xs with
  | nil =>
    cases h
    exact List.Subset.refl _
  | cons pc path ih =>
    obtain ⟨ys, hys, hcases⟩ := opened_cases h
    have hold : ys ⊆ pc :: path := subset_cons_of_subset pc (ih hys)
    rcases hcases with ⟨-, rfl⟩ | ⟨-, y, rfl⟩ | ⟨-, -, rfl⟩
    · exact cons_subset.2 ⟨mem_cons_self, hold⟩
    · exact (cons_subset.1 hold).2
    · exact hold

/-- Where control goes from an instruction. -/
theorem Goes.cases_of_fetch (hf : T.fetch pc = some k.item) (hg : T.Goes ls pc pc') :
    pc' = pc + k.size ∨ (k.mnemonic.isBranch = true ∧ ∃ id, k.operand = .relative id ∧ pc' = ls.place id)
      ∨ (k.mnemonic = .jmp ∧ ∃ id, k.operand = .wide id ∧ T.inner id = true ∧ pc' = ls.place id) := by
  cases hg with
  | on hd _ _ =>
    obtain rfl := Code.item_inj (Option.some.inj (hf.symm.trans hd))
    exact .inl rfl
  | @branch m id hd hm =>
    obtain rfl := Code.item_inj (d := ⟨m, .relative id⟩) (Option.some.inj (hf.symm.trans hd))
    exact .inr (.inl ⟨hm, id, rfl, rfl⟩)
  | @jump id hd hid =>
    obtain rfl := Code.item_inj (d := ⟨.jmp, .wide id⟩) (Option.some.inj (hf.symm.trans hd))
    exact .inr (.inr ⟨rfl, id, rfl, hid, rfl⟩)

theorem Goes.fetch (h : T.Goes ls pc pc') : ∃ k : Code, T.fetch pc = some k.item := by
  cases h with
  | on hf => exact ⟨_, hf⟩
  | @branch m id hf => exact ⟨⟨m, .relative id⟩, hf⟩
  | @jump id hf => exact ⟨⟨.jmp, .wide id⟩, hf⟩

theorem Goes.of_plain (hf : T.fetch pc = some k.item) (hk : k.mnemonic.isPlain = true) (hg : T.Goes ls pc pc') :
    pc' = pc + k.size := by
  rcases hg.cases_of_fetch hf with h | ⟨hb, -⟩ | ⟨hj, -⟩
  · exact h
  · rw [Mnemonic.not_isPlain_of_isBranch hb] at hk
    cases hk
  · rw [hj] at hk
    cases hk

/-! ### Runs -/

/-- The machine comes from the beginning of the text through the states of a history, the last one first in the list, to a place.
A call that does not return ends the run. -/
inductive Traces (T : Text) (h : Host) (σ0 : Cpu) : List (Int × Cpu) → Int → Cpu → Prop
  | start : T.Traces h σ0 [] T.start σ0
  | step {history : List (Int × Cpu)} {pc pc' : Int} {σ σ' : Cpu} : T.Traces h σ0 history pc σ → T.Goes h.labels pc pc' →
      T.step h (.here pc σ) = .here pc' σ' → T.Traces h σ0 ((pc, σ) :: history) pc' σ'

section

variable {h : Host} {σ0 σ σ' : Cpu} {history xs : List (Int × Cpu)}

theorem Traces.passes (hr : T.Traces h σ0 history pc σ) : T.Passes h.labels (history.map Prod.fst) pc := by
  induction hr with
  | start => exact .start
  | step _ hg _ ih => exact .step ih hg

theorem opened_map {place : α → Int} {path : List α} :
    (T.opened B place path).map (List.map place) = T.opened B id (path.map place) := by
  induction path with
  | nil => rfl
  | cons x path ih =>
    rw [map_cons, opened, opened, ← ih]
    cases T.opened B place path with
    | none => rfl
    | some xs =>
      simp only [Option.bind_some, Option.map_some, id_eq]
      cases T.mnemonic? (place x) with
      | none => rfl
      | some m => exact Bracket.after_map place

/-- Whatever is done with a state along a run, it is enough to look at single instructions: at what they do themselves, and at
what the routine that is called does. -/
theorem step_here (hf : T.fetch pc = some k.item) (hs : T.step h (.here pc σ) = .here pc' σ') :
    σ' = k.exec h.labels σ ∨ (k.mnemonic = .jsr ∧ h.callee k.operand σ = some σ') := by
  rw [step_of_fetch hf] at hs
  obtain ⟨m, o⟩ := k
  cases m with
  | jsr =>
    simp only [perform, Mnemonic.taken?] at hs
    cases hc : h.callee o σ with
    | none =>
      rw [hc] at hs
      cases hs
      exact .inl rfl
    | some τ =>
      rw [hc] at hs
      cases hs
      exact .inr ⟨rfl, rfl⟩
  | jmp =>
    simp only [perform, Mnemonic.taken?, jump] at hs
    split at hs
    · split at hs
      · cases hs
        exact .inl rfl
      · cases hs
    · cases hs
  | rts => cases hs
  | _ =>
    cases hs
    exact .inl rfl

/-- One step of a run opens, closes or does neither. -/
theorem opened_step (hg : T.Goes h.labels pc pc') (hs : T.step h (.here pc σ) = .here pc' σ')
    (hx : T.opened B Prod.fst ((pc, σ) :: history) = some xs) :
    ∃ (ys : List (Int × Cpu)) (k : Code), T.opened B Prod.fst history = some ys
      ∧ ((k.mnemonic = B.opening ∧ xs = (pc, σ) :: ys ∧ σ' = k.exec h.labels σ)
        ∨ (k.mnemonic = B.closing ∧ (∃ y, ys = y :: xs) ∧ σ' = k.exec h.labels σ)
        ∨ (k.mnemonic ≠ B.opening ∧ k.mnemonic ≠ B.closing ∧ xs = ys
          ∧ (σ' = k.exec h.labels σ ∨ h.callee k.operand σ = some σ'))) := by
  obtain ⟨k, hf⟩ := hg.fetch
  obtain ⟨ys, hys, hcases⟩ := opened_cases hx
  simp only [mnemonic?_of_fetch hf, Option.some.injEq, ne_eq] at hcases
  have hstep := step_here hf hs
  -- no call opens or closes
  have hexec : k.mnemonic = B.opening ∨ k.mnemonic = B.closing → σ' = k.exec h.labels σ := by
    intro hk
    refine hstep.resolve_right fun hjsr => ?_
    obtain ⟨hcall, -⟩ := hjsr
    rw [hcall] at hk
    cases B <;> rcases hk with hk | hk <;> cases hk
  refine ⟨ys, k, hys, ?_⟩
  rcases hcases with ⟨ho, rfl⟩ | ⟨hc, hy⟩ | ⟨ho, hc, rfl⟩
  · exact .inl ⟨ho, rfl, hexec (.inl ho)⟩
  · exact .inr (.inl ⟨hc, hy, hexec (.inr hc)⟩)
  · exact .inr (.inr ⟨ho, hc, rfl, hstep.imp_right And.right⟩)

end

/-- At the instruction control leaves the text, or, as far as interrupts are concerned, another routine gets it. -/
def Departs (T : Text) (B : Bracket) (k : Code) : Prop :=
  k.mnemonic = .rts ∨ (k.mnemonic = .jmp ∧ ∀ id, k.operand = .wide id → T.inner id = false)
    ∨ (B = .interrupts ∧ k.mnemonic = .jsr)

end Text

/-! ### Nesting -/

/-- Which pairs are looked at, which places of theirs belong together, and which of them may be open where control
departs. -/
structure Discipline where
  bracket : Bracket
  Pairs : Int → Int → Prop
  Stays : Int → Prop

/-- With the first places open, an instruction is as the discipline asks for, and leaves the second places open. -/
structure Discipline.Admits (D : Discipline) (T : Text) (pc : Int) (k : Code) (xs ys : List Int) : Prop where
  after : D.bracket.after k.mnemonic pc xs = some ys
  closes : k.mnemonic = D.bracket.closing → ∃ x ∈ xs.head?, D.Pairs x pc
  departs : T.Departs D.bracket k → ∀ x ∈ xs, D.Stays x

/-- What may be open at the places of some code. -/
abbrev Chart := Int → List Int → Prop

/-- Control is at a place of the chart, or at the end with what is to be open there. -/
def Chart.Arrives (R : Chart) (q : Int) (ys : List Int) (pc : Int) (zs : List Int) : Prop := R pc zs ∨ (pc = q ∧ zs = ys)

/-- The chart tells what is open in the code from one address to another, in the beginning and at the end as given. A jump is
taken to go on with the next instruction, too. -/
structure Text.Charts (T : Text) (ls : Labels) (D : Discipline) (p q : Int) (xs ys : List Int) (R : Chart) : Prop where
  enters : R.Arrives q ys p xs
  admits : ∀ pc zs, R pc zs → ∃ (k : Code) (zs' : List Int), T.fetch pc = some k.item ∧ p ≤ pc ∧ pc + k.size ≤ q
    ∧ D.Admits T pc k zs zs' ∧ R.Arrives q ys (pc + k.size) zs' ∧ ∀ pc', T.Goes ls pc pc' → R.Arrives q ys pc' zs'

/-- The code from one address to another nests: some chart tells what is open in it. -/
def Text.Nests (T : Text) (ls : Labels) (D : Discipline) (p q : Int) (xs ys : List Int) : Prop := ∃ R, T.Charts ls D p q xs ys R

variable {D : Discipline} {R R1 R2 : Chart} {p q m : Int} {ys zs t : List Int} {id : LabelId}

theorem Discipline.Admits.level (hk : k.mnemonic.sparesSystem = true) (hd : T.Departs D.bracket k → ∀ x ∈ xs, D.Stays x) :
    D.Admits T pc k xs xs := by
  obtain ⟨ho, hc⟩ := Bracket.ne_of_sparesSystem (B := D.bracket) hk
  exact ⟨Bracket.after_other ho hc, fun h => (hc h).elim, hd⟩

theorem Text.not_departs_of_plain (hk : k.mnemonic.isPlain = true) : ¬ T.Departs B k := by
  obtain ⟨m, o⟩ := k
  rintro (h | ⟨h, -⟩ | ⟨-, h⟩)
  all_goals
    cases h
    cases hk

theorem Text.not_departs_of_branch (hk : k.mnemonic.isBranch = true) : ¬ T.Departs B k := by
  obtain ⟨m, o⟩ := k
  rintro (h | ⟨h, -⟩ | ⟨-, h⟩)
  all_goals
    cases h
    cases hk

theorem Chart.Arrives.left (h : R1.Arrives m ys pc t) (hnext : R2.Arrives q zs m ys) :
    Chart.Arrives (fun pc t => R1 pc t ∨ R2 pc t) q zs pc t := by
  rcases h with h | ⟨rfl, rfl⟩
  · exact .inl (.inl h)
  · exact hnext.imp_left .inr

theorem Chart.Arrives.right (h : R2.Arrives q zs pc t) : Chart.Arrives (fun pc t => R1 pc t ∨ R2 pc t) q zs pc t :=
  h.imp_left .inr

namespace Text.Charts

theorem le (h : T.Charts ls D p q xs ys R) : p ≤ q := by
  rcases h.enters with h1 | ⟨rfl, -⟩
  · obtain ⟨k, -, -, -, hq, -⟩ := h.admits _ _ h1
    have hk := k.size_pos
    omega
  · exact Int.le_refl p

theorem skip : T.Charts ls D p p xs xs fun _ _ => False := ⟨.inr ⟨rfl, rfl⟩, fun _ _ h => h.elim⟩

/-- One stretch after another. -/
theorem seq (h1 : T.Charts ls D p m xs ys R1) (h2 : T.Charts ls D m q ys zs R2) :
    T.Charts ls D p q xs zs fun pc t => R1 pc t ∨ R2 pc t := by
  refine ⟨h1.enters.left h2.enters, fun pc t ht => ?_⟩
  rcases ht with ht | ht
  · obtain ⟨k, t', hf, hp, hm, hk, hnext, hgoes⟩ := h1.admits pc t ht
    exact ⟨k, t', hf, hp, Int.le_trans hm h2.le, hk, hnext.left h2.enters, fun pc' hg => (hgoes pc' hg).left h2.enters⟩
  · obtain ⟨k, t', hf, hm, hq, hk, hnext, hgoes⟩ := h2.admits pc t ht
    exact ⟨k, t', hf, Int.le_trans h1.le hm, hq, hk, hnext.right, fun pc' hg => (hgoes pc' hg).right⟩

/-- An instruction before a stretch, from which control goes on or into the stretch. -/
theorem cons (hf : T.fetch p = some k.item) (hk : D.Admits T p k xs ys) (h : T.Charts ls D (p + k.size) q ys zs R)
    (hgoes : ∀ pc', T.Goes ls p pc' → pc' = p + k.size ∨ R.Arrives q zs pc' ys) :
    T.Charts ls D p q xs zs fun pc t => (pc = p ∧ t = xs) ∨ R pc t := by
  have hsize := k.size_pos
  refine ⟨.inl (.inl ⟨rfl, rfl⟩), fun pc t ht => ?_⟩
  rcases ht with ⟨rfl, rfl⟩ | ht
  · refine ⟨k, ys, hf, Int.le_refl pc, h.le, hk, h.enters.right, fun pc' hg => ?_⟩
    rcases hgoes pc' hg with rfl | harrives
    · exact h.enters.right
    · exact harrives.right
  · obtain ⟨d, t', hf', hp, hq, hd, hnext, hgoes'⟩ := h.admits pc t ht
    exact ⟨d, t', hf', by omega, hq, hd, hnext.right, fun pc' hg => (hgoes' pc' hg).right⟩

/-- An instruction after a stretch, from which control goes on or back to the beginning. -/
theorem back (h : T.Charts ls D p m xs xs R) (hf : T.fetch m = some k.item) (hk : D.Admits T m k xs xs)
    (hgoes : ∀ pc', T.Goes ls m pc' → pc' = m + k.size ∨ pc' = p) :
    T.Charts ls D p (m + k.size) xs xs fun pc t => R pc t ∨ (pc = m ∧ t = xs) := by
  have hsize := k.size_pos
  have hmiddle : Chart.Arrives (fun pc t => pc = m ∧ t = xs) (m + k.size) xs m xs := .inl ⟨rfl, rfl⟩
  refine ⟨h.enters.left hmiddle, fun pc t ht => ?_⟩
  rcases ht with ht | ⟨rfl, rfl⟩
  · obtain ⟨d, t', hf', hp, hm, hd, hnext, hgoes'⟩ := h.admits pc t ht
    exact ⟨d, t', hf', hp, by omega, hd, hnext.left hmiddle, fun pc' hg => (hgoes' pc' hg).left hmiddle⟩
  · refine ⟨k, t, hf, h.le, le_rfl, hk, .inr ⟨rfl, rfl⟩, fun pc' hg => ?_⟩
    rcases hgoes pc' hg with rfl | rfl
    · exact .inr ⟨rfl, rfl⟩
    · exact h.enters.left hmiddle

end Text.Charts

namespace Text.Nests

theorem skip : T.Nests ls D p p xs xs := ⟨_, .skip⟩

theorem seq : T.Nests ls D p m xs ys → T.Nests ls D m q ys zs → T.Nests ls D p q xs zs := by
  rintro ⟨_, h1⟩ ⟨_, h2⟩
  exact ⟨_, h1.seq h2⟩

/-- An instruction from which control only goes on. -/
theorem cons (hf : T.fetch p = some k.item) (hgoes : ∀ pc', T.Goes ls p pc' → pc' = p + k.size) (hk : D.Admits T p k xs ys)
    (h : T.Nests ls D (p + k.size) q ys zs) : T.Nests ls D p q xs zs := by
  obtain ⟨_, h⟩ := h
  exact ⟨_, .cons hf hk h fun pc' hg => .inl (hgoes pc' hg)⟩

theorem single (hf : T.fetch p = some k.item) (hgoes : ∀ pc', T.Goes ls p pc' → pc' = p + k.size) (hk : D.Admits T p k xs ys) :
    T.Nests ls D p (p + k.size) xs ys := cons hf hgoes hk skip

/-- Straight-line code without any of the pairs. -/
theorem straight (hT : T.Holds p ks) (hks : Code.Straight ks)
    (hnone : ∀ k ∈ ks, k.mnemonic ≠ D.bracket.opening ∧ k.mnemonic ≠ D.bracket.closing) :
    T.Nests ls D p (p + Code.room ks) xs xs := by
  induction ks generalizing p with
  | nil =>
    rw [Code.room_nil, Int.add_zero]
    exact skip
  | cons k ks ih =>
    have hplain := hks k mem_cons_self
    obtain ⟨ho, hc⟩ := hnone k mem_cons_self
    rw [Code.room_cons, ← Int.add_assoc]
    exact cons hT.1 (fun pc' hg => hg.of_plain hT.1 hplain)
      ⟨Bracket.after_other ho hc, fun h => (hc h).elim, fun h => (not_departs_of_plain hplain h).elim⟩
      (ih hT.2 (fun d hd => hks d (mem_cons_of_mem k hd)) fun d hd => hnone d (mem_cons_of_mem k hd))

theorem level (hT : T.Holds p ks) (hks : Code.Level ks) : T.Nests ls D p (p + Code.room ks) xs xs :=
  straight hT hks.straight fun k hk => Bracket.ne_of_sparesSystem (Bool.and_eq_true_iff.1 (hks k hk)).2

theorem goes_branch {m : Mnemonic} (hf : T.fetch p = some (.code m (.relative id))) (hg : T.Goes ls p pc') :
    pc' = p + 2 ∨ pc' = ls.place id := by
  have hf' : T.fetch p = some (Code.item ⟨m, .relative id⟩) := hf
  rcases hg.cases_of_fetch hf' with h | ⟨-, id', ho, h⟩ | ⟨-, id', ho, -⟩
  · exact .inl h
  · cases ho
    exact .inr h
  · cases ho

theorem goes_jump (hf : T.fetch p = some (.code .jmp (.wide id))) (hg : T.Goes ls p pc') : pc' = p + 3 ∨ pc' = ls.place id := by
  have hf' : T.fetch p = some (Code.item ⟨.jmp, .wide id⟩) := hf
  rcases hg.cases_of_fetch hf' with h | ⟨-, id', ho, -⟩ | ⟨-, id', ho, -, h⟩
  · exact .inl h
  · cases ho
  · cases ho
    exact .inr h

theorem admits_branch {m : Mnemonic} (hm : m.isBranch = true) : D.Admits T pc ⟨m, .relative id⟩ xs xs :=
  .level (Mnemonic.sparesSystem_of_isBranch hm) fun h => (not_departs_of_branch (k := ⟨m, .relative id⟩) hm h).elim

theorem admits_jump (hid : T.inner id = true) : D.Admits T pc ⟨.jmp, .wide id⟩ xs xs := by
  refine .level rfl ?_
  rintro (h | ⟨-, h⟩ | ⟨-, h⟩)
  · cases h
  · rw [h id rfl] at hid
    cases hid
  · cases h

/-- A branch over a stretch, into what comes after it. -/
theorem choice (hf : T.fetch p = some (.code b (.relative id))) (hb : b.isBranch = true)
    (hyes : T.Nests ls D (p + 2) m xs xs) (hno : T.Nests ls D m q xs ys) (hid : ls.place id = m) : T.Nests ls D p q xs ys := by
  obtain ⟨_, hyes⟩ := hyes
  obtain ⟨_, hno⟩ := hno
  refine ⟨_, .cons (k := ⟨b, .relative id⟩) hf (admits_branch hb) (hyes.seq hno) fun pc' hg => ?_⟩
  rcases goes_branch hf hg with rfl | rfl
  · exact .inl rfl
  · exact .inr (hid ▸ hno.enters.right)

/-- A branch over a stretch and a jump, into what that jump goes over. -/
theorem choiceElse {id' : LabelId} (hf : T.fetch p = some (.code b (.relative id))) (hb : b.isBranch = true)
    (hyes : T.Nests ls D (p + 2) m xs xs) (hjump : T.fetch m = some (.code .jmp (.wide id'))) (hinner : T.inner id' = true)
    (hno : T.Nests ls D (m + 3) q xs xs) (hid : ls.place id = m + 3) (hid' : ls.place id' = q) : T.Nests ls D p q xs xs := by
  obtain ⟨_, hyes⟩ := hyes
  obtain ⟨_, hno⟩ := hno
  have hskip := Text.Charts.cons (k := ⟨.jmp, .wide id'⟩) hjump (admits_jump hinner) hno fun pc' hg =>
    (goes_jump hjump hg).imp_right fun h => .inr ⟨h.trans hid', rfl⟩
  refine ⟨_, .cons (k := ⟨b, .relative id⟩) hf (admits_branch hb) (hyes.seq hskip) fun pc' hg => ?_⟩
  rcases goes_branch hf hg with rfl | rfl
  · exact .inl rfl
  · exact .inr (hid ▸ hno.enters.right.right)

/-- A branch back to the beginning. -/
theorem repeatWhile (h : T.Nests ls D p m xs xs) (hf : T.fetch m = some (.code b (.relative id)))
    (hb : b.isBranch = true) (hid : ls.place id = p) : T.Nests ls D p (m + 2) xs xs := by
  obtain ⟨_, h⟩ := h
  exact ⟨_, h.back (k := ⟨b, .relative id⟩) hf (admits_branch hb) fun pc' hg =>
    (goes_branch hf hg).imp_right fun hp => hp.trans hid⟩

/-- A jump back to the beginning. -/
theorem repeatForever (h : T.Nests ls D p m xs xs) (hf : T.fetch m = some (.code .jmp (.wide id))) (hinner : T.inner id = true)
    (hid : ls.place id = p) : T.Nests ls D p (m + 3) xs xs := by
  obtain ⟨_, h⟩ := h
  exact ⟨_, h.back (k := ⟨.jmp, .wide id⟩) hf (admits_jump hinner) fun pc' hg =>
    (goes_jump hf hg).imp_right fun hp => hp.trans hid⟩

end Text.Nests

end CheckedAsm
