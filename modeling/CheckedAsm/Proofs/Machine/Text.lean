import CheckedAsm.Proofs.Machine.Cpu
/-! # Runs of the machine

A text is a stretch of instructions at an address. The machine steps through it until it leaves: by a jump
to a label that stands elsewhere, by a return, or by reaching an address where the text has no instruction. What
a called routine does is given from outside; one that never returns keeps the machine where it is. -/

namespace CheckedAsm

open List

variable {p pc : Int} {xs ys : List Code} {σ : Cpu} {c : Code}

/-- Items at an address, and which labels stand among them. -/
structure Text where
  start : Int
  items : List Item
  inner : LabelId → Bool

/-- What lies outside a text: where labels stand, which trampolines there are, and what the routine at
the place of a call or a jump does until it returns. -/
structure Host where
  labels : Labels
  trampolines : Assoc String LabelId
  callee : Operand → Cpu → Option Cpu

/-- Where the machine is. -/
inductive Status where
  | here (pc : Int) (σ : Cpu)
  | left (target : Operand) (σ : Cpu)
  | returned (σ : Cpu)

/-- The room of an item, where it is known. -/
def Item.width (i : Item) : Int :=
  match i.room with
  | .ok n => n
  | .error _ => 0

theorem Item.width_item (c : Code) : c.item.width = c.size := rfl

/-- The item at an address, where the first item stands at `p`. -/
def fetchFrom (p : Int) : List Item → Int → Option Item
  | [], _ => none
  | i :: rest, pc => if pc = p then some i else fetchFrom (p + i.width) rest pc

namespace Text

/-- The item at an address. -/
def fetch (T : Text) (pc : Int) : Option Item := fetchFrom T.start T.items pc

/-- Where a jump goes: on within the text, or away. -/
def jump (T : Text) (h : Host) (σ : Cpu) (o : Operand) : Status :=
  match o with
  | .absolute (.label id) => if T.inner id then .here (h.labels.place id) σ else .left o σ
  | o => .left o σ

/-- One instruction at an address. -/
def perform (T : Text) (h : Host) (pc : Int) (σ : Cpu) (k : Code) : Status :=
  match k.mnemonic.taken? σ with
  | some b => .here (if b then k.operand.place h.labels σ else pc + k.size) σ
  | none =>
    match k.mnemonic with
    | .jmp => T.jump h σ k.operand
    | .jsr =>
      match h.callee k.operand σ with
      | some σ' => .here (pc + k.size) σ'
      | none => .here pc σ
    | .rts => .returned σ
    | _ => .here (pc + k.size) (k.exec h.labels σ)

/-- One step. Where there is no instruction the machine stays. -/
def step (T : Text) (h : Host) : Status → Status
  | .here pc σ =>
    match T.fetch pc with
    | some (.code m o) => T.perform h pc σ ⟨m, o⟩
    | _ => .here pc σ
  | s => s

/-- Some steps. -/
def run (T : Text) (h : Host) : Nat → Status → Status
  | 0, s => s
  | k + 1, s => run T h k (T.step h s)

/-- Whether the machine is at an item of the text. -/
def Inside (T : Text) (s : Status) : Prop := ∃ pc σ, s = .here pc σ ∧ (T.fetch pc).isSome

/-- The machine comes from one state to another. -/
def Reaches (T : Text) (h : Host) (s s' : Status) : Prop := ∃ k, T.run h k s = s'

/-- After some steps the machine is still inside. -/
def Lasts (T : Text) (h : Host) (k : Nat) (s : Status) : Prop := T.Inside (T.run h k s)

variable {T : Text} {h : Host} {s s' s'' : Status} {k n : Nat}

/-! ### Sequences of steps -/

theorem run_add (k n : Nat) (s : Status) : T.run h (k + n) s = T.run h n (T.run h k s) := by
  induction k generalizing s with
  | zero => rw [Nat.zero_add]; rfl
  | succ k ih => rw [Nat.succ_add]; exact ih _

theorem Reaches.refl (s : Status) : T.Reaches h s s := ⟨0, rfl⟩

theorem Reaches.trans : T.Reaches h s s' → T.Reaches h s' s'' → T.Reaches h s s'' := by
  rintro ⟨k, rfl⟩ ⟨n, rfl⟩
  exact ⟨k + n, run_add k n s⟩

theorem Reaches.step (hs : T.step h s = s') (hr : T.Reaches h s' s'') : T.Reaches h s s'' := by
  obtain ⟨k, rfl⟩ := hr
  exact ⟨k + 1, by rw [run, hs]⟩

theorem step_of_not_inside (hs : ¬ T.Inside s) : T.step h s = s := by
  cases s with
  | here pc σ =>
    have hf : T.fetch pc = none := by
      rw [← Option.not_isSome_iff_eq_none]
      exact fun hi => hs ⟨pc, σ, rfl, hi⟩
    simp only [Text.step, hf]
  | left => rfl
  | returned => rfl

theorem run_of_not_inside (hs : ¬ T.Inside s) (k : Nat) : T.run h k s = s := by
  induction k with
  | zero => rfl
  | succ k ih => rw [run, step_of_not_inside hs, ih]

/-- The machine stops in one state only. -/
theorem Reaches.unique (h1 : T.Reaches h s s') (h2 : T.Reaches h s s'') (hs' : ¬ T.Inside s')
    (hs'' : ¬ T.Inside s'') : s' = s'' := by
  obtain ⟨k, rfl⟩ := h1
  obtain ⟨n, rfl⟩ := h2
  rw [← run_of_not_inside hs' n, ← run_of_not_inside hs'' k, ← run_add, ← run_add, Nat.add_comm]

/-- A machine that stops does not last. -/
theorem not_lasts_of_reaches (hr : T.Reaches h s s') (hs' : ¬ T.Inside s') :
    ¬ ∀ n, T.Lasts h n s := by
  obtain ⟨k, rfl⟩ := hr
  exact fun hl => hs' (hl k)

theorem Lasts.of_add (hl : T.Lasts h (k + n) s) : T.Lasts h k s := by
  unfold Lasts at hl ⊢
  rw [run_add] at hl
  refine Classical.byContradiction fun hk => ?_
  rw [run_of_not_inside hk] at hl
  exact hk hl

theorem Lasts.of_le (hl : T.Lasts h n s) (hk : k ≤ n) : T.Lasts h k s := by
  obtain ⟨m, rfl⟩ := Nat.exists_eq_add_of_le hk
  exact hl.of_add

/-- What lasts after a stretch of steps lasted before it. -/
theorem Lasts.of_reaches (hr : T.Reaches h s s') (hl : T.Lasts h n s') : T.Lasts h n s := by
  obtain ⟨k, rfl⟩ := hr
  have hkn : T.Lasts h (k + n) s := by
    unfold Lasts at hl ⊢
    rwa [run_add]
  exact hkn.of_le (Nat.le_add_left n k)

theorem Lasts.succ (hs : T.step h s = s') (hl : T.Lasts h n s') : T.Lasts h (n + 1) s := by
  unfold Lasts at hl ⊢
  rwa [run, hs]

/-! ### Instructions in place -/

/-- The text has some instructions at an address. -/
def Holds (T : Text) : Int → List Code → Prop
  | _, [] => True
  | p, c :: cs => T.fetch p = some c.item ∧ T.Holds (p + c.size) cs

theorem holds_append : T.Holds p (xs ++ ys) ↔ T.Holds p xs ∧ T.Holds (p + Code.room xs) ys := by
  induction xs generalizing p with
  | nil => simp [Holds, Code.room]
  | cons c xs ih =>
    simp only [cons_append, Holds, ih, Code.room_cons, and_assoc, Int.add_assoc]

theorem fetchFrom_append (p : Int) (xs : List Code) (c : Code) (rest : List Item) :
    fetchFrom p (xs.map Code.item ++ c.item :: rest) (p + Code.room xs) = some c.item := by
  induction xs generalizing p with
  | nil => simp [fetchFrom, Code.room]
  | cons d xs ih =>
    have hd := d.size_pos
    have hx := Code.room_nonneg xs
    rw [map_cons, cons_append, fetchFrom, Code.room_cons, Item.width_item,
      if_neg (by omega), ← Int.add_assoc, ih]

theorem fetchFrom_past (p pc : Int) (xs : List Code) (hpc : p + Code.room xs ≤ pc) :
    fetchFrom p (xs.map Code.item) pc = none := by
  induction xs generalizing p with
  | nil => rfl
  | cons d xs ih =>
    have hd := d.size_pos
    have hx := Code.room_nonneg xs
    rw [Code.room_cons] at hpc
    rw [map_cons, fetchFrom, Item.width_item, if_neg (by omega), ih _ (by omega)]

/-- A text holds the instructions it is made of. -/
theorem holds_of_items (hi : T.items = (xs ++ ys).map Code.item) : T.Holds (T.start + Code.room xs) ys := by
  induction ys generalizing xs with
  | nil => trivial
  | cons c ys ih =>
    refine ⟨?_, ?_⟩
    · rw [fetch, hi, map_append, map_cons]
      exact fetchFrom_append _ _ _ _
    · have hxs := @ih (xs ++ [c]) (by rw [hi, append_assoc]; rfl)
      rwa [Code.room_append, Code.room_cons, Code.room_nil, Int.add_zero, ← Int.add_assoc] at hxs

theorem step_of_fetch (hf : T.fetch pc = some c.item) : T.step h (.here pc σ) = T.perform h pc σ c := by
  simp only [Text.step, hf, Code.item]

theorem step_plain (hf : T.fetch pc = some c.item) (hc : c.mnemonic.isPlain) :
    T.step h (.here pc σ) = .here (pc + c.size) (c.exec h.labels σ) := by
  rw [step_of_fetch hf]
  obtain ⟨m, o⟩ := c
  cases m <;> first | rfl | simp [Mnemonic.isPlain] at hc

theorem step_branch {m : Mnemonic} {id : LabelId} {b : Bool}
    (hf : T.fetch pc = some (.code m (.relative id))) (hb : m.taken? σ = some b) :
    T.step h (.here pc σ) = .here (if b then h.labels.place id else pc + 2) σ := by
  have hs := step_of_fetch (h := h) (σ := σ) (c := ⟨m, .relative id⟩) hf
  rw [hs, perform, hb]
  rfl

theorem reaches_plain {cs : List Code} (hc : T.Holds p cs) (hp : ∀ c ∈ cs, c.mnemonic.isPlain) :
    T.Reaches h (.here p σ) (.here (p + Code.room cs) (Code.execAll h.labels cs σ)) := by
  induction cs generalizing p σ with
  | nil =>
    rw [Code.room_nil, Int.add_zero]
    exact Reaches.refl _
  | cons c cs ih =>
    rw [Code.room_cons, ← Int.add_assoc]
    exact .step (step_plain hc.1 (hp c mem_cons_self))
      (ih hc.2 fun d hd => hp d (mem_cons_of_mem c hd))

end Text

end CheckedAsm
