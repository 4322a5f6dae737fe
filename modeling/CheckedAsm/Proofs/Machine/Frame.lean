import CheckedAsm.Proofs.Machine.Cpu
import Mathlib.Data.Set.Basic
/-! # What instructions leave alone

An instruction changes the registers and flags that belong to it, and at most one byte of the memory. Everything else is
as it was before. -/

namespace CheckedAsm

/-- At most the given registers and flags and the bytes at the given addresses have changed, and whether interrupts are held off
only if it says so. -/
structure Cpu.Keeps (W : Set Ref) (F : Set Int) (I : Prop) (σ σ' : Cpu) : Prop where
  a : Ref.a ∉ W → σ'.a = σ.a
  x : Ref.x ∉ W → σ'.x = σ.x
  y : Ref.y ∉ W → σ'.y = σ.y
  c : Ref.c ∉ W → σ'.c = σ.c
  z : Ref.z ∉ W → σ'.z = σ.z
  n : Ref.n ∉ W → σ'.n = σ.n
  v : Ref.v ∉ W → σ'.v = σ.v
  masked : ¬ I → σ'.masked = σ.masked
  memory : ∀ q ∉ F, σ'.memory q = σ.memory q
  stack : σ'.stack = σ.stack

namespace Cpu.Keeps

variable {W W' : Set Ref} {F F' : Set Int} {I I' : Prop} {σ σ' σ'' : Cpu} {ls : Labels} {o : Operand} {b : UInt8}

theorem refl (σ : Cpu) : σ.Keeps W F I σ where
  a _ := rfl
  x _ := rfl
  y _ := rfl
  c _ := rfl
  z _ := rfl
  n _ := rfl
  v _ := rfl
  masked _ := rfl
  memory _ _ := rfl
  stack := rfl

section

variable (h : σ.Keeps W F I σ')
include h

theorem trans (h' : σ'.Keeps W F I σ'') : σ.Keeps W F I σ'' where
  a hr := (h'.a hr).trans (h.a hr)
  x hr := (h'.x hr).trans (h.x hr)
  y hr := (h'.y hr).trans (h.y hr)
  c hr := (h'.c hr).trans (h.c hr)
  z hr := (h'.z hr).trans (h.z hr)
  n hr := (h'.n hr).trans (h.n hr)
  v hr := (h'.v hr).trans (h.v hr)
  masked hI := (h'.masked hI).trans (h.masked hI)
  memory q hq := (h'.memory q hq).trans (h.memory q hq)
  stack := h'.stack.trans h.stack

/-- What changes little changes no more than what is wider. -/
theorem mono (hW : W ⊆ W') (hF : F ⊆ F') (hI : I → I') : σ.Keeps W' F' I' σ' where
  a hr := h.a fun hr' => hr (hW hr')
  x hr := h.x fun hr' => hr (hW hr')
  y hr := h.y fun hr' => hr (hW hr')
  c hr := h.c fun hr' => hr (hW hr')
  z hr := h.z fun hr' => hr (hW hr')
  n hr := h.n fun hr' => hr (hW hr')
  v hr := h.v fun hr' => hr (hW hr')
  masked hr := h.masked fun hr' => hr (hI hr')
  memory q hq := h.memory q fun hq' => hq (hF hq')
  stack := h.stack

/-! ### Changes of one part -/

theorem mark (hz : Ref.z ∈ W) (hn : Ref.n ∈ W) : σ.Keeps W F I (σ'.mark b) :=
  { h with z := fun hr => (hr hz).elim, n := fun hr => (hr hn).elim }

theorem setA (ha : Ref.a ∈ W) (hz : Ref.z ∈ W) (hn : Ref.n ∈ W) : σ.Keeps W F I (σ'.setA b) :=
  mark { h with a := fun hr => (hr ha).elim } hz hn

theorem setX (hx : Ref.x ∈ W) (hz : Ref.z ∈ W) (hn : Ref.n ∈ W) : σ.Keeps W F I (σ'.setX b) :=
  mark { h with x := fun hr => (hr hx).elim } hz hn

theorem setY (hy : Ref.y ∈ W) (hz : Ref.z ∈ W) (hn : Ref.n ∈ W) : σ.Keeps W F I (σ'.setY b) :=
  mark { h with y := fun hr => (hr hy).elim } hz hn

theorem setC (hc : Ref.c ∈ W) (on : Bool) : σ.Keeps W F I { σ' with c := on } :=
  { h with c := fun hr => (hr hc).elim }

theorem setMask (hI : I) (on : Bool) : σ.Keeps W F I { σ' with masked := on } :=
  { h with masked := fun hr => (hr hI).elim }

theorem add (ha : Ref.a ∈ W) (hz : Ref.z ∈ W) (hn : Ref.n ∈ W) (hc : Ref.c ∈ W) (hv : Ref.v ∈ W) :
    σ.Keeps W F I (σ'.add b) :=
  setA { h with c := fun hr => (hr hc).elim, v := fun hr => (hr hv).elim } ha hz hn

theorem compare {r : UInt8} (hz : Ref.z ∈ W) (hn : Ref.n ∈ W) (hc : Ref.c ∈ W) :
    σ.Keeps W F I (σ'.compare r b) :=
  mark (h.setC hc _) hz hn

theorem poke {p : Int} (hp : p ∈ F) : σ.Keeps W F I (σ'.poke p b) where
  a := h.a
  x := h.x
  y := h.y
  c := h.c
  z := h.z
  n := h.n
  v := h.v
  masked := h.masked
  memory q hq := by
    have hne : q ≠ p := fun heq => hq (heq ▸ hp)
    exact (if_neg hne).trans (h.memory q hq)
  stack := h.stack

end

end Cpu.Keeps

/-! ### Instructions -/

/-- The register that an operand without an address stands for. -/
def Operand.register : Operand → List Ref
  | implied => [.a]
  | _ => []

/-- Whether an instruction puts a byte where its operand leads to. -/
def Mnemonic.isStore : Mnemonic → Bool
  | sta | stx | sty | inc | dec | rol | ror => true
  | _ => false

/-- Whether an instruction leaves the stack and the interrupts alone. -/
def Mnemonic.sparesSystem : Mnemonic → Bool
  | pha | pla | cli | sei => false
  | _ => true

namespace Code

/-- The registers and flags that an instruction changes. -/
def changes (k : Code) : List Ref :=
  match k.mnemonic with
  | .lda | .and | .ora | .eor | .txa | .tya | .pla => [.a, .z, .n]
  | .ldx | .inx | .dex | .tax => [.x, .z, .n]
  | .ldy | .iny | .dey | .tay => [.y, .z, .n]
  | .adc | .sbc => [.a, .z, .n, .c, .v]
  | .cmp | .cpx | .cpy => [.z, .n, .c]
  | .sta | .stx | .sty => k.operand.register
  | .inc | .dec => [.z, .n] ++ k.operand.register
  | .rol | .ror => [.z, .n, .c] ++ k.operand.register
  | .clc | .sec => [.c]
  | _ => []

/-- Whether an instruction stores only at the given addresses. -/
def StoresIn (ls : Labels) (F : Set Int) (σ : Cpu) (k : Code) : Prop :=
  k.mnemonic.isStore = true → k.operand ≠ .implied → k.operand.place ls σ ∈ F

variable {W : Set Ref} {F : Set Int} {I : Prop} {σ : Cpu} {ls : Labels} {k : Code} {ks : List Code}

theorem keeps_assign {o : Operand} {b : UInt8} (hW : ∀ r ∈ o.register, r ∈ W) (hF : o ≠ .implied → o.place ls σ ∈ F) :
    σ.Keeps W F I (o.assign ls σ b) := by
  by_cases ho : o = .implied
  · subst ho
    have ha : Ref.a ∈ W := hW _ (by simp [Operand.register])
    exact { Cpu.Keeps.refl σ with a := fun hr => (hr ha).elim }
  · have hpoke : o.assign ls σ b = σ.poke (o.place ls σ) b := by
      cases o <;> first | rfl | exact (ho rfl).elim
    rw [hpoke]
    exact (Cpu.Keeps.refl σ).poke (hF ho)

/-- An instruction changes its own registers and flags and the byte it stores, and nothing else. -/
theorem exec_keeps (hW : ∀ r ∈ k.changes, r ∈ W) (hF : k.StoresIn ls F σ) (hsystem : k.mnemonic.sparesSystem = true) :
    σ.Keeps W F I (k.exec ls σ) := by
  have hrefl : σ.Keeps W F I σ := .refl σ
  obtain ⟨m, o⟩ := k
  cases m with
  | lda | and | ora | eor | txa | tya =>
    exact hrefl.setA (hW _ (by simp [changes])) (hW _ (by simp [changes])) (hW _ (by simp [changes]))
  | ldx | inx | dex | tax =>
    exact hrefl.setX (hW _ (by simp [changes])) (hW _ (by simp [changes])) (hW _ (by simp [changes]))
  | ldy | iny | dey | tay =>
    exact hrefl.setY (hW _ (by simp [changes])) (hW _ (by simp [changes])) (hW _ (by simp [changes]))
  | adc | sbc =>
    exact hrefl.add (hW _ (by simp [changes])) (hW _ (by simp [changes])) (hW _ (by simp [changes])) (hW _ (by simp [changes]))
      (hW _ (by simp [changes]))
  | cmp | cpx | cpy =>
    exact hrefl.compare (hW _ (by simp [changes])) (hW _ (by simp [changes])) (hW _ (by simp [changes]))
  | sta | stx | sty => exact keeps_assign hW (hF rfl)
  | inc | dec =>
    refine (keeps_assign (fun r hr => hW r ?_) (hF rfl)).mark (hW _ (by simp [changes])) (hW _ (by simp [changes]))
    exact List.mem_append_right _ hr
  | rol | ror =>
    refine ((keeps_assign (fun r hr => hW r ?_) (hF rfl)).setC (hW _ (by simp [changes])) _).mark (hW _ (by simp [changes]))
      (hW _ (by simp [changes]))
    exact List.mem_append_right _ hr
  | clc | sec => exact hrefl.setC (hW _ (by simp [changes])) _
  | cli | sei | pha | pla => cases hsystem
  | _ => exact hrefl

@[simp] theorem execAll_nil : execAll ls [] σ = σ := rfl

@[simp] theorem execAll_cons : execAll ls (k :: ks) σ = execAll ls ks (k.exec ls σ) := rfl

theorem execAll_append {ks' : List Code} : execAll ls (ks ++ ks') σ = execAll ls ks' (execAll ls ks σ) := List.foldl_append

end Code

end CheckedAsm
