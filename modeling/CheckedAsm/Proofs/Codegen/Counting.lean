import CheckedAsm.Proofs.Codegen.Hidden
/-! # Values of a counter

The code of a counting loop over an index register goes one step and compares with what is one step past the last value, both of
them modulo 256. So the body runs once for each value from the first to the last, around the end of the range if need be, and the
loop is left one step past the last value. -/

namespace CheckedAsm

open Codegen List

variable {T : Text} {h : Host} {final m : Int} {b : UInt8} {dir : Direction} {r : Ref} {σ : Cpu}

/-! ### Coming to an address -/

/-- The state of the machine, if it is at the address. -/
def Status.cpuAt (m : Int) : Status → List Cpu
  | .here pc σ => if pc = m then [σ] else []
  | _ => []

namespace Text

/-- The states in which the machine is at an address in the course of so many steps. -/
def arrivals (T : Text) (h : Host) (m : Int) : Nat → Status → List Cpu
  | 0, _ => []
  | k + 1, s => s.cpuAt m ++ T.arrivals h m k (T.step h s)

/-- The machine comes to an address for the first time. -/
def Arrives (T : Text) (h : Host) (m : Int) (s : Status) (τ : Cpu) : Prop := ∃ k, T.run h k s = .here m τ ∧ T.arrivals h m k s = []

theorem arrivals_add (k n : Nat) (s : Status) :
    T.arrivals h m (k + n) s = T.arrivals h m k s ++ T.arrivals h m n (T.run h k s) := by
  induction k generalizing s with
  | zero =>
    rw [Nat.zero_add]
    rfl
  | succ k ih => rw [Nat.succ_add, arrivals, ih, arrivals, append_assoc, run]

end Text

/-! ### The end of a round -/

/-- The value of an index register. -/
def Cpu.index (r : Ref) (σ : Cpu) : UInt8 := if r = .x then σ.x else σ.y

theorem lowBits_eq_iff {a b : Int} : lowBits a = lowBits b ↔ a % 256 = b % 256 := by
  rw [← UInt8.toNat_inj, ← Int.ofNat_inj, toNat_lowBits, toNat_lowBits]

theorem lowBits_toNat_self (b : UInt8) : lowBits b.toNat = b := by
  rw [← UInt8.toNat_inj, ← Int.ofNat_inj, toNat_lowBits]
  have hlt := b.toNat_lt
  omega

/-- One step further the counter is past its last value, if there is no way to go to the last value. -/
theorem lowBits_past_iff {n : Nat} (hn : (final - b.toNat) * dir.step % 256 = n) :
    lowBits (b.toNat + dir.step) = lowBits (final + dir.step) ↔ n = 0 := by
  rw [lowBits_eq_iff]
  cases dir <;> simp only [Direction.step] at hn ⊢ <;> omega

namespace Codegen

/-- An instruction that takes the register one step further, and one that compares it. -/
structure Advances (r : Ref) (dir : Direction) (k : Code) (c : Mnemonic) : Prop where
  plain : k.mnemonic.isPlain = true
  size : k.size = 1
  step : ∀ ls σ, (k.exec ls σ).index r = lowBits ((σ.index r).toNat + dir.step)
  plain' : c.isPlain = true
  compares : ∀ ls σ b, (⟨c, .immediate (.byte b)⟩ : Code).exec ls σ = σ.compare (σ.index r) b

variable {cs : CodeSetting} {st st1 st' : CodeState} {l : Nat} {final past : Const} {body : Block}

theorem limit_value (h : limit final dir = .ok past) : lowBits past.value = lowBits (final.value + dir.step) := by
  rw [lowBits_eq_iff]
  cases dir with
  | up =>
    simp only [limit, Const.succ] at h
    split at h
    · cases h
      simp only [Direction.step]
      split <;> omega
    · cases h
  | down =>
    simp only [limit, Const.pred] at h
    split at h
    · cases h
      simp only [Direction.step]
      split <;> omega
    · cases h

theorem advances_of_countStep {ks : List Code} (hr : r = .x ∨ r = .y) (h : countStep cs dir r = .ok ks) :
    ∃ k c, ks = [k] ∧ compareMnemonic? r = some c ∧ Advances r dir k c := by
  have hup : ∀ x : UInt8, x + 1 = lowBits (x.toNat + 1) := fun x => by
    rw [← UInt8.toNat_inj, ← Int.ofNat_inj, toNat_lowBits, UInt8.toNat_add]
    rfl
  have hdown : ∀ x : UInt8, x - 1 = lowBits (x.toNat + -1) := fun x => by
    rw [← UInt8.toNat_inj, ← Int.ofNat_inj, toNat_lowBits, UInt8.toNat_sub]
    have hone : (1 : UInt8).toNat = 1 := rfl
    omega
  rcases hr with rfl | rfl <;> cases dir <;> cases h
  · exact ⟨_, .cpx, rfl, rfl, rfl, rfl, fun _ σ => hup σ.x, rfl, fun _ _ _ => rfl⟩
  · exact ⟨_, .cpx, rfl, rfl, rfl, rfl, fun _ σ => hdown σ.x, rfl, fun _ _ _ => rfl⟩
  · exact ⟨_, .cpy, rfl, rfl, rfl, rfl, fun _ σ => hup σ.y, rfl, fun _ _ _ => rfl⟩
  · exact ⟨_, .cpy, rfl, rfl, rfl, rfl, fun _ σ => hdown σ.y, rfl, fun _ _ _ => rfl⟩

theorem count_code (hr : r = .x ∨ r = .y) (hc : (Instr.count l r dir final body).compile cs st = .ok st')
    (hb : body.compile cs st.topped = .ok st1) :
    ∃ k c, Advances r dir k c ∧ st' = st1.codes [k, ⟨c, .immediate (.byte (lowBits (final.value + dir.step)))⟩,
      ⟨.bne, .relative st.emitter.labels.size⟩] := by
  cases Instr.compiled hc with | @count _ _ _ _ past _ st2 ks e hb' hk hl he =>
  cases hb.symm.trans hb'
  obtain ⟨k, c, rfl, hc, hstep⟩ := advances_of_countStep hr hk
  have hbyte : isWordSource cs (.constant past) = .ok false := by simp [isWordSource, limit_byte hl]
  refine ⟨k, c, hstep, ?_⟩
  simp only [compare, hbyte, hc, accOperand, Operand.ofInt] at he
  obtain ⟨_, ⟨⟩, he⟩ := bind_eq_ok.1 he
  obtain ⟨o, ho, he⟩ := bind_eq_ok.1 he
  obtain ⟨b, hbyte, rfl⟩ := map_eq_ok.1 ho
  cases he
  rw [← limit_value hl, ← (byteOf_ok hbyte).1]
  rfl

end Codegen

section

variable {p q : Int} {k : Code} {c : Mnemonic} {id : LabelId}

/-- The three instructions at the end of a round. -/
theorem Text.run_turn (hk : Advances r dir k c) (hholds : T.Holds m [k, ⟨c, .immediate (.byte b)⟩, ⟨.bne, .relative id⟩]) (τ : Cpu) :
    ∃ σ', σ'.index r = lowBits ((τ.index r).toNat + dir.step)
      ∧ T.run h 3 (.here m τ) = .here (if σ'.index r = b then m + 5 else h.labels.place id) σ'
      ∧ T.arrivals h m 3 (.here m τ) = [τ] := by
  obtain ⟨hstep, hcompare, hbranch, -⟩ := hholds
  let σ1 := k.exec h.labels τ
  let σ2 := σ1.compare (σ1.index r) b
  have h1 : T.step h (.here m τ) = .here (m + 1) σ1 := by rw [step_plain hstep hk.plain, hk.size]
  rw [hk.size] at hcompare hbranch
  have h2 : T.step h (.here (m + 1) σ1) = .here (m + 1 + 2) σ2 := by
    rw [step_plain hcompare hk.plain', hk.compares]
    rfl
  have h3 : T.step h (.here (m + 1 + 2) σ2) = .here (if !σ2.z then h.labels.place id else m + 1 + 2 + 2) σ2 := step_branch hbranch rfl
  have hzero : σ2.z = decide (σ1.index r = b) := by
    change (σ1.index r - b == 0) = _
    rw [Bool.eq_iff_iff, beq_iff_eq, decide_eq_true_eq, UInt8.sub_eq_iff_eq_add, UInt8.zero_add]
  refine ⟨σ2, hk.step h.labels τ, ?_, ?_⟩
  · have hindex : σ2.index r = σ1.index r := rfl
    rw [run, run, run, run, h1, h2, h3, hzero, hindex]
    by_cases hb : σ1.index r = b
    · simp [hb, Int.add_assoc]
    · simp [hb]
  · have hpast : m + 1 ≠ m ∧ m + 1 + 2 ≠ m := by omega
    simp [arrivals, h1, h2, Status.cpuAt, hpast]

/-- What the machine does at the end of each round. -/
def Text.Turns (T : Text) (h : Host) (m p q : Int) (r : Ref) (dir : Direction) (final : Int) : Prop :=
  ∀ τ, ∃ σ', σ'.index r = lowBits ((τ.index r).toNat + dir.step)
    ∧ T.run h 3 (.here m τ) = .here (if σ'.index r = lowBits (final + dir.step) then q else p) σ'
    ∧ T.arrivals h m 3 (.here m τ) = [τ]

/-- From any state of some kind the body, which stands between two addresses, comes to its end and leaves the register as it was. If the
loop then goes on, it is with a state of that kind again. -/
def Text.Spares (T : Text) (h : Host) (p m : Int) (r : Ref) (P : Cpu → Prop) : Prop :=
  ∀ σ, P σ → ∃ τ, T.Arrives h m (.here p σ) τ ∧ τ.index r = σ.index r ∧ ∀ σ', T.run h 3 (.here m τ) = .here p σ' → P σ'

variable {P : Cpu → Prop}

theorem Text.round (hturn : T.Turns h m p q r dir final) (hbody : T.Spares h p m r P) (hσ : P σ) :
    ∃ k σ', T.run h k (.here p σ) = .here (if σ'.index r = lowBits (final + dir.step) then q else p) σ'
      ∧ σ'.index r = lowBits ((σ.index r).toNat + dir.step) ∧ (T.arrivals h m k (.here p σ)).map (Cpu.index r) = [σ.index r]
      ∧ (σ'.index r ≠ lowBits (final + dir.step) → P σ') := by
  obtain ⟨τ, ⟨k, hk, hnone⟩, hsame, hagain⟩ := hbody σ hσ
  obtain ⟨σ', hindex, hrun, harrivals⟩ := hturn τ
  refine ⟨k + 3, σ', ?_, hsame ▸ hindex, ?_, fun hne => hagain σ' ?_⟩
  · rw [run_add, hk, hrun]
  · rw [arrivals_add, hnone, hk, harrivals, nil_append, map_singleton, hsame]
  · rw [hrun, if_neg hne]

/-- Round after round, up to the one in which the counter has its last value. -/
theorem Text.rounds (hturn : T.Turns h m p q r dir final) (hbody : T.Spares h p m r P) (n : Nat) (hσ : P σ)
    (hn : (final - (σ.index r).toNat) * dir.step % 256 = n) :
    ∃ k σ', T.run h k (.here p σ) = .here q σ' ∧ σ'.index r = lowBits (final + dir.step)
      ∧ (T.arrivals h m k (.here p σ)).map (Cpu.index r)
        = (List.range (n + 1)).map fun i : Nat => lowBits ((σ.index r).toNat + dir.step * i) := by
  induction n generalizing σ with
  | zero =>
    obtain ⟨k, σ1, hrun, hindex, harrivals, -⟩ := Text.round hturn hbody hσ
    have hpast : σ1.index r = lowBits (final + dir.step) := hindex.trans ((lowBits_past_iff hn).2 rfl)
    rw [if_pos hpast] at hrun
    refine ⟨k, σ1, hrun, hpast, ?_⟩
    rw [harrivals]
    simp [lowBits_toNat_self]
  | succ n ih =>
    obtain ⟨k, σ1, hrun, hindex, harrivals, hagain⟩ := Text.round hturn hbody hσ
    have hmore : σ1.index r ≠ lowBits (final + dir.step) := by
      rw [hindex]
      exact fun heq => Nat.succ_ne_zero n ((lowBits_past_iff hn).1 heq)
    rw [if_neg hmore] at hrun
    have hvalue : ((σ1.index r).toNat : Int) = ((σ.index r).toNat + dir.step) % 256 := by rw [hindex, toNat_lowBits]
    have hleft : (final - (σ1.index r).toNat) * dir.step % 256 = n := by
      rw [hvalue]
      cases dir <;> simp only [Direction.step] at hn ⊢ <;> omega
    obtain ⟨k', σ', hrun', hpast, harrivals'⟩ := ih (hagain hmore) hleft
    refine ⟨k + k', σ', ?_, hpast, ?_⟩
    · rw [run_add, hrun, hrun']
    · rw [arrivals_add, hrun, map_append, harrivals, harrivals', range_succ_eq_map (n := n + 1), map_cons, map_map]
      simp only [singleton_append, Int.natCast_zero, Int.mul_zero, Int.add_zero, lowBits_toNat_self, List.cons.injEq, true_and]
      refine map_congr_left fun i _ => ?_
      rw [hvalue, Function.comp_apply, lowBits_eq_iff, Nat.succ_eq_add_one]
      cases dir <;> simp only [Direction.step] <;> omega

end

/-- A counting loop over an index register, whose body comes to its end and leaves the register as it was. The machine comes to the end
of the code. On its way it has come to the end of the body once for each value of the register from the first to the last, in that
order, and in the end the register is one step past the last value. All values are taken modulo 256. -/
theorem Instr.count_values {cs : CodeSetting} {st st₁ st' : CodeState} {l : Nat} {r : Ref} {dir : Direction} {final : Const} {body : Block}
    (hr : r = .x ∨ r = .y) (hc : (Instr.count l r dir final body).compile cs st = .ok st') (hb : body.compile cs st.topped = .ok st₁)
    (h : Host) (hh : h.Completes st st') (P : Cpu → Prop)
    (hbody : (Text.between st.emitter st'.emitter).Spares h st.emitter.addr st₁.emitter.addr r P) (σ : Cpu) (hσ : P σ) :
    let T := Text.between st.emitter st'.emitter
    let first : Int := (σ.index r).toNat
    let n := ((final.value - first) * dir.step % 256).toNat
    ∃ k σ', T.run h k (.here st.emitter.addr σ) = .here st'.emitter.addr σ' ∧ ¬ T.Inside (.here st'.emitter.addr σ')
      ∧ (T.arrivals h st₁.emitter.addr k (.here st.emitter.addr σ)).map (Cpu.index r)
        = (List.range (n + 1)).map (fun i : Nat => lowBits (first + dir.step * i))
      ∧ lowBits (first + dir.step * n) = lowBits final.value ∧ σ'.index r = lowBits (final.value + dir.step) := by
  intro T first n
  have hg := body.compile_grows _ _ hb
  obtain ⟨k, c, hk, rfl⟩ := count_code hr hc hb
  have hhosts : T.Hosts h st _ := Text.hosts_between hh
  obtain ⟨hplace, -⟩ := hhosts.place_topped (hg.trans (.ofCodes st₁ _))
  obtain ⟨-, hend⟩ := hhosts.split ((CodeState.Grows.ofTopped st).trans hg) (.ofCodes st₁ _)
  have haddr := Emitter.codes_addr st₁.emitter [k, ⟨c, .immediate (.byte (lowBits (final.value + dir.step)))⟩,
    ⟨.bne, .relative st.emitter.labels.size⟩]
  have hturn : T.Turns h st₁.emitter.addr st.emitter.addr (st₁.emitter.addr + 5) r dir final.value := fun τ => by
    have hrun := Text.run_turn (h := h) hk hend.carries.holds τ
    rwa [hplace] at hrun
  have hn : (final.value - first) * dir.step % 256 = n := by omega
  obtain ⟨steps, σ', hrun, hpast, harrivals⟩ := Text.rounds hturn hbody n hσ hn
  have hroom : (st₁.codes _).emitter.addr = st₁.emitter.addr + 5 := haddr.trans (by simp [Code.room_cons, hk.size]; rfl)
  refine ⟨steps, σ', hroom ▸ hrun, ?_, harrivals, ?_, hpast⟩
  · exact Text.not_inside_between (((CodeState.Grows.ofTopped st).trans hg).trans (.ofCodes st₁ _)).emitter σ'
  · rw [lowBits_eq_iff]
    cases dir <;> simp only [Direction.step] at hn ⊢ <;> omega

/-- A loop from 254 up to 1. -/
def aroundTheEnd : Instr := .count 0 .x .up ⟨.byte, 1⟩ (.cons (.op 0 (.inc .y)) (.nil 0))

/-- Its code: the body is the first of the four instructions. -/
def aroundTheEndCode : CodeState :=
  { emitter :=
      { start := 2049, addr := 2055,
        items := #[.code .iny .implied, .code .inx .implied, .code .cpx (.immediate (.byte 2)), .code .bne (.relative 1)],
        labels := #[⟨"away", some 65490, none⟩, ⟨"label0", some 2049, none⟩], counter := 1 } }

theorem aroundTheEnd_values :
    let T := Text.between countdownStart.emitter aroundTheEndCode.emitter
    let s : Status := .here 2049 { countdownCpu with x := 254 }
    aroundTheEnd.compile countdownSetting countdownStart = .ok aroundTheEndCode
      ∧ ∃ k σ', T.run countdownHost k s = .here 2055 σ' ∧ (T.arrivals countdownHost 2050 k s).map (Cpu.index .x) = [254, 255, 0, 1]
        ∧ σ'.index .x = 2 := by
  intro T s
  have hc : aroundTheEnd.compile countdownSetting countdownStart = .ok aroundTheEndCode := by rfl
  have hbody : T.Spares countdownHost 2049 2050 .x fun _ => True := fun _ _ => ⟨_, ⟨1, rfl, rfl⟩, rfl, fun _ _ => trivial⟩
  obtain ⟨k, σ', hrun, -, harrivals, -, hpast⟩ :=
    Instr.count_values (.inl rfl) hc rfl countdownHost ⟨fun _ _ _ ha => ha, fun _ _ hv => hv⟩ _ hbody { countdownCpu with x := 254 } trivial
  exact ⟨hc, k, σ', hrun, harrivals, hpast⟩

end CheckedAsm
