import Mathlib
import CheckedAsm.Proofs.Codegen.Bytes
/-! # Arithmetic on bytes and words

Sums are taken byte by byte from the lowest up, with the carry between them, and give the sum or difference of the numbers that the
bytes write. A comparison of words begins with the lower bytes as well, and looks at the upper ones only where the lower ones agree.
So it tells whether the words are equal; but where their lower bytes differ it tells the order of these, whatever the upper ones
are. -/

namespace CheckedAsm

open CodeSetting Codegen

variable {cs : CodeSetting} {h : Host} {st st' : CodeState} {l : Nat} {op : Op} {src : Ref} {o : Operand × Operand} {s : Operand}
  {c c' : Bool}

/-- The number that some bytes write, the lower ones first. -/
def number : List UInt8 → Nat
  | [] => 0
  | b :: bs => b.toNat + 256 * number bs

/-- The bytes of the destination of a sum, which may be the accumulator. -/
def CodeSetting.held (cs : CodeSetting) (ls : Labels) (σ : Cpu) (r : Ref) : Except Fault (List UInt8) :=
  if r = .a then .ok [σ.a] else cs.bytes ls σ r

/-- What is added for a byte: the byte itself or, in a subtraction, its complement. -/
def addend (minus : Bool) (b : UInt8) : UInt8 := if minus then ~~~b else b

/-- The instruction that adds a byte to the accumulator or subtracts it. -/
def adder (minus : Bool) : Mnemonic := if minus then .sbc else .adc

theorem toNat_addend (minus : Bool) (b : UInt8) : (addend minus b).toNat = if minus then 255 - b.toNat else b.toNat := by
  cases minus with
  | true => exact UInt8.toNat_not b
  | false => rfl

/-- One byte of a sum was put at an address: with the carry it is the sum of what was there, of what was added and of the carry. -/
structure Cpu.Sums (p : Int) (b : UInt8) (σ τ : Cpu) : Prop where
  x : τ.x = σ.x
  y : τ.y = σ.y
  others : ∀ q ≠ p, τ.memory q = σ.memory q
  total : (τ.memory p).toNat + 256 * τ.c.toNat = (σ.memory p).toNat + b.toNat + σ.c.toNat

section

variable {ls : Labels} {i : Instr} {σ τ : Cpu} {dest : Ref} {t u : Ty} {id : LabelId} {d : Operand} {minus pointers : Bool}
  {ks : List Code} {n : Nat}

theorem Cpu.add_total (σ : Cpu) (b : UInt8) : (σ.add b).a.toNat + 256 * (σ.add b).c.toNat = σ.a.toNat + b.toNat + σ.c.toNat := by
  have ha := σ.a.toNat_lt
  have hb := b.toNat_lt
  have hc : σ.c.toNat ≤ 1 := σ.c.toNat_le
  simp only [add, setA, mark, UInt8.toNat_ofNat']
  by_cases h : 256 ≤ σ.a.toNat + b.toNat + σ.c.toNat
  · simp only [h, decide_true, Bool.toNat_true]
    omega
  · simp only [h, decide_false, Bool.toNat_false]
    omega

theorem exec_adder (σ : Cpu) : Code.exec ls σ ⟨adder minus, s⟩ = σ.add (addend minus (s.value ls σ)) := by
  cases minus <;> rfl

theorem exec_sumByte (ls : Labels) (σ : Cpu) (minus : Bool) (hd : d.isCell = true) (hs : s.isFixed = true) :
    σ.Sums (d.place ls σ) (addend minus (s.value ls σ)) (Code.execAll ls (sumByte (adder minus) d s) σ) := by
  have hload : Code.exec ls σ ⟨.lda, d⟩ = σ.setA (d.value ls σ) := rfl
  have hvalue : s.value ls (σ.setA (d.value ls σ)) = s.value ls σ := Operand.value_congr hs rfl rfl fun _ => rfl
  have hplace : ∀ b, d.place ls ((σ.setA (d.value ls σ)).add b) = d.place ls σ := fun b => by cases d <;> rfl
  have hstore : ∀ τ, Code.exec ls τ ⟨.sta, d⟩ = τ.poke (d.place ls τ) τ.a := fun τ => Operand.assign_of_isCell hd
  have htotal := (σ.setA (d.value ls σ)).add_total (addend minus (s.value ls σ))
  simp only [sumByte, Code.execAll_cons, Code.execAll_nil, hload, exec_adder, hvalue, hstore, hplace]
  refine ⟨rfl, rfl, fun q hq => if_neg hq, ?_⟩
  rw [← Operand.value_of_isCell hd, show (Cpu.poke _ (d.place ls σ) _).memory (d.place ls σ) = _ from if_pos rfl]
  exact htotal

/-! ### Operands of sums -/

theorem accOperand_single (h : accOperand cs .wide src = .ok s) (ht : cs.typeOf src = .ok .byte) : cs.Single ls σ src s := by
  cases src with
  | constant c =>
    obtain ⟨ty, v⟩ := c
    cases ht
    obtain ⟨b, hb, rfl⟩ := map_eq_ok.1 h
    rw [(byteOf_ok hb).1]
    exact ⟨rfl, rfl⟩
  | location name =>
    simp only [accOperand, bind_eq_ok, pure_eq_ok] at h
    obtain ⟨id, hid, rfl⟩ := h
    exact single_location hid ht (by simp)
  | _ => cases ht

theorem sourceBytes_single (h : sourceBytes cs i src = .ok o) (ht : cs.typeOf src = .ok .byte) : cs.Single ls σ src o.1 := by
  cases src with
  | constant c =>
    obtain ⟨ty, v⟩ := c
    cases ht
    cases h
    exact ⟨by simp [CodeSetting.bytes, Operand.ofByte, Operand.value, Const.lowByte, lowBits], rfl⟩
  | location name =>
    simp only [sourceBytes, bind_eq_ok, pure_eq_ok] at h
    obtain ⟨id, hid, rfl⟩ := h
    exact single_location hid ht (by simp)
  | _ => cases ht

theorem sourceBytes_supplies (h : sourceBytes cs i src = .ok o) (ht : cs.typeOf src = .ok .word) :
    cs.Supplies ls σ src o := by
  cases src with
  | constant c =>
    obtain ⟨ty, v⟩ := c
    cases ht
    cases h
    exact supplies_constant
  | location name =>
    simp only [sourceBytes, bind_eq_ok, pure_eq_ok] at h
    obtain ⟨id, hid, rfl⟩ := h
    exact supplies_location hid ht (.inl ⟨rfl, by simp⟩)
  | _ => cases ht

/-- The code of a sum of some bytes, by its destination. -/
inductive SumCode (cs : CodeSetting) (ls : Labels) (σ : Cpu) (m : Mnemonic) (src : Ref) : Ref → Nat → List Code → Prop
  | accumulator {dest : Ref} {s : Operand} : dest = .a → cs.Single ls σ src s → SumCode cs ls σ m src dest 1 [⟨m, s⟩]
  | byte {dest : Ref} {s d : Operand} : dest ≠ .a → cs.Single ls σ src s → cs.spots ls σ dest = .ok [d.place ls σ] →
      d.isCell = true → SumCode cs ls σ m src dest 1 (sumByte m d s)
  | word {dest : Ref} {s d : Operand × Operand} : dest ≠ .a → cs.Supplies ls σ src s → cs.Twin ls σ dest d →
      SumCode cs ls σ m src dest 2 (sumByte m d.1 s.1 ++ sumByte m d.2 s.2)

/-- A sum of one byte or two. The accumulator has one byte only. -/
def Widths (dest : Ref) (t u : Ty) (n : Nat) : Prop :=
  (n = 1 ∧ t = .byte ∧ u = .byte) ∨ (n = 2 ∧ t = .word ∧ (u = .word ∨ u = .pointer) ∧ dest ≠ .a)

theorem sum_code {m : Mnemonic} (h : sum cs i m pointers dest src = .ok ks) (ht : cs.typeOf src = .ok t)
    (hu : cs.typeOf dest = .ok u) (hn : Widths dest t u n) : SumCode cs ls σ m src dest n ks := by
  have hty : ∀ {t'}, cs.typeOf src = .ok t' → t = t' := fun h => Except.ok.inj (ht.symm.trans h)
  cases sum_to h with
  | accumulator ho =>
    obtain ⟨rfl, rfl, -⟩ | ⟨-, -, -, hne⟩ := hn
    · exact .accumulator rfl (accOperand_single ho ht)
    · exact (hne rfl).elim
  | byte ha hbyte hd hs hid =>
    cases hty hbyte
    obtain ⟨rfl, -⟩ | ⟨-, hword, -⟩ := hn
    · exact .byte ha (sourceBytes_single hs ht) (spots_byte hid hd) rfl
    · cases hword
  | word ha hword hd hs hid =>
    cases hty hword
    obtain ⟨-, hbyte, -⟩ | ⟨rfl, -⟩ := hn
    · cases hbyte
    · exact .word ha (sourceBytes_supplies hs ht) (twin_location hid hd (.inl rfl))
  | pointer ha hword hd hs hid =>
    cases hty hword
    obtain ⟨-, hbyte, -⟩ | ⟨rfl, -⟩ := hn
    · cases hbyte
    · exact .word ha (sourceBytes_supplies hs ht) (twin_pointer hid hd)

/-- The sum of two numbers and the carry, or their difference less what the carry lacks to one. -/
def total (minus : Bool) (d s : Nat) (c : Bool) : Int := if minus then d - s - (1 - c.toNat) else d + s + c.toNat

/-- What a sum with the complement says about a difference. -/
theorem total_of_sum {r d s e : Nat} (hr : r < 256 ^ n) (hs : s < 256 ^ n)
    (he : e = if minus then 256 ^ n - 1 - s else s) (h : r + 256 ^ n * c'.toNat = d + e + c.toNat) :
    (r : Int) = total minus d s c % 256 ^ n ∧ (c' = true ↔ (if minus then 0 else 256 ^ n) ≤ total minus d s c) := by
  have hcast : (256 : Int) ^ n = (256 ^ n : Nat) := by simp
  rw [hcast]
  generalize 256 ^ n = w at *
  have htotal : total minus d s c = r + w * (c'.toNat - if minus then 1 else 0) := by
    cases minus <;> cases c' <;> simp [total] at he h ⊢ <;> omega
  refine ⟨?_, ?_⟩
  · rw [htotal, Int.add_mul_emod_self_left, Int.emod_eq_of_lt (by omega) (by omega)]
  · cases minus <;> cases c' <;> simp [htotal] <;> omega

/-- The sum of single bytes, and that of pairs of bytes from the sums of the lower and of the upper ones. -/
theorem total_of_byte {r d s : UInt8} (h : r.toNat + 256 * c'.toNat = d.toNat + (addend minus s).toNat + c.toNat) :
    (number [r] : Int) = total minus (number [d]) (number [s]) c % 256 ^ 1
      ∧ (c' = true ↔ (if minus then 0 else 256 ^ 1) ≤ total minus (number [d]) (number [s]) c) := by
  have hr := r.toNat_lt
  have hs := s.toNat_lt
  refine total_of_sum (e := (addend minus s).toNat) ?_ ?_ ?_ ?_
  all_goals simp only [number, toNat_addend] at h ⊢
  all_goals cases minus <;> simp at h ⊢ <;> omega

theorem total_of_word {r r' d d' s s' : UInt8} {c'' : Bool}
    (h : r.toNat + 256 * c'.toNat = d.toNat + (addend minus s).toNat + c.toNat)
    (h' : r'.toNat + 256 * c''.toNat = d'.toNat + (addend minus s').toNat + c'.toNat) :
    (number [r, r'] : Int) = total minus (number [d, d']) (number [s, s']) c % 256 ^ 2
      ∧ (c'' = true ↔ (if minus then 0 else 256 ^ 2) ≤ total minus (number [d, d']) (number [s, s']) c) := by
  have hr := r.toNat_lt
  have hr' := r'.toNat_lt
  have hs := s.toNat_lt
  have hs' := s'.toNat_lt
  refine total_of_sum (e := (addend minus s).toNat + 256 * (addend minus s').toNat) ?_ ?_ ?_ ?_
  all_goals simp only [number, toNat_addend] at h h' ⊢
  all_goals cases minus <;> simp at h h' ⊢ <;> omega

end

/-- The code of an addition or subtraction puts the sum or difference of the numbers and the carry into the destination, modulo
the width of one byte or two. The carry says whether the sum came to more than fits, or whether the difference came to no less than
zero. Nothing else in the memory changes. -/
theorem Instr.sum_stored {cs : CodeSetting} {st st' : CodeState} {l : Nat} {op : Op} {minus : Bool} {name : String} {src : Ref}
    {t u : Ty} {n : Nat} {h : Host} (hc : (Instr.op l op).compile cs st = .ok st') (hh : h.Completes st st')
    (hop : op.settled = if minus then .sub (.location name) src else .add (.location name) src)
    (ht : cs.typeOf src = .ok t) (hu : cs.typeOf (.location name) = .ok u) (hn : Widths (.location name) t u n) (σ : Cpu)
    (hapart : cs.Apart h.labels σ src (.location name)) :
    ∃ σ' ds ss ds', h.Runs st st' σ σ' ∧ cs.held h.labels σ (.location name) = .ok ds ∧ cs.bytes h.labels σ src = .ok ss
      ∧ cs.held h.labels σ' (.location name) = .ok ds' ∧ ds'.length = n
      ∧ (number ds' : Int) = total minus (number ds) (number ss) σ.c % 256 ^ n
      ∧ (σ'.c = true ↔ (if minus then 0 else 256 ^ n) ≤ total minus (number ds) (number ss) σ.c)
      ∧ ∀ q, (∀ ps, cs.spots h.labels σ (.location name) = .ok ps → q ∉ ps) → σ'.memory q = σ.memory q := by
  obtain ⟨ks, hks, hruns⟩ := Instr.op_executes (x := sum cs (.op l op) (adder minus) (!minus) (.location name) src) hc hh
    (fun e => by rw [hop]; cases minus <;> rfl) (by rw [hop]; cases minus <;> rfl)
  have hcode : SumCode cs h.labels σ (adder minus) src (.location name) n ks := sum_code hks ht hu hn
  have hheld : Ref.location name ≠ .a → ∀ τ ps, cs.spots h.labels τ (.location name) = .ok ps →
      cs.held h.labels τ (.location name) = .ok (ps.map τ.memory) := by
    intro hne τ ps hps
    have hstored : u.isRoutine = false := by obtain ⟨-, -, rfl⟩ | ⟨-, -, rfl | rfl, -⟩ := hn <;> rfl
    rw [CodeSetting.held, if_neg hne, bytes_stored hu hstored (by simp), hps]
    rfl
  have hruns := hruns σ
  cases hcode with
  | @accumulator s ha hs =>
    simp only [Code.execAll_cons, Code.execAll_nil, exec_adder] at hruns
    obtain ⟨hnumber, hcarry⟩ := total_of_byte (σ.add_total (addend minus (s.value h.labels σ)))
    exact ⟨_, _, _, _, hruns, if_pos ha, hs.1, if_pos ha, rfl, hnumber, hcarry, fun _ _ => rfl⟩
  | @byte s d ha hs hspots hd =>
    have hsum := exec_sumByte h.labels σ minus hd hs.2
    obtain ⟨hnumber, hcarry⟩ := total_of_byte hsum.total
    refine ⟨_, _, _, _, hruns, hheld ha _ _ hspots, hs.1, hheld ha _ _ hspots, rfl, hnumber, hcarry, fun q hq => ?_⟩
    exact hsum.others q fun heq => hq _ hspots (by simp [heq])
  | @word s d ha hs hd =>
    rw [Code.execAll_append] at hruns
    have hlow := exec_sumByte h.labels σ minus hd.cells.1 hs.fixed.1
    generalize Code.execAll h.labels (sumByte (adder minus) d.1 s.1) σ = τ at hruns hlow
    have hhigh := exec_sumByte h.labels τ minus hd.cells.2 hs.fixed.2
    generalize Code.execAll h.labels (sumByte (adder minus) d.2 s.2) τ = σ' at hruns hhigh
    rw [hs.second_untouched hd hapart hlow.x hlow.y hlow.others, Operand.place_congr hd.fixed.2 hlow.x hlow.y] at hhigh
    have hbefore := hlow.others _ hd.apart.symm
    have hafter := hhigh.others _ hd.apart
    have htotal := hlow.total
    rw [← hafter] at htotal
    obtain ⟨hnumber, hcarry⟩ := total_of_word htotal (hbefore ▸ hhigh.total)
    refine ⟨_, _, _, _, hruns, hheld ha _ _ hd.spots, hs.bytes, hheld ha _ _ hd.spots, rfl, hnumber, hcarry, fun q hq => ?_⟩
    have hq := hq _ hd.spots
    simp only [List.mem_cons, List.not_mem_nil, or_false, not_or] at hq
    rw [hhigh.others q hq.2, hlow.others q hq.1]

theorem one_less_itself_stored :
    ∃ st' σ' ds', (Instr.op 0 (.sub (.location "one") (.location "one"))).compile fetchingSetting fetchingStart = .ok st'
      ∧ (Host.after st').Runs fetchingStart st' fetchingCpu σ'
      ∧ fetchingSetting.held st'.emitter.labels σ' (.location "one") = .ok ds' ∧ number ds' = 65535 ∧ σ'.c = false := by
  have hc : (Instr.op 0 (.sub (.location "one") (.location "one"))).compile fetchingSetting fetchingStart = .ok _ := rfl
  have hop : (Op.sub (.location "one") (.location "one")).settled
      = if true then .sub (.location "one") (.location "one") else .add (.location "one") (.location "one") := rfl
  obtain ⟨σ', ds, ss, ds', hruns, hds, hss, hds', -, hnumber, hcarry, -⟩ :=
    Instr.sum_stored hc (Host.after_completes _ _) hop rfl rfl (.inr ⟨rfl, rfl, .inl rfl, by decide⟩) fetchingCpu
      fun ps qs hps hqs => .inl (Except.ok.inj (hps.symm.trans hqs))
  obtain rfl : [0, 1] = ds := Except.ok.inj hds
  obtain rfl : [0, 1] = ss := Except.ok.inj hss
  have htotal : total true (number [0, 1]) (number [0, 1]) fetchingCpu.c = -1 := by decide
  rw [htotal] at hnumber hcarry
  exact ⟨_, σ', ds', hc, hruns, hds', by omega, by simpa using hcarry⟩

/-! ### Comparison of words -/

/-- Two bytes were compared, and nothing but the accumulator and the flags changed. -/
structure Cpu.Compares (d s : UInt8) (σ τ : Cpu) : Prop where
  x : τ.x = σ.x
  y : τ.y = σ.y
  memory : τ.memory = σ.memory
  zero : τ.z = true ↔ d.toNat = s.toNat
  carry : τ.c = true ↔ s.toNat ≤ d.toNat

theorem exec_compared (ls : Labels) (σ : Cpu) (d : Operand) (hs : s.isFixed = true) :
    σ.Compares (d.value ls σ) (s.value ls σ) (Code.execAll ls [⟨.lda, d⟩, ⟨.cmp, s⟩] σ) := by
  have hvalue : s.value ls (σ.setA (d.value ls σ)) = s.value ls σ := Operand.value_congr hs rfl rfl fun _ => rfl
  have hzero : d.value ls σ - s.value ls σ = 0 ↔ d.value ls σ = s.value ls σ := by grind
  have hcode : Code.execAll ls [⟨.lda, d⟩, ⟨.cmp, s⟩] σ = (σ.setA (d.value ls σ)).compare (d.value ls σ) (s.value ls σ) := by
    rw [← hvalue]
    rfl
  rw [hcode]
  refine ⟨rfl, rfl, rfl, ?_, ?_⟩
  · simpa only [Cpu.compare, Cpu.mark, beq_iff_eq, UInt8.toNat_inj] using hzero
  · simp only [Cpu.compare, Cpu.mark, decide_eq_true_eq]
    exact UInt8.le_iff_toNat_le

/-- The upper bytes are compared if the lower ones agree, and otherwise the lower ones have been compared last. -/
theorem compared_ends (h : Host) (id : LabelId) (ho : o.1.isFixed = true ∧ o.2.isFixed = true) (σ : Cpu) :
    ∃ σ', (compared h id o.1 o.2).ends σ (.done σ') ∧ if ((Operand.wide id).value h.labels σ).toNat = (o.1.value h.labels σ).toNat
      then σ.Compares ((Operand.wideNext id).value h.labels σ) (o.2.value h.labels σ) σ'
      else σ.Compares ((Operand.wide id).value h.labels σ) (o.1.value h.labels σ) σ' := by
  have hlow := exec_compared h.labels σ (.wide id) ho.1
  have hfirst : ∀ N : Meaning, ∀ o', N.ends (Code.execAll h.labels [⟨.lda, .wide id⟩, ⟨.cmp, o.1⟩] σ) o' →
      ((Meaning.basic (Code.execAll h.labels [⟨.lda, .wide id⟩, ⟨.cmp, o.1⟩])).seq N).ends σ o' := fun N o' hN =>
    .inr ⟨_, ⟨_, rfl, rfl⟩, hN⟩
  unfold compared
  generalize Code.execAll h.labels [⟨.lda, .wide id⟩, ⟨.cmp, o.1⟩] σ = τ at hlow hfirst
  split
  case isTrue heq =>
    have hhigh := exec_compared h.labels τ (.wideNext id) ho.2
    rw [Operand.value_congr (σ := σ) rfl hlow.x hlow.y fun _ => by rw [hlow.memory],
      Operand.value_congr (σ := σ) ho.2 hlow.x hlow.y fun _ => by rw [hlow.memory]] at hhigh
    refine ⟨_, hfirst _ _ ((if_pos (hlow.zero.2 heq)).mpr ⟨_, rfl, rfl⟩), hhigh.x.trans hlow.x, hhigh.y.trans hlow.y,
      hhigh.memory.trans hlow.memory, hhigh.zero, hhigh.carry⟩
  case isFalse hne =>
    exact ⟨τ, hfirst _ _ ((if_neg fun hz => hne (hlow.zero.1 hz)).mpr ⟨_, rfl, rfl⟩), hlow⟩

theorem compare_meaning {name : String}
    (hc : (Instr.op l op).compile cs st = .ok st') (hop : op.settled = .cmp (.location name) src) (ht : cs.typeOf src = .ok .word) :
    ∃ id o, cs.labelOf (.location name) = .ok id ∧ sourceBytes cs (.op l op) src = .ok o
      ∧ Codegen.meaning cs h (.op l op) op.settled = compared h id o.1 o.2 := by
  have hword : isWordSource cs src = .ok true := by
    cases src with
    | location n =>
      change cs.typeOfName n = .ok .word at ht
      simp [isWordSource, ht, bind, Except.bind, pure, Except.pure]
    | constant c =>
      cases c
      cases ht
      rfl
    | _ => cases ht
  obtain ⟨e, hs, -⟩ := map_eq_ok.1 hc
  rw [hop] at hs ⊢
  simp only [single, Codegen.compare, hword, compareWord, bind_eq_ok] at hs
  obtain ⟨_, ⟨⟩, hs⟩ := hs
  simp only [↓reduceIte, bind_eq_ok] at hs
  obtain ⟨o, ho, id, hid, -⟩ := hs
  exact ⟨id, o, hid, ho, by simp [Codegen.meaning, hword, wordCompared, ho, hid]⟩

/-- The code of a comparison of words tells whether they are equal. Where their lower bytes or their upper bytes agree it tells their
order too; but whenever the lower bytes differ it is the order of these that it tells. -/
theorem Instr.words_compared {cs : CodeSetting} {st st' : CodeState} {l : Nat} {op : Op} {name : String} {src : Ref} {h : Host}
    (hc : (Instr.op l op).compile cs st = .ok st') (hh : h.Completes st st') (hop : op.settled = .cmp (.location name) src)
    (ht : cs.typeOf src = .ok .word) (hu : cs.typeOf (.location name) = .ok .word) (σ : Cpu) :
    ∃ σ' ds ss, h.Runs st st' σ σ' ∧ cs.bytes h.labels σ (.location name) = .ok ds ∧ cs.bytes h.labels σ src = .ok ss
      ∧ ds.length = 2 ∧ ss.length = 2 ∧ (σ'.z = true ↔ number ds = number ss)
      ∧ (number ds % 256 = number ss % 256 ∨ number ds / 256 = number ss / 256 → (σ'.c = true ↔ number ss ≤ number ds))
      ∧ (number ds % 256 ≠ number ss % 256 → (σ'.c = true ↔ number ss % 256 ≤ number ds % 256)) := by
  obtain ⟨id, o, hid, ho, hm⟩ := compare_meaning (h := h) hc hop ht
  have hdest : cs.Supplies h.labels σ (.location name) (locationBytes id) := supplies_location hid hu (.inl ⟨rfl, by simp⟩)
  have hsrc : cs.Supplies h.labels σ src o := sourceBytes_supplies ho ht
  obtain ⟨σ', hends, hflags⟩ := compared_ends h id hsrc.fixed σ
  refine ⟨σ', _, _, Instr.op_runs hc hh (hm ▸ hends), hdest.bytes, hsrc.bytes, rfl, rfl, ?_⟩
  have hd := ((Operand.wide id).value h.labels σ).toNat_lt
  have hs := (o.1.value h.labels σ).toNat_lt
  simp only [number, locationBytes]
  split at hflags
  case isTrue heq =>
    rw [hflags.zero, hflags.carry]
    omega
  case isFalse hne =>
    rw [hflags.zero, hflags.carry]
    omega

theorem one_found_equal :
    ∃ st' σ', (Instr.op 0 (.cmp (.location "one") (.constant ⟨.word, 256⟩))).compile fetchingSetting fetchingStart = .ok st'
      ∧ (Host.after st').Runs fetchingStart st' fetchingCpu σ' ∧ σ'.z = true ∧ σ'.c = true := by
  have hc : (Instr.op 0 (.cmp (.location "one") (.constant ⟨.word, 256⟩))).compile fetchingSetting fetchingStart = .ok _ := rfl
  obtain ⟨σ', ds, ss, hruns, hds, hss, -, -, hzero, hcarry, -⟩ :=
    Instr.words_compared hc (Host.after_completes _ _) rfl rfl rfl fetchingCpu
  obtain rfl : [0, 1] = ds := Except.ok.inj hds
  obtain rfl : [0, 1] = ss := Except.ok.inj hss
  exact ⟨_, σ', hc, hruns, hzero.2 rfl, (hcarry (.inl rfl)).2 le_rfl⟩

/-- The word is greater than 255, but its lower byte is not, and the carry is not set. -/
theorem greater_found_less :
    ∃ st' σ' ds, (Instr.op 0 (.cmp (.location "one") (.constant ⟨.word, 255⟩))).compile fetchingSetting fetchingStart = .ok st'
      ∧ (Host.after st').Runs fetchingStart st' fetchingCpu σ'
      ∧ fetchingSetting.bytes st'.emitter.labels fetchingCpu (.location "one") = .ok ds ∧ 255 ≤ number ds ∧ σ'.c = false :=
  ⟨_, _, _, rfl, ⟨3, rfl⟩, rfl, by decide, rfl⟩

end CheckedAsm
