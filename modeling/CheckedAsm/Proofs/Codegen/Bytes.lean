import CheckedAsm.Proofs.Codegen.Footprint
/-! # The bytes of operands

An operand stands for one byte or for two: those of a constant, those of the address of a routine, or those in the memory at one
or two addresses. Code that goes through the accumulator takes them one after the other, the lower one first. By the time it comes
to the second one, the first one has been stored; that does no harm if the two operands share all their bytes or none. -/

namespace CheckedAsm

open Codegen

/-- The addresses of the bytes of an operand. The element of a table of words has its upper byte 256 places after the lower one. -/
def CodeSetting.spots (cs : CodeSetting) (ls : Labels) (σ : Cpu) : Ref → Except Fault (List Int)
  | .indexed base offset index => do
    let p := ls.place (← cs.labelOf base) + ((← offset.offsetValue) + ((index.indexValue? σ).getD 0).toNat)
    pure [p % 65536, (p + 256) % 65536]
  | .indirect base => do
    pure [(σ.pointer (ls.place (← cs.labelOf base)) + σ.y.toNat) % 65536]
  | r => do
    let p := ls.place (← cs.labelOf r)
    match ← cs.typeOf r with
    | .byte => pure [p % 65536]
    | .word | .pointer | .vector _ => pure [p % 65536, (p + 1) % 65536]
    | _ => pure []

/-- The bytes of an operand, the lower one first. -/
def CodeSetting.bytes (cs : CodeSetting) (ls : Labels) (σ : Cpu) : Ref → Except Fault (List UInt8)
  | .constant ⟨.byte, v⟩ => .ok [lowBits v]
  | .constant ⟨.word, v⟩ => .ok [lowBits v, lowBits (v / 256)]
  | r =>
    match cs.typeOf r with
    | .ok (.routine _) => (cs.labelOf r).map fun id => [lowBits (ls.place id), lowBits (ls.place id / 256)]
    | _ => (cs.spots ls σ r).map (·.map σ.memory)

/-- Two operands share all their bytes or none. -/
def CodeSetting.Apart (cs : CodeSetting) (ls : Labels) (σ : Cpu) (r q : Ref) : Prop :=
  ∀ ps qs, cs.spots ls σ r = .ok ps → cs.spots ls σ q = .ok qs → ps = qs ∨ ∀ p ∈ ps, p ∉ qs

/-- The code between two states of the generator takes the machine from its beginning to its end. -/
def Host.Runs (h : Host) (st st' : CodeState) (σ σ' : Cpu) : Prop :=
  (Text.between st.emitter st'.emitter).Reaches h (.here st.emitter.addr σ) (.here st'.emitter.addr σ')

section

variable {cs : CodeSetting} {ls : Labels} {h : Host} {st st' : CodeState} {l : Nat} {op : Op} {σ τ : Cpu} {r : Ref} {t : Ty}
  {id : LabelId} {o : Operand × Operand} {q : Operand} {b : UInt8} {name : String}

/-! ### Running the code of an operation -/

theorem Instr.op_runs (hc : (Instr.op l op).compile cs st = .ok st') (hh : h.Completes st st')
    (hm : (Codegen.meaning cs h (.op l op) op.settled).ends σ (.done τ)) : h.Runs st st' σ τ := by
  obtain ⟨e, hs, rfl⟩ := map_eq_ok.1 hc
  have hosts := Text.hosts_between hh
  exact ((single_emits hs).realises hosts.carries hosts.knows).ends σ _ hm

/-- Where the code does not depend on the labels, the machine does what it says. -/
theorem Instr.op_executes {x : Except Fault (List Code)} (hc : (Instr.op l op).compile cs st = .ok st') (hh : h.Completes st st')
    (hx : ∀ e, single cs (.op l op) e op.settled = x.map e.codes)
    (hm : Codegen.meaning cs h (.op l op) op.settled = straight h (single cs (.op l op) (blank h.labels) op.settled)) :
    ∃ ks, x = .ok ks ∧ ∀ σ, h.Runs st st' σ (Code.execAll h.labels ks σ) := by
  obtain ⟨e, hs, -⟩ := map_eq_ok.1 hc
  obtain ⟨ks, rfl, -⟩ := map_eq_ok.1 ((hx _).symm.trans hs)
  refine ⟨ks, rfl, fun σ => op_runs hc hh ?_⟩
  have hstraight : straight h (.ok ((blank h.labels).codes ks)) = .basic (Code.execAll h.labels ks) := by
    rw [straight, codeList_codes]
  rw [hm, hx]
  exact (congrArg (fun M : Meaning => M.ends σ (.done _)) hstraight).mpr ⟨_, rfl, rfl⟩

/-! ### Operands of the machine -/

namespace Operand

/-- Whether the operand leads to a byte in the memory. -/
def isCell : Operand → Bool
  | absolute _ | zeroPage _ | absoluteX _ | absoluteY _ | indirectY _ => true
  | _ => false

/-- Whether what the memory holds has no bearing on where the operand leads to. -/
def isFixed : Operand → Bool
  | absolute _ | zeroPage _ | absoluteX _ | absoluteY _ | immediate _ => true
  | _ => false

theorem value_of_isCell (hq : q.isCell = true) : q.value ls σ = σ.memory (q.place ls σ) := by
  cases q <;> first | rfl | cases hq

theorem assign_of_isCell (hq : q.isCell = true) : q.assign ls σ b = σ.poke (q.place ls σ) b := by
  cases q <;> first | rfl | cases hq

theorem place_congr (hq : q.isFixed = true) (hx : τ.x = σ.x) (hy : τ.y = σ.y) : q.place ls τ = q.place ls σ := by
  cases q with
  | absolute | zeroPage | absoluteX | absoluteY | immediate => simp [place, hx, hy]
  | _ => cases hq

theorem value_congr (hq : q.isFixed = true) (hx : τ.x = σ.x) (hy : τ.y = σ.y)
    (hm : q.isCell = true → τ.memory (q.place ls σ) = σ.memory (q.place ls σ)) : q.value ls τ = q.value ls σ := by
  cases q with
  | immediate b => cases b <;> rfl
  | absolute | zeroPage | absoluteX | absoluteY =>
    rw [value_of_isCell rfl, value_of_isCell rfl, place_congr rfl hx hy]
    exact hm rfl
  | _ => cases hq

end Operand

/-- An operand of the machine gives the only byte of an operand. -/
def CodeSetting.Single (cs : CodeSetting) (ls : Labels) (σ : Cpu) (r : Ref) (q : Operand) : Prop :=
  cs.bytes ls σ r = .ok [q.value ls σ] ∧ q.isFixed = true

/-- Two operands of the machine lead to the two bytes of an operand. -/
structure CodeSetting.Twin (cs : CodeSetting) (ls : Labels) (σ : Cpu) (r : Ref) (o : Operand × Operand) : Prop where
  spots : cs.spots ls σ r = .ok [o.1.place ls σ, o.2.place ls σ]
  apart : o.1.place ls σ ≠ o.2.place ls σ
  cells : o.1.isCell = true ∧ o.2.isCell = true
  fixed : o.1.isFixed = true ∧ o.2.isFixed = true

/-- Two operands of the machine give the two bytes of an operand, which is constant or in the memory. -/
structure CodeSetting.Supplies (cs : CodeSetting) (ls : Labels) (σ : Cpu) (r : Ref) (o : Operand × Operand) : Prop where
  bytes : cs.bytes ls σ r = .ok [o.1.value ls σ, o.2.value ls σ]
  fixed : o.1.isFixed = true ∧ o.2.isFixed = true
  spots : o.2.isCell = true → cs.Twin ls σ r o

section

variable (hid : cs.labelOf r = .ok id)
include hid

theorem CodeSetting.spots_byte (ht : cs.typeOf r = .ok .byte) :
    cs.spots ls σ r = .ok [(Operand.wide id).place ls σ] := by
  rw [Operand.place_wide]
  cases r <;> first | cases ht | simp [spots, hid, ht, bind, Except.bind, pure, Except.pure]

theorem CodeSetting.spots_two (ht : cs.typeOf r = .ok t)
    (htwo : t = .word ∨ t = .pointer ∨ t.isVector = true) :
    cs.spots ls σ r = .ok [ls.place id % 65536, (ls.place id + 1) % 65536] := by
  cases t with
  | word | pointer | vector => cases r <;> first | cases ht | simp [spots, hid, ht, bind, Except.bind, pure, Except.pure]
  | _ => simp [Ty.isVector] at htwo

theorem CodeSetting.twin_location (ht : cs.typeOf r = .ok t) (htwo : t = .word ∨ t.isVector = true) :
    cs.Twin ls σ r (locationBytes id) where
  spots := by
    rw [spots_two hid ht (htwo.imp_right .inr), locationBytes, Operand.place_wide]
    rfl
  apart := by
    rw [locationBytes, Operand.place_wide]
    change _ ≠ (ls.place id + 1) % 65536
    omega
  cells := ⟨rfl, rfl⟩
  fixed := ⟨rfl, rfl⟩

theorem CodeSetting.twin_pointer (ht : cs.typeOf r = .ok .pointer) :
    cs.Twin ls σ r (.page id, .pageNext id) where
  spots := by rw [spots_two hid ht (.inr (.inl rfl)), Operand.place_page, Operand.place_pageNext]
  apart := by
    rw [Operand.place_page, Operand.place_pageNext]
    omega
  cells := ⟨rfl, rfl⟩
  fixed := ⟨rfl, rfl⟩

omit hid in
theorem CodeSetting.supplies_constant {v : Int} : cs.Supplies ls σ (.constant ⟨.word, v⟩) (constBytes ⟨.word, v⟩) where
  bytes := by simp [CodeSetting.bytes, constBytes, Operand.ofByte, Operand.value, Const.lowByte, Const.highByte, lowBits]
  fixed := ⟨rfl, rfl⟩
  spots h := by cases h

omit hid in
/-- Where the bytes are in the memory, what leads to them supplies them. -/
theorem CodeSetting.Twin.supplies (h : cs.Twin ls σ r o) (hb : cs.bytes ls σ r = (cs.spots ls σ r).map (·.map σ.memory)) :
    cs.Supplies ls σ r o where
  bytes := by
    rw [hb, h.spots, Operand.value_of_isCell h.cells.1, Operand.value_of_isCell h.cells.2]
    rfl
  fixed := h.fixed
  spots _ := h

omit hid in
theorem CodeSetting.bytes_stored (ht : cs.typeOf r = .ok t) (hstored : t.isRoutine = false)
    (hr : ∀ c, r = .constant c → t ≠ .byte ∧ t ≠ .word) : cs.bytes ls σ r = (cs.spots ls σ r).map (·.map σ.memory) := by
  cases r with
  | constant c =>
    obtain ⟨ty, v⟩ := c
    cases ht
    cases ty <;> simp_all [bytes, typeOf, Ty.isRoutine]
  | location n => cases t <;> simp_all [bytes, Ty.isRoutine]
  | _ => cases ht

theorem CodeSetting.single_location (ht : cs.typeOf r = .ok .byte) (hr : ∀ c, r ≠ .constant c) :
    cs.Single ls σ r (.wide id) := by
  refine ⟨?_, rfl⟩
  rw [bytes_stored ht rfl fun c hc => (hr c hc).elim, spots_byte hid ht]
  rfl

theorem CodeSetting.supplies_location (ht : cs.typeOf r = .ok t)
    (htwo : t = .word ∧ (∀ c, r ≠ .constant c) ∨ t.isVector = true) : cs.Supplies ls σ r (locationBytes id) := by
  refine (twin_location hid ht (htwo.imp_left And.left)).supplies (bytes_stored ht ?_ fun c hc => ?_)
  · cases t <;> simp_all [Ty.isRoutine, Ty.isVector]
  · cases t <;> simp_all [Ty.isVector]

end

/-- What is stored for the lower byte leaves the upper byte that is to be taken as it was. -/
theorem CodeSetting.Supplies.second_untouched {r' : Ref} {o' : Operand × Operand} (h : cs.Supplies ls σ r o)
    (h' : cs.Twin ls σ r' o') (hapart : cs.Apart ls σ r r') (hx : τ.x = σ.x) (hy : τ.y = σ.y)
    (hm : ∀ q ≠ o'.1.place ls σ, τ.memory q = σ.memory q) : o.2.value ls τ = o.2.value ls σ := by
  refine Operand.value_congr h.fixed.2 hx hy fun hcell => hm _ fun heq => ?_
  rcases hapart _ _ (h.spots hcell).spots h'.spots with hsame | hnone
  · simp only [List.cons.injEq] at hsame
    exact h'.apart (heq.symm.trans hsame.2.1)
  · exact hnone (o.2.place ls σ) (by simp) (by simp [heq])

end

/-! ### Sample data -/

/-- A machine that knows the labels there are in the end, and no routines. -/
def Host.after (st : CodeState) : Host := ⟨st.emitter.labels, st.trampolines, fun _ _ => none⟩

theorem Host.after_completes (st st' : CodeState) : (Host.after st').Completes st st' := ⟨fun _ _ _ h => h, fun _ _ h => h⟩

/-- The names of a word and of a table of words, with their labels. -/
def fetchingSetting : CodeSetting :=
  ⟨fetchingSymbols 256, ⟨⟨[("one", 0), ("many", 1), ("main", 2)]⟩, ⟨[("main", ⟨[]⟩)]⟩⟩, some "main"⟩

/-- Before the code is generated, the word and the table have their places. -/
def fetchingStart : CodeState :=
  { emitter := { start := 2049, addr := 2049, labels := #[⟨"one", some 1000, none⟩, ⟨"many", some 1100, none⟩, ⟨"main", some 2049, none⟩] } }

/-- A processor where the word is 256. -/
def fetchingCpu : Cpu := { indexedBy 3 with memory := fun p => if p = 1001 then 1 else 0 }

end CheckedAsm
