import CheckedAsm.Proofs.Codegen.Bytes
/-! # Copies

The code of a copy leaves the bytes of its source at the addresses of its destination, and changes nothing else but the accumulator
and two flags. -/

namespace CheckedAsm

open CodeSetting Codegen

/-- The code of a copy moves one byte or two. -/
inductive CopyCode (cs : CodeSetting) (ls : Labels) (σ : Cpu) (src dest : Ref) : List Code → Prop
  | one {s d} : cs.bytes ls σ src = .ok [s.value ls σ] → cs.spots ls σ dest = .ok [d.place ls σ] → d.isCell = true →
      CopyCode cs ls σ src dest (move s d)
  | two {s d} : cs.Supplies ls σ src s → cs.Twin ls σ dest d → CopyCode cs ls σ src dest (moveBoth s d)

section

variable {cs : CodeSetting} {ls : Labels} {h : Host} {st st' : CodeState} {l : Nat} {op : Op} {σ τ : Cpu}
  {src dest base offset index : Ref} {t u : Ty} {id : LabelId} {name : String} {o : Operand × Operand} {s d : Operand} {ks : List Code}

/-! ### The code -/

theorem CodeSetting.twin_cell (hid : cs.labelOf base = .ok id) (ho : cellBytes id offset index = .ok o) :
    cs.Twin ls σ (.indexed base offset index) o := by
  obtain ⟨c, v, rfl, hv, hlow, hhigh⟩ := cellBytes_reach ls σ ho
  have hmode : ∀ {q : Operand} {p : Int}, q.reach? ls σ = some p → q.isCell = true ∧ q.isFixed = true := by
    intro q p hq
    cases q <;> first | exact ⟨rfl, rfl⟩ | cases hq
  refine ⟨?_, ?_, ⟨(hmode hlow).1, (hmode hhigh).1⟩, (hmode hlow).2, (hmode hhigh).2⟩
  · rw [Operand.place_of_reach hlow, Operand.place_of_reach hhigh]
    simp [spots, hid, hv, Ref.offsetValue, bind, Except.bind, pure, Except.pure]
  · rw [Operand.place_of_reach hlow, Operand.place_of_reach hhigh]
    omega

theorem CodeSetting.supplies_address {sig : Signature} (hid : cs.labelOf src = .ok id) (ht : cs.typeOf src = .ok (.routine sig)) :
    cs.Supplies ls σ src (addressBytes id) where
  bytes := by
    cases src with
    | constant c =>
      obtain ⟨ty, v⟩ := c
      cases ht
      simp [CodeSetting.bytes, typeOf, hid, Except.map, addressBytes, Operand.value, Target.place, Target.id, Target.distance]
    | location n =>
      simp [CodeSetting.bytes, ht, hid, Except.map, addressBytes, Operand.value, Target.place, Target.id, Target.distance]
    | _ => cases ht
  fixed := ⟨rfl, rfl⟩
  spots h := by cases h

theorem CodeSetting.spots_indirect (hid : cs.labelOf base = .ok id) :
    cs.spots ls σ (.indirect base) = .ok [(Operand.indirectY (.label id)).place ls σ] := by
  simp [spots, hid, bind, Except.bind, pure, Except.pure, Operand.place, Target.place, Target.id, Target.distance]

theorem CodeSetting.bytes_indirect (hid : cs.labelOf base = .ok id) :
    cs.bytes ls σ (.indirect base) = .ok [(Operand.indirectY (.label id)).value ls σ] := by
  change (cs.spots ls σ (.indirect base)).map (·.map σ.memory) = _
  rw [spots_indirect hid]
  rfl

theorem Codegen.ByteFrom.bytes (h : ByteFrom cs src s) : cs.bytes ls σ src = .ok [s.value ls σ] := by
  cases h with
  | constant ho =>
    obtain ⟨b, hb, rfl⟩ := map_eq_ok.1 ho
    rw [(byteOf_ok hb).1]
    rfl
  | behind hid => exact bytes_indirect hid
  | location hid ht hno => exact (single_location hid ht hno).1

theorem Codegen.PairFrom.supplies (h : PairFrom cs src o) : cs.Supplies ls σ src o := by
  cases h with
  | constant => exact supplies_constant
  | address hid ht => exact supplies_address hid ht
  | cell hid ho => exact (twin_cell hid ho).supplies rfl
  | location hid ht htwo => exact supplies_location hid ht htwo

theorem copy_moves (h : copy cs src dest = .ok ks) : CopyCode cs ls σ src dest ks := by
  cases copy_code h with
  | behind hid hs => exact .one hs.bytes (spots_indirect hid) rfl
  | cell hid ho hs => exact .two hs.supplies (twin_cell hid ho)
  | byte hid hu hs => exact .one hs.bytes (spots_byte hid hu) rfl
  | pair hid hu htwo hs => exact .two hs.supplies (twin_location hid hu htwo)

/-! ### Running it -/

theorem exec_move (hd : d.isCell = true) :
    Code.execAll ls (move s d) σ = (σ.setA (s.value ls σ)).poke (d.place ls σ) (s.value ls σ) := by
  have hplace : d.place ls (σ.setA (s.value ls σ)) = d.place ls σ := by cases d <;> rfl
  rw [← hplace]
  exact Operand.assign_of_isCell hd

/-- What the code of a copy does. -/
structure CodeSetting.Copied (cs : CodeSetting) (ls : Labels) (src dest : Ref) (σ σ' : Cpu) (ps : List Int) (bs : List UInt8) : Prop where
  spots : cs.spots ls σ dest = .ok ps ∧ ps ≠ []
  bytes : cs.bytes ls σ src = .ok bs
  moved : ps.map σ'.memory = bs
  kept : σ.Keeps {.a, .z, .n} {p | p ∈ ps} False σ'

theorem CopyCode.copied (hcode : CopyCode cs ls σ src dest ks) (hapart : cs.Apart ls σ src dest) :
    ∃ ps bs, cs.Copied ls src dest σ (Code.execAll ls ks σ) ps bs := by
  have hmove : ∀ {τ : Cpu} {F : Set Int} {p : Int} {b : UInt8}, p ∈ F → τ.Keeps {.a, .z, .n} F False ((τ.setA b).poke p b) :=
    fun hp => ((Cpu.Keeps.refl _).setA (by simp) (by simp) (by simp)).poke hp
  cases hcode with
  | @one s d hs hspots hd =>
    refine ⟨_, _, ⟨hspots, by simp⟩, hs, ?_, ?_⟩
    · rw [exec_move hd]
      simp [Cpu.poke]
    · rw [exec_move hd]
      exact hmove (by simp)
  | @two s d hs hd =>
    have hsecond : s.2.value ls ((σ.setA (s.1.value ls σ)).poke (d.1.place ls σ) (s.1.value ls σ)) = s.2.value ls σ :=
      hs.second_untouched hd hapart rfl rfl fun q hq => if_neg hq
    have hplace : d.2.place ls ((σ.setA (s.1.value ls σ)).poke (d.1.place ls σ) (s.1.value ls σ)) = d.2.place ls σ :=
      Operand.place_congr hd.fixed.2 rfl rfl
    refine ⟨_, _, ⟨hd.spots, by simp⟩, hs.bytes, ?_, ?_⟩
    all_goals rw [moveBoth, Code.execAll_append, exec_move hd.cells.1, exec_move hd.cells.2, hsecond, hplace]
    · simp [Cpu.poke, Cpu.setA, Cpu.mark, hd.apart]
    · exact (hmove (by simp)).trans (hmove (by simp))

theorem Instr.copy_runs (hc : (Instr.op l op).compile cs st = .ok st') (hh : h.Completes st st') (hop : op.settled = .copy src dest)
    (hapart : cs.Apart h.labels σ src dest) : ∃ σ' ps bs, h.Runs st st' σ σ' ∧ cs.Copied h.labels src dest σ σ' ps bs := by
  obtain ⟨ks, hks, hruns⟩ := Instr.op_executes (x := copy cs src dest) hc hh (fun e => by rw [hop]; rfl) (by rw [hop]; rfl)
  obtain ⟨ps, bs, hcopied⟩ := (copy_moves hks).copied hapart
  exact ⟨_, ps, bs, hruns σ, hcopied⟩

end

/-- The code of a copy leaves at the addresses of the destination the bytes that the source had before. It changes nothing else in
the memory, and no register or flag but the accumulator and the flags of a result. What was copied into a cell of a table comes out
of it again by the code of a copy to a location, as long as the index and the cell are not changed in between. -/
theorem Instr.copy_moves_bytes {cs : CodeSetting} {st st' : CodeState} {l : Nat} {op : Op} {src dest : Ref} {h : Host}
    (hc : (Instr.op l op).compile cs st = .ok st') (hh : h.Completes st st') (hop : op.settled = .copy src dest) (σ : Cpu)
    (hapart : cs.Apart h.labels σ src dest) :
    ∃ σ' ps bs, h.Runs st st' σ σ' ∧ cs.spots h.labels σ dest = .ok ps ∧ cs.bytes h.labels σ src = .ok bs ∧ ps ≠ []
      ∧ ps.map σ'.memory = bs ∧ σ.Keeps {.a, .z, .n} {p | p ∈ ps} False σ'
      ∧ ∀ (base offset index : Ref) (l' : Nat) (op' : Op) (st₁ st₁' : CodeState) (name : String) (τ : Cpu),
        dest = .indexed base offset index → op'.settled = .copy dest (.location name) →
        (Instr.op l' op').compile cs st₁ = .ok st₁' → h.Completes st₁ st₁' → τ.x = σ.x → τ.y = σ.y →
        (∀ p ∈ ps, τ.memory p = σ'.memory p) → cs.Apart h.labels τ dest (.location name) →
        ∃ τ' qs, h.Runs st₁ st₁' τ τ' ∧ cs.spots h.labels τ (.location name) = .ok qs ∧ qs.map τ'.memory = bs := by
  obtain ⟨σ', ps, bs, hruns, hcopied⟩ := Instr.copy_runs hc hh hop hapart
  refine ⟨σ', ps, bs, hruns, hcopied.spots.1, hcopied.bytes, hcopied.spots.2, hcopied.moved, hcopied.kept, ?_⟩
  rintro base offset index l' op' st₁ st₁' name τ rfl hop' hc' hh' hx hy hcell hapart'
  obtain ⟨τ', qs, bs', hruns', hback⟩ := Instr.copy_runs hc' hh' hop' hapart'
  refine ⟨τ', qs, hruns', hback.spots.1, ?_⟩
  have hspots : cs.spots h.labels τ (.indexed base offset index) = .ok ps := by
    rw [← hcopied.spots.1, CodeSetting.spots, CodeSetting.spots, Ref.indexValue?, Ref.indexValue?, hx, hy]
  have hbytes : cs.bytes h.labels τ (.indexed base offset index) = .ok (ps.map τ.memory) :=
    congrArg (Except.map fun ps : List Int => ps.map τ.memory) hspots
  rw [hback.moved, ← hcopied.moved, ← Except.ok.inj (hbytes.symm.trans hback.bytes)]
  exact List.map_congr_left hcell

/-- An element of the table of words. -/
def fetchedCell : Ref := .indexed (.location "many") (.constant ⟨.byte, 0⟩) .x

theorem one_copied_and_back :
    ∃ st' σ' st₁ τ, (Instr.op 0 (.copy (.location "one") fetchedCell)).compile fetchingSetting fetchingStart = .ok st'
      ∧ (Host.after st').Runs fetchingStart st' fetchingCpu σ' ∧ [1103, 1359].map σ'.memory = [0, 1]
      ∧ (Instr.op 0 (.copy fetchedCell (.location "one"))).compile fetchingSetting fetchingStart = .ok st₁
      ∧ (Host.after st').Runs fetchingStart st₁ σ' τ ∧ [1000, 1001].map τ.memory = [0, 1] := by
  have hc : (Instr.op 0 (.copy (.location "one") fetchedCell)).compile fetchingSetting fetchingStart = .ok _ := rfl
  have hc' : (Instr.op 0 (.copy fetchedCell (.location "one"))).compile fetchingSetting fetchingStart = .ok _ := rfl
  have hdisjoint : ∀ p ∈ [1000, 1001], p ∉ [1103, (1359 : Int)] := by decide
  obtain ⟨σ', ps, bs, hruns, hps, hbs, -, hmoved, hkept, hback⟩ :=
    Instr.copy_moves_bytes hc (Host.after_completes _ _) rfl fetchingCpu fun ps qs hps hqs =>
      .inr (Except.ok.inj hps ▸ Except.ok.inj hqs ▸ hdisjoint)
  obtain rfl : [1103, 1359] = ps := Except.ok.inj hps
  obtain rfl : [0, 1] = bs := Except.ok.inj hbs
  have hx : σ'.x = fetchingCpu.x := hkept.x (by decide)
  obtain ⟨τ, qs, hruns', hqs, hmoved'⟩ := hback _ _ _ 0 _ _ _ "one" σ' rfl rfl hc' ⟨fun _ _ _ h => h, fun _ _ h => h⟩ hx
    (hkept.y (by decide)) (fun _ _ => rfl) fun ps qs hps hqs => by
      simp only [fetchedCell, CodeSetting.spots, Ref.indexValue?, hx] at hps
      exact .inr fun p hp hq => hdisjoint p (Except.ok.inj hqs ▸ hq) (Except.ok.inj hps ▸ hp)
  obtain rfl : [1000, 1001] = qs := Except.ok.inj hqs
  exact ⟨_, σ', _, τ, hc, hruns, hmoved, hc', hruns', hmoved'⟩

end CheckedAsm
