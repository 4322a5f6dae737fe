import CheckedAsm.Proofs.Codegen.Labels
/-! # Where branches land

The operand of a branch is one byte, which the machine adds to the address after the branch as a number from -128 to 127.
Distances below -127 and above 255 are refused. A branch lands on its label exactly where the distance is at most 127; from
there on the byte stands for a place 256 bytes before the label. -/

namespace CheckedAsm

open Codegen

variable {b : UInt8} {m : Mnemonic} {o : Operand} {symbols : Symbols} {p : Program} {roster : Option (List (List String))}

/-! ### Distances -/

theorem toInt8_lowBits (d : Int) : (lowBits d).toInt8.toInt = d.bmod 256 := by
  have hbits : (lowBits d).toInt8.toInt = ((d % 256).toNat : Int).bmod 256 := by
    rw [lowBits]
    exact BitVec.toInt_ofNat' (d % 256).toNat
  have hcast : ((d % 256).toNat : Int) = d % 256 := Int.toNat_of_nonneg (Int.emod_nonneg d (by decide))
  rw [hbits, hcast]
  exact Int.emod_bmod d 256

/-- A number that fits in one byte is what the byte stands for, or 256 more. -/
theorem byteOf_toInt8 {d : Int} (h : byteOf d = .ok b) :
    -127 ≤ d ∧ d ≤ 255 ∧ b.toInt8.toInt = if d ≤ 127 then d else d - 256 := by
  obtain ⟨rfl, hlow, hhigh⟩ := byteOf_ok h
  refine ⟨hlow, hhigh, ?_⟩
  rw [toInt8_lowBits]
  split
  · exact Int.bmod_eq_of_le (by omega) (by omega)
  · rw [← Int.sub_bmod_right]
    exact Int.bmod_eq_of_le (by omega) (by omega)

/-- Branches have no other operands than distances. -/
theorem Mnemonic.relative_of_branch (hm : m.isBranch = true) (ho : m.opcode? o.mode = some b) : ∃ id, o = .relative id := by
  unfold isBranch at hm
  split at hm
  all_goals
    first
    | cases hm; done
    | cases o <;> first | exact ⟨_, rfl⟩ | cases ho

/-- The bytes of a branch: its opcode and the distance to its label. -/
theorem Item.branch_bytes {ls : Labels} {place : Int} {bs : List UInt8} (hm : m.isBranch = true)
    (h : (Item.code m o).bytes ls place = .ok bs) :
    ∃ id target opcode operand, o = .relative id ∧ (ls.entry id).addr = some target ∧ bs = [opcode, operand]
      ∧ byteOf (target - (place + 2)) = .ok operand := by
  obtain ⟨opcode, rest, hopcode, hrest, rfl⟩ := Item.code_bytes h
  obtain ⟨id, rfl⟩ := Mnemonic.relative_of_branch hm hopcode
  simp only [Operand.bytes, bind_eq_ok, pure_eq_ok] at hrest
  obtain ⟨target, htarget, operand, hoperand, rfl⟩ := hrest
  unfold Target.resolve at htarget
  split at htarget
  · cases htarget
  case h_2 a ha =>
    have heq : a = target := by simpa [Target.distance] using htarget
    exact ⟨id, target, opcode, operand, rfl, heq ▸ ha, rfl, hoperand⟩

/-! ### Branches of a program -/

theorem Program.layOut_start {e : Emitter} {L : Layout} (h : p.layOut symbols roster e = .ok L) : L.emitter.start = e.start := by
  obtain ⟨e1, ps, st, as, tr, ds, hcourse⟩ := Program.layOut_course h
  rw [← hcourse.run, Emitter.start_acts, Program.placed_emitter hcourse.placed]

theorem Image.ofProgram_start {format : Option String}
    {origin : Option Int} {image : Image} (h : Image.ofProgram symbols p roster format origin = .ok image) :
    ∃ f, Format.named format = .ok f ∧ image.header = f.header (origin.getD f.origin)
      ∧ image.layout.emitter.start = origin.getD f.origin := by
  simp only [ofProgram, bind_eq_ok, pure_eq_ok] at h
  obtain ⟨f, hf, L, hL, e, he, rfl⟩ := h
  obtain ⟨-, hstart, -⟩ := Format.closed_ok he
  exact ⟨f, hf, rfl, by rw [hstart, Program.layOut_start hL, f.opened_start]⟩

/-- A program has become bytes. Every branch in it goes to a label whose address is known, and its distance from the address
after the branch is from -127 to 255, as any other would have been refused. The machine comes to the label exactly
where the distance is at most 127. Where it is more, the machine comes to the place 256 bytes before the label. -/
theorem Image.branches_land {symbols : Symbols} {p : Program} {roster : Option (List (List String))} {format : Option String}
    {origin : Option Int} {image : Image} {code : List UInt8} {before after : List Item} {m : Mnemonic} {o : Operand}
    (hi : Image.ofProgram symbols p roster format origin = .ok image) (hcode : image.bytes = .ok code)
    (hm : m.isBranch = true) (hitems : image.layout.emitter.items.toList = before ++ .code m o :: after) :
    ∃ f id target pre post opcode operand, Format.named format = .ok f ∧ o = .relative id
      ∧ (image.layout.emitter.labels.entry id).addr = some target
      ∧ Emitter.bytesFrom image.layout.emitter.labels (origin.getD f.origin) before = .ok pre
      ∧ code = f.header (origin.getD f.origin) ++ pre ++ opcode :: operand :: post
      ∧ let next : Int := origin.getD f.origin + pre.length + 2
        target - next ≤ 255 ∧ -127 ≤ target - next
          ∧ (next + operand.toInt8.toInt = target ↔ target - next ≤ 127)
          ∧ (127 < target - next → next + operand.toInt8.toInt = target - 256) := by
  obtain ⟨f, hf, hheader, hstart⟩ := Image.ofProgram_start hi
  simp only [bytes, bind_eq_ok, pure_eq_ok] at hcode
  obtain ⟨bs, hbs, rfl⟩ := hcode
  rw [Emitter.bytes, hitems, hstart] at hbs
  obtain ⟨pre, rest, hpre, hrest, rfl⟩ := Emitter.bytesFrom_append_ok.1 hbs
  obtain ⟨branch, post, hbranch, -, rfl⟩ := Emitter.bytesFrom_cons_ok.1 hrest
  obtain ⟨id, target, opcode, operand, rfl, htarget, rfl, hoperand⟩ := Item.branch_bytes hm hbranch
  obtain ⟨hlow, hhigh, hsigned⟩ := byteOf_toInt8 hoperand
  refine ⟨f, id, target, pre, post, opcode, operand, hf, rfl, htarget, hpre, ?_, hhigh, hlow, ?_, ?_⟩
  · rw [hheader]
    simp
  · rw [hsigned]
    split <;> omega
  · intro hfar
    rw [hsigned, if_neg (by omega)]
    omega

/-- A choice of so many instructions that do nothing. -/
def idleChoice (n : Nat) : Program :=
  { routines := [⟨0, "main", none, [],
      some (.cons (.ifThen 0 .c false (.ofList 0 (List.replicate n (.op 0 .nop)))) (.nil 0)), false⟩] }

/-- The symbols of the program. -/
def idleChoiceSymbols : Symbols :=
  Symbols.initial.declare "main" ⟨.builtin, .routine { inputs := [⟨"c", none⟩] }⟩

theorem idleChoice_lands :
    ∃ image code target operand, Image.ofProgram idleChoiceSymbols (idleChoice 1) none (some "raw") none = .ok image
      ∧ image.bytes = .ok code ∧ (image.layout.emitter.labels.entry 1).addr = some target ∧ code[1]? = some operand
      ∧ 2 + operand.toInt8.toInt = target := by
  refine ⟨_, _, 3, 1, rfl, rfl, rfl, rfl, ?_⟩
  obtain ⟨f, id, target, pre, post, opcode, operand, hf, ho, htarget, hpre, hcode, -, -, hlands, -⟩ :=
    @Image.branches_land idleChoiceSymbols (idleChoice 1) none (some "raw") none _ _ [] _ .bcc (.relative 1) rfl rfl rfl rfl
  cases hf
  cases ho
  cases htarget
  cases hpre
  cases hcode
  exact hlands.2 (by decide)

/-- Whether the machine comes to the label of the branch that the image begins with. -/
def Image.firstLands (image : Image) : Option Bool :=
  match image.layout.emitter.items.toList, image.bytes with
  | .code _ (.relative id) :: _, .ok code => do
    let target ← (image.layout.emitter.labels.entry id).addr
    let operand ← code[image.header.length + 1]?
    pure (image.layout.emitter.start + 2 + operand.toInt8.toInt == target)
  | _, _ => none

/-- A branch past 128 bytes becomes bytes, and goes elsewhere. -/
theorem idleChoice_misses :
    ((idleChoice 128).analyse idleChoiceSymbols).2.isOk = true
      ∧ (Image.ofProgram idleChoiceSymbols (idleChoice 128) none (some "raw") none).toOption.bind Image.firstLands = some false :=
  ⟨by decide +kernel, by decide +kernel⟩

end CheckedAsm
