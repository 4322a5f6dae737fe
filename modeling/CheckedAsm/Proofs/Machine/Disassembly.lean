import CheckedAsm.Proofs.Machine.Serial
/-! # Reading machine code back

No two pairs of a mnemonic and a mode share an opcode, so the first byte of an instruction tells what it is, and its mode
tells how many bytes follow. Read from its first byte on, the code of any instructions falls apart into them again. -/

namespace CheckedAsm

open List

variable {b : UInt8} {m : Mnemonic} {mode : Mode} {o : List UInt8}

/-! ### The opcodes inverted -/

namespace Mnemonic

/-- Every opcode with what it encodes. -/
def encodings : List (UInt8 × Mnemonic × Mode) :=
  all.flatMap fun m => Mode.all.filterMap fun mode => (m.opcode? mode).map fun b => (b, m, mode)

/-- What an opcode encodes. -/
def ofOpcode? (b : UInt8) : Option (Mnemonic × Mode) := encodings.lookup b

theorem mem_all (m : Mnemonic) : m ∈ all := by cases m <;> decide

theorem mem_modes (mode : Mode) : mode ∈ Mode.all := by cases mode <;> decide

theorem mem_encodings : (b, m, mode) ∈ encodings ↔ m.opcode? mode = some b := by
  simp only [encodings, mem_flatMap, mem_filterMap, Option.map_eq_some_iff, mem_all, mem_modes, true_and,
    Prod.mk.injEq]
  constructor
  · rintro ⟨_, _, _, h, rfl, rfl, rfl⟩
    exact h
  · intro h
    exact ⟨m, mode, b, h, rfl, rfl, rfl⟩

theorem encodings_nodup : (encodings.map Prod.fst).Nodup := by decide +kernel

/-- An opcode encodes one pair of a mnemonic and a mode. -/
theorem ofOpcode?_eq_some : ofOpcode? b = some (m, mode) ↔ m.opcode? mode = some b := by
  rw [← mem_encodings, ofOpcode?]
  constructor
  · intro h
    obtain ⟨l1, l2, heq, -⟩ := lookup_eq_some_iff.1 h
    simp [heq]
  · intro hmem
    obtain ⟨l1, l2, heq⟩ := append_of_mem hmem
    refine lookup_eq_some_iff.2 ⟨l1, l2, heq, fun p hp => ?_⟩
    -- The opcodes before this one are other bytes.
    have hnodup := encodings_nodup
    rw [heq, map_append, map_cons] at hnodup
    have hne := (nodup_append.1 hnodup).2.2 p.1 (mem_map_of_mem hp) b mem_cons_self
    simpa using hne.symm

end Mnemonic

/-- The size in bytes of an operand in a mode. -/
def Mode.size : Mode → Nat
  | implied => 0
  | immediate | zeroPage | indirectY | relative => 1
  | absolute | absoluteX | absoluteY | indirect => 2

theorem Operand.size_mode (o : Operand) : o.mode.size = o.size := by cases o <;> rfl

/-! ### The disassembler -/

/-- An instruction as its bytes tell it. -/
structure Decoded where
  mnemonic : Mnemonic
  mode : Mode
  operand : List UInt8
  deriving DecidableEq

/-- Reads bytes as instructions, one after the other, up to the last byte. -/
def disassemble (bs : List UInt8) : Option (List Decoded) :=
  match bs with
  | [] => some []
  | b :: rest =>
    match Mnemonic.ofOpcode? b with
    | none => none
    | some (m, mode) =>
      if mode.size ≤ rest.length then
        (disassemble (rest.drop mode.size)).map (⟨m, mode, rest.take mode.size⟩ :: ·)
      else none
termination_by bs.length
decreasing_by
  rw [length_drop, length_cons]
  omega

theorem disassemble_nil : disassemble [] = some [] := by rw [disassemble]

/-- One step of the disassembler: an opcode with the bytes its mode asks for. -/
theorem disassemble_cons {rest : List UInt8} (hb : m.opcode? mode = some b) (ho : o.length = mode.size) :
    disassemble (b :: o ++ rest) = (disassemble rest).map (⟨m, mode, o⟩ :: ·) := by
  rw [cons_append, disassemble, Mnemonic.ofOpcode?_eq_some.2 hb]
  simp only [← ho, length_append, Nat.le_add_right, if_true, drop_left, take_left]

/-! ### Instructions as they are written -/

/-- Instructions with the bytes of their operands, the first of them at the given address. -/
def Code.written (ls : Labels) : Int → List Code → Except Fault (List Decoded)
  | _, [] => .ok []
  | a, k :: ks => do
    let o ← k.operand.bytes ls a
    let ds ← written ls (a + k.size) ks
    pure (⟨k.mnemonic, k.operand.mode, o⟩ :: ds)

/-- The room of instructions as they are written. -/
def Decoded.room : List Decoded → Nat
  | [] => 0
  | d :: ds => 1 + d.operand.length + room ds

section

variable {ls : Labels} {a : Int} {ks : List Code} {bs : List UInt8}

theorem Code.written_cons_ok {k : Code} {ds : List Decoded} (ho : k.operand.bytes ls a = .ok o)
    (hds : written ls (a + k.size) ks = .ok ds) : written ls a (k :: ks) = .ok (⟨k.mnemonic, k.operand.mode, o⟩ :: ds) := by
  rw [written, ho]
  show (written ls (a + k.size) ks >>= _) = _
  rw [hds]
  rfl

/-- The bytes of instructions are read back as the instructions that were written. -/
theorem disassemble_bytesFrom (h : Emitter.bytesFrom ls a (ks.map Code.item) = .ok bs) :
    ∃ ds, Code.written ls a ks = .ok ds ∧ disassemble bs = some ds ∧
      ds.map (fun d => (d.mnemonic, d.mode)) = ks.map (fun k => (k.mnemonic, k.operand.mode)) ∧
      Decoded.room ds = bs.length := by
  induction ks generalizing a bs with
  | nil =>
    cases h
    exact ⟨[], rfl, disassemble_nil, rfl, rfl⟩
  | cons k ks ih =>
    obtain ⟨_, rest, hk, hrest, rfl⟩ := Emitter.bytesFrom_cons_ok.1 h
    obtain ⟨b, o, hb, ho, rfl⟩ := Item.code_bytes hk
    have hlength : o.length = k.operand.size := Operand.bytes_length ho
    -- The next instruction stands where the bytes of this one end.
    have haddr : a + ((b :: o).length : Int) = a + k.size := by
      rw [Code.size, length_cons, hlength]
      omega
    rw [haddr] at hrest
    obtain ⟨ds, hds, hrest, hnames, hroom⟩ := ih hrest
    refine ⟨⟨k.mnemonic, k.operand.mode, o⟩ :: ds, Code.written_cons_ok ho hds, ?_, ?_, ?_⟩
    · rw [disassemble_cons hb (hlength.trans k.operand.size_mode.symm), hrest]
      rfl
    · rw [map_cons, map_cons, hnames]
    · rw [length_append, ← hroom, length_cons, Nat.add_comm o.length 1]
      rfl

end

/-- Instructions that become bytes are read back from them: the mnemonics, the modes and the bytes of the operands come in
their order, and no byte is left over. So no other instructions, with any labels and at any address, have the same bytes. -/
theorem Emitter.disassemble_bytes {e : Emitter} {ks : List Code} {bs : List UInt8}
    (hitems : e.items.toList = ks.map Code.item) (hbytes : e.bytes = .ok bs) :
    ∃ ds, Code.written e.labels e.start ks = .ok ds ∧ disassemble bs = some ds ∧
      ds.map (fun d => (d.mnemonic, d.mode)) = ks.map (fun k => (k.mnemonic, k.operand.mode)) ∧
      Decoded.room ds = bs.length ∧
      ∀ (e' : Emitter) (ks' : List Code), e'.items.toList = ks'.map Code.item → e'.bytes = .ok bs →
        Code.written e'.labels e'.start ks' = .ok ds := by
  rw [Emitter.bytes, hitems] at hbytes
  obtain ⟨ds, hds, hread, hnames, hroom⟩ := disassemble_bytesFrom hbytes
  refine ⟨ds, hds, hread, hnames, hroom, fun e' ks' hitems' hbytes' => ?_⟩
  rw [Emitter.bytes, hitems'] at hbytes'
  obtain ⟨ds', hds', hread', -⟩ := disassemble_bytesFrom hbytes'
  rw [hread] at hread'
  rw [hds', ← Option.some.inj hread']

/-- A loop that stores the accumulator through a pointer and counts a register down, and then jumps through a vector. -/
def fillLoop : Emitter where
  start := 49152
  addr := 49165
  items := #[.code .ldy (.immediate (.byte 16)), .code .lda (.absoluteX (.offset 0 2)), .code .sta (.indirectY (.label 1)),
    .code .dey .implied, .code .bne (.relative 2), .code .jmp (.indirect 0)]
  labels := #[⟨"vector", some 788, none⟩, ⟨"pointer", some 254, none⟩, ⟨"loop", some 49154, none⟩]

theorem fillLoop_disassembled :
    disassemble [0xa0, 16, 0xbd, 0x16, 0x03, 0x91, 254, 0x88, 0xd0, 0xf8, 0x6c, 0x14, 0x03] =
      some [⟨.ldy, .immediate, [16]⟩, ⟨.lda, .absoluteX, [0x16, 0x03]⟩, ⟨.sta, .indirectY, [254]⟩, ⟨.dey, .implied, []⟩,
        ⟨.bne, .relative, [0xf8]⟩, ⟨.jmp, .indirect, [0x14, 0x03]⟩] := by
  have hitems : fillLoop.items.toList = List.map Code.item [⟨.ldy, .immediate (.byte 16)⟩,
      ⟨.lda, .absoluteX (.offset 0 2)⟩, ⟨.sta, .indirectY (.label 1)⟩, ⟨.dey, .implied⟩, ⟨.bne, .relative 2⟩,
      ⟨.jmp, .indirect 0⟩] := rfl
  have hbytes : fillLoop.bytes =
      .ok [0xa0, 16, 0xbd, 0x16, 0x03, 0x91, 254, 0x88, 0xd0, 0xf8, 0x6c, 0x14, 0x03] := rfl
  obtain ⟨ds, hwritten, hread, -⟩ := Emitter.disassemble_bytes hitems hbytes
  rw [hread, ← Except.ok.inj hwritten]
  rfl

end CheckedAsm
