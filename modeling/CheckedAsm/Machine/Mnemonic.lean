/-! # Instructions of the 6502

The mnemonics and addressing modes that compiled code uses, and the one byte that encodes each pair
of them the code generator may ask for. -/

namespace CheckedAsm

/-- An addressing mode. -/
inductive Mode where
  | implied
  | immediate
  | absolute
  | absoluteX
  | absoluteY
  | zeroPage
  | indirect
  | indirectY
  | relative
  deriving DecidableEq

/-- The name of a mode, as reports give it. -/
def Mode.name : Mode → String
  | implied => "Implied"
  | immediate => "Immediate"
  | absolute => "Absolute"
  | absoluteX => "AbsoluteX"
  | absoluteY => "AbsoluteY"
  | zeroPage => "ZeroPage"
  | indirect => "Indirect"
  | indirectY => "IndirectY"
  | relative => "Relative"

/-- All modes. -/
def Mode.all : List Mode :=
  [.implied, .immediate, .absolute, .absoluteX, .absoluteY, .zeroPage, .indirect, .indirectY,
    .relative]

/-- The mode of a name. -/
def Mode.ofName? (name : String) : Option Mode := all.find? fun m => m.name == name

/-- A mnemonic. -/
inductive Mnemonic where
  | adc | and | bcc | bcs | beq | bne | bpl | bmi | clc | cli | cmp
  | cpx | cpy | dec | dex | dey | eor | inc | inx | iny | jmp | jsr
  | lda | ldx | ldy | ora | pha | pla | rol | ror | rts | nop | sbc
  | sec | sei | sta | stx | sty | tax | tay | txa | tya
  deriving DecidableEq

namespace Mnemonic

/-- The mnemonic in capitals, as listings write it. -/
def name : Mnemonic → String
  | adc => "ADC"
  | and => "AND"
  | bcc => "BCC"
  | bcs => "BCS"
  | beq => "BEQ"
  | bne => "BNE"
  | bpl => "BPL"
  | bmi => "BMI"
  | clc => "CLC"
  | cli => "CLI"
  | cmp => "CMP"
  | cpx => "CPX"
  | cpy => "CPY"
  | dec => "DEC"
  | dex => "DEX"
  | dey => "DEY"
  | eor => "EOR"
  | inc => "INC"
  | inx => "INX"
  | iny => "INY"
  | jmp => "JMP"
  | jsr => "JSR"
  | lda => "LDA"
  | ldx => "LDX"
  | ldy => "LDY"
  | ora => "ORA"
  | pha => "PHA"
  | pla => "PLA"
  | rol => "ROL"
  | ror => "ROR"
  | rts => "RTS"
  | nop => "NOP"
  | sbc => "SBC"
  | sec => "SEC"
  | sei => "SEI"
  | sta => "STA"
  | stx => "STX"
  | sty => "STY"
  | tax => "TAX"
  | tay => "TAY"
  | txa => "TXA"
  | tya => "TYA"

/-- The byte that encodes an instruction in an addressing mode, if it has that mode. -/
def opcode? : Mnemonic → Mode → Option UInt8
  | adc, .immediate => some 0x69
  | adc, .absolute => some 0x6d
  | adc, .absoluteX => some 0x7d
  | adc, .absoluteY => some 0x79
  | and, .immediate => some 0x29
  | and, .absolute => some 0x2d
  | and, .absoluteX => some 0x3d
  | and, .absoluteY => some 0x39
  | and, .zeroPage => some 0x25
  | bcc, .relative => some 0x90
  | bcs, .relative => some 0xb0
  | beq, .relative => some 0xf0
  | bne, .relative => some 0xd0
  | bpl, .relative => some 0x10
  | bmi, .relative => some 0x30
  | clc, .implied => some 0x18
  | cli, .implied => some 0x58
  | cmp, .immediate => some 0xc9
  | cmp, .absolute => some 0xcd
  | cmp, .absoluteX => some 0xdd
  | cmp, .absoluteY => some 0xd9
  | cpx, .immediate => some 0xe0
  | cpx, .absolute => some 0xec
  | cpy, .immediate => some 0xc0
  | cpy, .absolute => some 0xcc
  | dec, .absolute => some 0xce
  | dec, .absoluteX => some 0xde
  | dex, .implied => some 0xca
  | dey, .implied => some 0x88
  | eor, .immediate => some 0x49
  | eor, .absolute => some 0x4d
  | eor, .absoluteX => some 0x5d
  | eor, .absoluteY => some 0x59
  | eor, .zeroPage => some 0x45
  | inc, .absolute => some 0xee
  | inc, .absoluteX => some 0xfe
  | inx, .implied => some 0xe8
  | iny, .implied => some 0xc8
  | jmp, .absolute => some 0x4c
  | jmp, .indirect => some 0x6c
  | jsr, .absolute => some 0x20
  | lda, .immediate => some 0xa9
  | lda, .absolute => some 0xad
  | lda, .absoluteX => some 0xbd
  | lda, .absoluteY => some 0xb9
  | lda, .indirectY => some 0xb1
  | lda, .zeroPage => some 0xa5
  | ldx, .immediate => some 0xa2
  | ldx, .absolute => some 0xae
  | ldx, .absoluteY => some 0xbe
  | ldy, .immediate => some 0xa0
  | ldy, .absolute => some 0xac
  | ldy, .absoluteX => some 0xbc
  | ora, .immediate => some 0x09
  | ora, .absolute => some 0x0d
  | ora, .absoluteX => some 0x1d
  | ora, .absoluteY => some 0x19
  | ora, .zeroPage => some 0x05
  | pha, .implied => some 0x48
  | pla, .implied => some 0x68
  | rol, .implied => some 0x2a
  | rol, .absolute => some 0x2e
  | rol, .absoluteX => some 0x3e
  | ror, .implied => some 0x6a
  | ror, .absolute => some 0x6e
  | ror, .absoluteX => some 0x7e
  | rts, .implied => some 0x60
  | nop, .implied => some 0xea
  | sbc, .immediate => some 0xe9
  | sbc, .absolute => some 0xed
  | sbc, .absoluteX => some 0xfd
  | sbc, .absoluteY => some 0xf9
  | sec, .implied => some 0x38
  | sei, .implied => some 0x78
  | sta, .absolute => some 0x8d
  | sta, .absoluteX => some 0x9d
  | sta, .absoluteY => some 0x99
  | sta, .indirectY => some 0x91
  | sta, .zeroPage => some 0x85
  | stx, .absolute => some 0x8e
  | sty, .absolute => some 0x8c
  | tax, .implied => some 0xaa
  | tay, .implied => some 0xa8
  | txa, .implied => some 0x8a
  | tya, .implied => some 0x98
  | _, _ => none

/-- All mnemonics. -/
def all : List Mnemonic :=
  [.adc, .and, .bcc, .bcs, .beq, .bne, .bpl, .bmi, .clc, .cli, .cmp, .cpx, .cpy, .dec, .dex,
    .dey, .eor, .inc, .inx, .iny, .jmp, .jsr, .lda, .ldx, .ldy, .ora, .pha, .pla, .rol,
    .ror, .rts, .nop, .sbc, .sec, .sei, .sta, .stx, .sty, .tax, .tay, .txa, .tya]

/-- The mnemonic of a name. -/
def ofName? (name : String) : Option Mnemonic := all.find? fun m => m.name == name

end Mnemonic

end CheckedAsm
