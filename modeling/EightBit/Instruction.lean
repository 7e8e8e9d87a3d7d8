import EightBit.Text

namespace EightBit

inductive AddressingMode where
  | implied
  | immediate
  | zeroPage
  | absolute
  | absoluteX
  | absoluteY
  | indirectY
  | relative
  deriving DecidableEq

namespace AddressingMode

def all : List AddressingMode :=
  [implied, immediate, zeroPage, absolute, absoluteX, absoluteY, indirectY, relative]

def operandLength : AddressingMode → Nat
  | implied => 0
  | immediate | zeroPage | indirectY | relative => 1
  | absolute | absoluteX | absoluteY => 2

def size (mode : AddressingMode) : Nat := 1 + mode.operandLength

def describe : AddressingMode → String
  | implied => "implied"
  | immediate => "immediate"
  | zeroPage => "zero page"
  | absolute => "absolute"
  | absoluteX => "absolute,X"
  | absoluteY => "absolute,Y"
  | indirectY => "(indirect),Y"
  | relative => "relative"

end AddressingMode

inductive Mnemonic where
  | adc
  | bcc
  | bcs
  | beq
  | bmi
  | bne
  | bpl
  | bvc
  | bvs
  | clc
  | cmp
  | cpx
  | cpy
  | dex
  | dey
  | inc
  | inx
  | iny
  | jmp
  | jsr
  | lda
  | ldx
  | ldy
  | nop
  | pha
  | pla
  | rts
  | sec
  | sta
  | stx
  | sty
  | tax
  | tay
  | txa
  | tya
  deriving DecidableEq

namespace Mnemonic

def all : List Mnemonic :=
  [adc, bcc, bcs, beq, bmi, bne, bpl, bvc, bvs, clc, cmp, cpx, cpy, dex, dey, inc, inx, iny,
   jmp, jsr, lda, ldx, ldy, nop, pha, pla, rts, sec, sta, stx, sty, tax, tay, txa, tya]

def name : Mnemonic → String
  | adc => "ADC"
  | bcc => "BCC"
  | bcs => "BCS"
  | beq => "BEQ"
  | bmi => "BMI"
  | bne => "BNE"
  | bpl => "BPL"
  | bvc => "BVC"
  | bvs => "BVS"
  | clc => "CLC"
  | cmp => "CMP"
  | cpx => "CPX"
  | cpy => "CPY"
  | dex => "DEX"
  | dey => "DEY"
  | inc => "INC"
  | inx => "INX"
  | iny => "INY"
  | jmp => "JMP"
  | jsr => "JSR"
  | lda => "LDA"
  | ldx => "LDX"
  | ldy => "LDY"
  | nop => "NOP"
  | pha => "PHA"
  | pla => "PLA"
  | rts => "RTS"
  | sec => "SEC"
  | sta => "STA"
  | stx => "STX"
  | sty => "STY"
  | tax => "TAX"
  | tay => "TAY"
  | txa => "TXA"
  | tya => "TYA"

def ofName? (name : String) : Option Mnemonic :=
  all.find? fun mnemonic => mnemonic.name = Text.upperCase name.toList

theorem ofName?_name (mnemonic : Mnemonic) : ofName? mnemonic.name = some mnemonic := by
  cases mnemonic <;> decide

end Mnemonic

structure Instruction where
  opcode : UInt8
  mnemonic : Mnemonic
  mode : AddressingMode
  /-- The cost before the penalties for crossed pages and taken branches. -/
  cycles : Nat
  deriving DecidableEq

namespace Instruction

def all : List Instruction :=
  [⟨0xEA, .nop, .implied, 2⟩, ⟨0x69, .adc, .immediate, 2⟩, ⟨0x65, .adc, .zeroPage, 3⟩,
   ⟨0x6D, .adc, .absolute, 4⟩, ⟨0x90, .bcc, .relative, 2⟩, ⟨0xB0, .bcs, .relative, 2⟩,
   ⟨0xF0, .beq, .relative, 2⟩, ⟨0x30, .bmi, .relative, 2⟩, ⟨0xD0, .bne, .relative, 2⟩,
   ⟨0x10, .bpl, .relative, 2⟩, ⟨0x50, .bvc, .relative, 2⟩, ⟨0x70, .bvs, .relative, 2⟩,
   ⟨0x18, .clc, .implied, 2⟩, ⟨0x38, .sec, .implied, 2⟩, ⟨0xC9, .cmp, .immediate, 2⟩,
   ⟨0xC5, .cmp, .zeroPage, 3⟩, ⟨0xCD, .cmp, .absolute, 4⟩, ⟨0xE0, .cpx, .immediate, 2⟩,
   ⟨0xE4, .cpx, .zeroPage, 3⟩, ⟨0xEC, .cpx, .absolute, 4⟩, ⟨0xC0, .cpy, .immediate, 2⟩,
   ⟨0xC4, .cpy, .zeroPage, 3⟩, ⟨0xCC, .cpy, .absolute, 4⟩, ⟨0xCA, .dex, .implied, 2⟩,
   ⟨0x88, .dey, .implied, 2⟩, ⟨0xE8, .inx, .implied, 2⟩, ⟨0xC8, .iny, .implied, 2⟩,
   ⟨0xE6, .inc, .zeroPage, 5⟩, ⟨0xEE, .inc, .absolute, 6⟩, ⟨0x4C, .jmp, .absolute, 3⟩,
   ⟨0x20, .jsr, .absolute, 6⟩, ⟨0x60, .rts, .implied, 6⟩, ⟨0xA9, .lda, .immediate, 2⟩,
   ⟨0xA5, .lda, .zeroPage, 3⟩, ⟨0xAD, .lda, .absolute, 4⟩, ⟨0xBD, .lda, .absoluteX, 4⟩,
   ⟨0xB9, .lda, .absoluteY, 4⟩, ⟨0xB1, .lda, .indirectY, 5⟩, ⟨0xA2, .ldx, .immediate, 2⟩,
   ⟨0xA6, .ldx, .zeroPage, 3⟩, ⟨0xAE, .ldx, .absolute, 4⟩, ⟨0xA0, .ldy, .immediate, 2⟩,
   ⟨0xA4, .ldy, .zeroPage, 3⟩, ⟨0xAC, .ldy, .absolute, 4⟩, ⟨0x85, .sta, .zeroPage, 3⟩,
   ⟨0x8D, .sta, .absolute, 4⟩, ⟨0x9D, .sta, .absoluteX, 5⟩, ⟨0x99, .sta, .absoluteY, 5⟩,
   ⟨0x91, .sta, .indirectY, 6⟩, ⟨0x86, .stx, .zeroPage, 3⟩, ⟨0x8E, .stx, .absolute, 4⟩,
   ⟨0x84, .sty, .zeroPage, 3⟩, ⟨0x8C, .sty, .absolute, 4⟩, ⟨0x48, .pha, .implied, 3⟩,
   ⟨0x68, .pla, .implied, 4⟩, ⟨0xAA, .tax, .implied, 2⟩, ⟨0xA8, .tay, .implied, 2⟩,
   ⟨0x8A, .txa, .implied, 2⟩, ⟨0x98, .tya, .implied, 2⟩]

def decode? (opcode : UInt8) : Option Instruction := all.find? (·.opcode == opcode)

def encode? (mnemonic : Mnemonic) (mode : AddressingMode) : Option UInt8 :=
  (all.find? fun instruction => instruction.mnemonic = mnemonic ∧ instruction.mode = mode).map
    (·.opcode)

theorem decode?_opcode (instruction : Instruction) (defined : instruction ∈ all) :
    decode? instruction.opcode = some instruction := by
  revert instruction
  decide

theorem opcode_of_decode? {opcode : UInt8} {instruction : Instruction}
    (found : decode? opcode = some instruction) : instruction.opcode = opcode := by
  simpa using List.find?_some found

theorem decode?_of_encode? {mnemonic : Mnemonic} {mode : AddressingMode}
    {opcode : UInt8} (coded : encode? mnemonic mode = some opcode) :
    ∃ instruction, decode? opcode = some instruction ∧ instruction.mnemonic = mnemonic ∧
      instruction.mode = mode := by
  obtain ⟨instruction, found, same⟩ := Option.map_eq_some_iff.mp coded
  have listed := List.mem_of_find?_eq_some found
  have matching : instruction.mnemonic = mnemonic ∧ instruction.mode = mode := by
    simpa using List.find?_some found
  rw [← same]
  exact ⟨instruction, decode?_opcode instruction listed, matching⟩

theorem mem_all_of_decode? {opcode : UInt8} {instruction : Instruction}
    (decoded : decode? opcode = some instruction) : instruction ∈ all :=
  List.mem_of_find?_eq_some decoded

end Instruction

namespace Mnemonic

def supports (mnemonic : Mnemonic) (mode : AddressingMode) : Bool :=
  (Instruction.encode? mnemonic mode).isSome

def isBranch (mnemonic : Mnemonic) : Bool := mnemonic.supports .relative

end Mnemonic

end EightBit
