import EightBit.Proofs.Cpu.Addresses

namespace EightBit

theorem toNat_signExtend_eq (byte : UInt8) :
    ((signExtend byte).toNat : Int) = byte.toInt8.toInt % 0x10000 := by
  have bound := byte.toNat_lt
  have sign : byte.toInt8.toInt =
      if 2 * byte.toNat < 0x100 then (byte.toNat : Int) else byte.toNat - 0x100 :=
    BitVec.toInt_eq_toNat_cond byte.toBitVec
  have ones : (0xFF00 : UInt16).toNat = 0xFF00 := rfl
  have half : byte < 0x80 ↔ byte.toNat < 0x80 := UInt8.lt_iff_toNat_lt
  rw [signExtend, sign]
  by_cases positive : byte < 0x80
  · have small := half.mp positive
    rw [if_pos positive, if_pos (by omega), UInt8.toNat_toUInt16]
    omega
  · have large : ¬ byte.toNat < 0x80 := fun small => positive (half.mpr small)
    rw [if_neg positive, if_neg (by omega), UInt16.toNat_add, UInt8.toNat_toUInt16, ones]
    omega

namespace Cpu

variable {cpu : Cpu} {instruction : Instruction} {registers : Registers} {memory : Memory}
  {place : Place}

theorem pc_perform_of_passes
    (moves : instruction.mnemonic ∉ [Mnemonic.jmp, Mnemonic.jsr, Mnemonic.rts])
    (untaken : registers.branches instruction.mnemonic = false) :
    (perform instruction registers memory place).registers.pc =
      registers.pc + UInt16.ofNat instruction.mode.size := by
  unfold perform
  revert moves untaken
  cases instruction.mnemonic with
  | bcc | bcs | beq | bmi | bne | bpl | bvc | bvs =>
      intro _ untaken
      simp only [Registers.branches] at untaken
      simp only [untaken, Bool.false_eq_true, ↓reduceIte]
  | jmp | jsr | rts => exact fun moves => absurd (by decide) moves
  | _ => exact fun _ _ => rfl

theorem not_mem_of_isBranch {mnemonic : Mnemonic} (branch : mnemonic.isBranch = true) :
    mnemonic ∉ [Mnemonic.jmp, Mnemonic.jsr, Mnemonic.rts] := by
  cases mnemonic with
  | jmp | jsr | rts => exact absurd branch (by decide)
  | _ => decide

theorem toNat_pc_add_size (registers : Registers) (mode : AddressingMode) :
    (registers.pc + UInt16.ofNat mode.size).toNat =
      (registers.pc.toNat + mode.size) % 0x10000 := by
  have small : (UInt16.ofNat mode.size).toNat = mode.size := by
    cases mode <;> rfl
  rw [UInt16.toNat_add, small]

theorem toNat_address_relative (cpu : Cpu) :
    ((Cpu.place cpu.memory cpu.registers .relative).address.toNat : Int) =
      (cpu.registers.pc.toNat + 2 + (cpu.cell (cpu.registers.pc.toNat + 1)).toInt8.toInt) %
        0x10000 := by
  have two : (2 : UInt16).toNat = 2 := rfl
  have distance := toNat_signExtend_eq (cpu.cell (cpu.registers.pc.toNat + 1))
  simp only [Cpu.place, operandByte_eq_cell, UInt16.toNat_add, two]
  omega

theorem at16_stackAddress (cpu : Cpu) (above : UInt8) :
    cpu.memory.at16
        { cpu.registers with sp := cpu.registers.sp + above }.stackAddress =
      cpu.cell (cpu.registers.stackPlace above.toNat) := by
  rw [at16_eq_cell, Registers.toNat_stackAddress_add]

end Cpu

end EightBit
