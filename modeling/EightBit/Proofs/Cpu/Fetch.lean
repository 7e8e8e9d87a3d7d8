import EightBit.Proofs.Assembly.Disjoint
import EightBit.Proofs.Cpu.Invariant
import EightBit.Proofs.Cpu.Loading
import EightBit.Proofs.Layout.Modes

namespace EightBit

namespace Placed

theorem toNat_wordOf (low high : UInt8) :
    (wordOf low high).toNat = 0x100 * high.toNat + low.toNat := by
  have lowBound := low.toNat_lt
  have highBound := high.toNat_lt
  rw [wordOf, UInt16.toNat_ofNat']
  omega

theorem toNat_word (value : Int64) :
    ((wordOf (lowByte value) (highByte value)).toNat : Int) = value.toInt % 0x10000 := by
  have low := toNat_lowByte_eq value
  have high := toNat_highByte_eq value
  rw [toNat_wordOf]
  omega

theorem toNat_signExtend {distance : Int64} (low : -128 ≤ distance) (high : distance ≤ 127) :
    ((signExtend (lowByte distance)).toNat : Int) = distance.toInt % 0x10000 := by
  have least : -128 ≤ distance.toInt := Int64.le_iff_toInt_le.mp low
  have greatest : distance.toInt ≤ 127 := Int64.le_iff_toInt_le.mp high
  have byte := toNat_lowByte_eq distance
  unfold signExtend
  split
  · rename_i positive
    have small : (lowByte distance).toNat < 0x80 := UInt8.lt_iff_toNat_lt.mp positive
    rw [UInt8.toNat_toUInt16]
    omega
  · rename_i negative
    have large : 0x80 ≤ (lowByte distance).toNat :=
      UInt8.le_iff_toNat_le.mp (UInt8.not_lt.mp negative)
    have sign : (0xFF00 : UInt16).toNat = 0xFF00 := rfl
    rw [UInt16.toNat_add, UInt8.toNat_toUInt16, sign]
    omega

/-- Distances may wrap around in 64 bits, but not in their low sixteen. -/
theorem toInt_sub_ofNat (value : Int64) {base : Nat} (small : base < 0x8000000000000000) :
    (value - Int64.ofNat base).toInt % 0x10000 = (value.toInt - base) % 0x10000 := by
  have wrapped : (value - Int64.ofNat base).toInt % 0x10000000000000000 =
      (value.toInt - base) % 0x10000000000000000 := by
    rw [Int64.toInt_sub, Int64.toInt_ofNat_of_lt small]
    exact Int.bmod_emod
  omega

end Placed

def Registers.branches (registers : Registers) : Mnemonic → Bool
  | .bcc => !registers.flag .carry
  | .bcs => registers.flag .carry
  | .beq => registers.flag .zero
  | .bmi => registers.flag .negative
  | .bne => !registers.flag .zero
  | .bpl => !registers.flag .negative
  | .bvc => !registers.flag .overflow
  | .bvs => registers.flag .overflow
  | _ => false

namespace Cpu

/-- The bytes from the program counter on. -/
def Finds (machine : Cpu) (bytes : List UInt8) : Prop :=
  ∀ index (below : index < bytes.length),
    machine.memory.at16 (machine.registers.pc + UInt16.ofNat index) = bytes[index]

variable {machine : Cpu} {code : UInt8}

theorem Finds.opcode {rest : List UInt8} (finds : machine.Finds (code :: rest)) :
    machine.memory.at16 machine.registers.pc = code := by
  have start : machine.registers.pc + UInt16.ofNat 0 = machine.registers.pc := UInt16.add_zero _
  have first := finds 0 (Nat.succ_pos _)
  rwa [start] at first

theorem Finds.operandByte {byte : UInt8} {rest : List UInt8}
    (finds : machine.Finds (code :: byte :: rest)) :
    machine.memory.operandByte machine.registers.pc = byte :=
  finds 1 (Nat.succ_lt_succ (Nat.succ_pos _))

theorem Finds.operandWord {low high : UInt8} (finds : machine.Finds [code, low, high]) :
    machine.memory.operandWord machine.registers.pc = wordOf low high := by
  have first : machine.memory.at16 (machine.registers.pc + 1) = low := finds 1 (by simp)
  have second : machine.memory.at16 (machine.registers.pc + 2) = high := finds 2 (by simp)
  rw [Memory.operandWord, first, second]

theorem toNat_address_indexed (base : UInt16) (offset : UInt8) :
    (Place.indexed base offset).address.toNat = (base.toNat + offset.toNat) % 0x10000 := by
  rw [Place.indexed, UInt16.toNat_add, UInt8.toNat_toUInt16]

theorem pc_perform_of_jump {instruction : Instruction} {registers : Registers} {memory : Memory}
    {place : Place} (jump : instruction.mnemonic = .jmp ∨ instruction.mnemonic = .jsr) :
    (perform instruction registers memory place).registers.pc = place.address := by
  rcases jump with jmp | jsr
  · simp only [perform, jmp]
  · simp only [perform, jsr]

theorem pc_perform_of_branches {instruction : Instruction} {registers : Registers}
    {memory : Memory} {place : Place} (taken : registers.branches instruction.mnemonic = true) :
    (perform instruction registers memory place).registers.pc = place.address := by
  unfold perform
  revert taken
  cases instruction.mnemonic <;> intro taken <;>
    simp only [Registers.branches, Bool.false_eq_true] at taken <;> simp only [taken, ↓reduceIte]

theorem mode_of_jump {instruction : Instruction} (defined : instruction ∈ Instruction.all)
    (jump : instruction.mnemonic = .jmp ∨ instruction.mnemonic = .jsr) :
    instruction.mode = .absolute := by
  revert instruction
  decide

theorem isBranch_of_branches {registers : Registers} {mnemonic : Mnemonic}
    (taken : registers.branches mnemonic = true) : mnemonic.isBranch = true := by
  cases mnemonic with
  | bcc | bcs | beq | bmi | bne | bpl | bvc | bvs => rfl
  | _ => cases taken

theorem mode_of_isBranch {instruction : Instruction} (defined : instruction ∈ Instruction.all)
    (branch : instruction.mnemonic.isBranch = true) : instruction.mode = .relative := by
  revert instruction
  decide

theorem mode_of_branches {instruction : Instruction} {registers : Registers}
    (defined : instruction ∈ Instruction.all)
    (taken : registers.branches instruction.mnemonic = true) : instruction.mode = .relative :=
  mode_of_isBranch defined (isBranch_of_branches taken)

theorem finds_of_holds {layout : Layout} {image : Image} (holds : Program.Holds layout image)
    {placed : Placed} (member : placed ∈ layout.statements) {bytes : List UInt8}
    (encoded : placed.encode layout.symbols = .ok bytes)
    (stands : ∀ address byte, image.get? address = some byte → machine.memory.byte address = byte)
    (here : machine.registers.pc = UInt16.ofNat placed.address) : machine.Finds bytes := by
  intro index below
  have fits := holds.fits placed member
  have inside := fits.inside
  rw [← fits.length_eq encoded] at inside
  have address : (machine.registers.pc + UInt16.ofNat index).toNat = placed.address + index := by
    rw [here, UInt16.toNat_add, UInt16.toNat_ofNat', UInt16.toNat_ofNat']
    omega
  rw [Memory.at16, address]
  exact stands _ _ (holds.get? member encoded below)

theorem instruction_of_encode {symbols : SymbolTable} {placed : Placed} {bytes : List UInt8}
    {mnemonic : Mnemonic} {mode : AddressingMode} {operand : Option Located}
    (content : placed.content = .instruction mnemonic mode operand)
    (encoded : placed.encode symbols = .ok bytes) :
    ∃ code rest, bytes = code :: rest ∧ Instruction.encode? mnemonic mode = some code ∧
      ∀ located, operand = some located → ∃ value,
        symbols.evaluate located.expr = .ok value ∧
          placed.operandBytes mode located.span value = .ok rest := by
  rw [Placed.encode, content] at encoded
  simp only [Placed.instructionBytes] at encoded
  cases coded : Instruction.encode? mnemonic mode with
  | none =>
      rw [coded] at encoded
      cases encoded
  | some code =>
      rw [coded] at encoded
      cases operand with
      | none =>
          cases encoded
          refine ⟨code, [], rfl, rfl, fun located some => ?_⟩
          cases some
      | some located =>
          obtain ⟨value, resolved, after⟩ := ok_of_bind encoded
          obtain ⟨rest, made, done⟩ := ok_of_bind after
          cases done
          refine ⟨code, rest, rfl, rfl, fun other same => ?_⟩
          cases same
          refine ⟨value, ?_, made⟩
          unfold Placed.resolve at resolved
          unfold SymbolTable.evaluate
          split at resolved
          · rename_i known
            cases resolved
            exact known
          · cases resolved

end Cpu

end EightBit
