import EightBit.Proofs.Cpu.Fetch

namespace EightBit

def Registers.stackPlace (registers : Registers) (above : Nat) : Nat :=
  0x100 + (registers.sp.toNat + above) % 0x100

theorem Registers.toNat_stackAddress (registers : Registers) :
    registers.stackAddress.toNat = 0x100 + registers.sp.toNat := by
  have page : 0x100 + registers.sp.toNat = 0x100 ||| registers.sp.toNat :=
    Nat.two_pow_add_eq_or_of_lt registers.sp.toNat_lt 1
  rw [page, stackAddress, UInt16.toNat_or, UInt8.toNat_toUInt16]
  rfl

theorem Registers.toNat_stackAddress_add (registers : Registers) (above : UInt8) :
    ({ registers with sp := registers.sp + above }.stackAddress).toNat =
      registers.stackPlace above.toNat := by
  rw [toNat_stackAddress, UInt8.toNat_add, stackPlace]

namespace Cpu

variable (cpu : Cpu)

/-- The instruction that the machine is about to execute. A halted machine executes none, and most
bytes stand for none. -/
def instruction? : Option Instruction :=
  if cpu.isHalted then none else Instruction.decode? (cpu.memory.at16 cpu.registers.pc)

/-- The byte at an address; behind the end of memory comes its start. -/
def cell (address : Nat) : UInt8 := cpu.memory.byte (address % 0x10000)

def operandWord : Nat :=
  let pc := cpu.registers.pc.toNat
  (wordOf (cpu.cell (pc + 1)) (cpu.cell (pc + 2))).toNat

/-- The address of the operand before an index is added to it, for the modes that have one. -/
def operandBase? : AddressingMode → Option Nat
  | .implied | .relative => none
  | .immediate => some ((cpu.registers.pc.toNat + 1) % 0x10000)
  | .zeroPage => some (cpu.cell (cpu.registers.pc.toNat + 1)).toNat
  | .absolute | .absoluteX | .absoluteY => some cpu.operandWord
  | .indirectY =>
    let pointer := (cpu.cell (cpu.registers.pc.toNat + 1)).toNat
    some (wordOf (cpu.cell pointer) (cpu.cell ((pointer + 1) % 0x100))).toNat

def index : AddressingMode → Nat
  | .absoluteX => cpu.registers.x.toNat
  | .absoluteY | .indirectY => cpu.registers.y.toNat
  | _ => 0

def operandAddress? (mode : AddressingMode) : Option Nat :=
  (cpu.operandBase? mode).map fun base => (base + cpu.index mode) % 0x10000

theorem at16_eq_cell (address : UInt16) : cpu.memory.at16 address = cpu.cell address.toNat := by
  rw [cell, Nat.mod_eq_of_lt address.toNat_lt, Memory.at16]

theorem at16_pc_add (ahead : UInt16) :
    cpu.memory.at16 (cpu.registers.pc + ahead) =
      cpu.cell (cpu.registers.pc.toNat + ahead.toNat) := by
  rw [Memory.at16, UInt16.toNat_add, cell]

theorem operandByte_eq_cell :
    cpu.memory.operandByte cpu.registers.pc = cpu.cell (cpu.registers.pc.toNat + 1) :=
  cpu.at16_pc_add 1

theorem toNat_operandWord :
    (cpu.memory.operandWord cpu.registers.pc).toNat = cpu.operandWord := by
  rw [Memory.operandWord, cpu.at16_pc_add 1, cpu.at16_pc_add 2]
  rfl

theorem pointer_eq_wordOf (zeroPage : UInt8) :
    cpu.memory.pointer zeroPage =
      wordOf (cpu.cell zeroPage.toNat) (cpu.cell ((zeroPage.toNat + 1) % 0x100)) := by
  have second : (zeroPage + 1).toNat = (zeroPage.toNat + 1) % 0x100 := UInt8.toNat_add zeroPage 1
  rw [Memory.pointer, at16_eq_cell, at16_eq_cell, UInt8.toNat_toUInt16, UInt8.toNat_toUInt16,
    second]

theorem toNat_address_direct (address : UInt16) :
    (Place.direct address).address.toNat = (address.toNat + 0) % 0x10000 :=
  (Nat.mod_eq_of_lt address.toNat_lt).symm

variable {cpu} {instruction : Instruction} {mode : AddressingMode} {base address : Nat}

theorem toNat_place (based : cpu.operandBase? mode = some base) :
    (place cpu.memory cpu.registers mode).base.toNat = base ∧
      (place cpu.memory cpu.registers mode).address.toNat = (base + cpu.index mode) % 0x10000 := by
  have same : base = (place cpu.memory cpu.registers mode).base.toNat := by
    cases mode with
    | implied | relative => cases based
    | immediate =>
        cases based
        exact (UInt16.toNat_add _ 1).symm
    | zeroPage =>
        cases based
        rw [place, operandByte_eq_cell]
        exact (UInt8.toNat_toUInt16 _).symm
    | absolute | absoluteX | absoluteY =>
        cases based
        exact cpu.toNat_operandWord.symm
    | indirectY =>
        cases based
        rw [place, operandByte_eq_cell, pointer_eq_wordOf]
        rfl
  refine ⟨same.symm, ?_⟩
  rw [same]
  cases mode with
  | implied | relative => cases based
  | immediate | zeroPage | absolute => exact toNat_address_direct _
  | absoluteX | absoluteY | indirectY => exact toNat_address_indexed _ _

theorem toNat_address_place (known : cpu.operandAddress? mode = some address) :
    (place cpu.memory cpu.registers mode).address.toNat = address := by
  obtain ⟨base, based, rfl⟩ := Option.map_eq_some_iff.mp known
  exact (toNat_place based).2

theorem isSome_operandAddress? (cpu : Cpu) (operand : mode ≠ .implied) (far : mode ≠ .relative) :
    (cpu.operandAddress? mode).isSome := by
  cases mode with
  | implied => exact absurd rfl operand
  | relative => exact absurd rfl far
  | _ => rfl

def reading : List Mnemonic := [.adc, .cmp, .cpx, .cpy, .lda, .ldx, .ldy]

theorem isSome_operandAddress?_of_reading (cpu : Cpu) (defined : instruction ∈ Instruction.all)
    (reads : instruction.mnemonic ∈ reading) : (cpu.operandAddress? instruction.mode).isSome := by
  have modes : ∀ instruction ∈ Instruction.all, instruction.mnemonic ∈ reading →
      instruction.mode ≠ .implied ∧ instruction.mode ≠ .relative := by decide
  obtain ⟨operand, far⟩ := modes instruction defined reads
  exact cpu.isSome_operandAddress? operand far

theorem instruction?_eq_some_iff :
    cpu.instruction? = some instruction ↔ cpu.isHalted = false ∧
      Instruction.decode? (cpu.memory.at16 cpu.registers.pc) = some instruction := by
  cases live : cpu.isHalted <;> simp [instruction?, live]

theorem step_of_instruction? (found : cpu.instruction? = some instruction) :
    cpu.step = cpu.conclude instruction (outcome instruction cpu.registers cpu.memory) := by
  obtain ⟨live, decoded⟩ := instruction?_eq_some_iff.mp found
  exact step_of_decode live decoded

theorem registers_step (found : cpu.instruction? = some instruction) :
    cpu.step.registers = (outcome instruction cpu.registers cpu.memory).registers := by
  rw [step_of_instruction? found]
  rfl

theorem mem_all_of_instruction? (found : cpu.instruction? = some instruction) :
    instruction ∈ Instruction.all :=
  Instruction.mem_all_of_decode? (instruction?_eq_some_iff.mp found).2

theorem step_of_instruction?_eq_none (none : cpu.instruction? = none) :
    cpu.step = cpu ∨ cpu.step = cpu.halt (cpu.memory.at16 cpu.registers.pc) := by
  cases live : cpu.isHalted with
  | true => exact Or.inl (if_pos live)
  | false =>
      rw [instruction?, live] at none
      exact Or.inr (step_of_unknown live none)

end Cpu

end EightBit
