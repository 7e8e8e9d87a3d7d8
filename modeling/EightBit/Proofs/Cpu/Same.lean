import EightBit.Proofs.Cpu.Lockstep
import EightBit.Proofs.Memory.Cells

namespace EightBit

/-- The same bytes, whatever writes they come from. -/
structure Memory.Same (memory other : Memory) : Prop where
  size : memory.size = other.size
  byte (address : Nat) : memory.byte address = other.byte address

structure Cpu.Same (cpu other : Cpu) : Prop where
  memory : cpu.memory.Same other.memory
  registers : cpu.registers = other.registers
  state : cpu.state = other.state
  cycles : cpu.cycles = other.cycles
  totalCycles : cpu.totalCycles = other.totalCycles
  tracing : cpu.tracing = other.tracing

namespace Memory

variable {memory other : Memory}

theorem Same.at16 (same : memory.Same other) (address : UInt16) :
    memory.at16 address = other.at16 address :=
  same.byte _

theorem Same.slice (same : memory.Same other) (start length : Nat) :
    memory.slice start length = other.slice start length := by
  have bytes : memory.byte = other.byte := funext same.byte
  rw [Memory.slice, Memory.slice, same.size, bytes]

theorem Same.pointer (same : memory.Same other) (zeroPage : UInt8) :
    memory.pointer zeroPage = other.pointer zeroPage := by
  rw [Memory.pointer, Memory.pointer, same.at16, same.at16]

theorem Same.store (same : memory.Same other) (place : Nat) (value : UInt8) :
    (memory.store place value).Same (other.store place value) where
  size := by rw [size_store, size_store, same.size]
  byte address := by rw [byte_store, byte_store, same.size, same.byte]

end Memory

namespace Cpu

variable {memory otherMemory : Memory} {cpu other : Cpu}

theorem place_of_same (same : memory.Same otherMemory) (registers : Registers)
    (mode : AddressingMode) : place memory registers mode = place otherMemory registers mode := by
  cases mode with
  | implied | immediate => rfl
  | relative | zeroPage => simp only [place, Memory.operandByte, same.at16]
  | absolute | absoluteX | absoluteY => simp only [place, Memory.operandWord, same.at16]
  | indirectY => simp only [place, Memory.operandByte, same.at16, same.pointer]

theorem perform_of_same (same : memory.Same otherMemory) (instruction : Instruction)
    (registers : Registers) (place : Place) :
    perform instruction registers memory place =
      perform instruction registers otherMemory place := by
  simp only [perform, same.at16]

theorem outcome_of_same (same : memory.Same otherMemory) (instruction : Instruction)
    (registers : Registers) :
    outcome instruction registers memory = outcome instruction registers otherMemory := by
  rw [outcome, outcome, place_of_same same, perform_of_same same]

theorem commit_of_same (same : memory.Same otherMemory) (stores : List (UInt16 × UInt8)) :
    (commit memory stores).Same (commit otherMemory stores) := by
  induction stores generalizing memory otherMemory with
  | nil => exact same
  | cons first rest ih =>
      obtain ⟨address, value⟩ := first
      unfold commit
      split
      · exact ih same
      · exact ih (same.store _ value)

theorem Same.isHalted (same : cpu.Same other) : cpu.isHalted = other.isHalted := by
  rw [Cpu.isHalted, Cpu.isHalted, same.state]

theorem Same.withState (same : cpu.Same other) (state : CpuState) :
    ({ cpu with state } : Cpu).Same { other with state } :=
  ⟨same.memory, same.registers, rfl, same.cycles, same.totalCycles, same.tracing⟩

theorem Same.halt (same : cpu.Same other) (opcode : UInt8) :
    (cpu.halt opcode).Same (other.halt opcode) where
  memory := same.memory
  registers := by simp only [Cpu.halt, same.registers]
  state := by simp only [Cpu.halt, same.registers]
  cycles := rfl
  totalCycles := by simp only [Cpu.halt, same.totalCycles]
  tracing := same.tracing

theorem Same.conclude (same : cpu.Same other) (instruction : Instruction) (result : Outcome) :
    (cpu.conclude instruction result).Same (other.conclude instruction result) where
  memory := commit_of_same same.memory result.stores
  registers := rfl
  state := same.state
  cycles := rfl
  totalCycles := by simp only [Cpu.conclude, same.totalCycles]
  tracing := same.tracing

theorem Same.step (same : cpu.Same other) : cpu.step.Same other.step := by
  cases halted : cpu.isHalted with
  | true =>
      rw [Cpu.step, Cpu.step, if_pos halted, if_pos (same.isHalted.symm.trans halted)]
      exact same
  | false =>
      have live : other.isHalted = false := same.isHalted.symm.trans halted
      have opcode : other.memory.at16 other.registers.pc = cpu.memory.at16 cpu.registers.pc := by
        rw [same.registers, same.memory.at16]
      cases decoded : Instruction.decode? (cpu.memory.at16 cpu.registers.pc) with
      | none =>
          rw [step_of_unknown halted decoded, step_of_unknown live (opcode ▸ decoded), opcode]
          exact same.halt _
      | some instruction =>
          rw [step_of_decode halted decoded, step_of_decode live (opcode ▸ decoded),
            same.registers, outcome_of_same same.memory]
          exact same.conclude _ _

theorem lockstep_same : Lockstep Same where
  state same := same.state
  withState same state := same.withState state
  step same := same.step

theorem Same.stepEvents (same : cpu.Same other) : cpu.stepEvents = other.stepEvents := by
  simp only [Cpu.stepEvents, same.isHalted, same.registers, same.memory.at16, same.tracing,
    outcome_of_same same.memory]

theorem Same.video (same : cpu.Same other) : cpu.video = other.video :=
  same.memory.slice _ _

theorem Same.runForWatching {σ : Type} (same : cpu.Same other) {watch : σ → Cpu → σ}
    (watches : ∀ own {cpu other : Cpu}, cpu.Same other → watch own cpu = watch own other)
    (own : σ) (limit : Nat) :
    (cpu.runForWatching watch own limit).1 = (other.runForWatching watch own limit).1 ∧
    (cpu.runForWatching watch own limit).2.1 = (other.runForWatching watch own limit).2.1 ∧
    (cpu.runForWatching watch own limit).2.2.Same (other.runForWatching watch own limit).2.2 :=
  lockstep_same.runForWatching watches own limit same

theorem Same.runFor (same : cpu.Same other) (limit : Nat) :
    (cpu.runFor limit).1 = (other.runFor limit).1 ∧
      (cpu.runFor limit).2.Same (other.runFor limit).2 :=
  lockstep_same.runFor limit same

end Cpu

end EightBit
