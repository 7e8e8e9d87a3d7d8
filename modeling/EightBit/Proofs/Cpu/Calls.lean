import Mathlib.Logic.Function.Iterate
import EightBit.Proofs.Cpu.Frame
import EightBit.Proofs.Cpu.ProgramCounter

namespace EightBit

theorem Registers.stackPlace_of_pushed {registers pushed : Registers}
    (level : pushed.sp = registers.sp - 2) :
    pushed.stackPlace 1 = registers.stackPlace 0xFF ∧
      pushed.stackPlace 2 = registers.stackPlace 0 := by
  have below : pushed.sp.toNat = (0x100 - 2 + registers.sp.toNat) % 0x100 := by
    rw [level, UInt8.toNat_sub]
    rfl
  unfold stackPlace
  rw [below]
  omega

namespace Cpu

variable {cpu : Cpu} {instruction : Instruction}

theorem isFont_stackPlace (registers : Registers) (above : Nat) :
    MemoryMap.isFont (registers.stackPlace above) = false := by
  have start : MemoryMap.fontStart = 0xF000 := rfl
  apply MemoryMap.isFont_of_lt
  unfold Registers.stackPlace
  omega

theorem stored_of_writes {cells : List (Nat × UInt8)}
    (found : cpu.instruction? = some instruction) (written : cpu.writes instruction = cells)
    (plain : ∀ cell ∈ cells, MemoryMap.isFont cell.1 = false) : cpu.stored = cells := by
  rw [stored, found]
  dsimp only
  rw [written]
  refine List.filter_eq_self.mpr fun cell member => ?_
  rw [plain cell member, Bool.not_false]

theorem stored_of_jsr (found : cpu.instruction? = some instruction)
    (calls : instruction.mnemonic = .jsr) :
    let back := (cpu.registers.pc.toNat + 2) % 0x10000
    cpu.stored = [(cpu.registers.stackPlace 0, UInt8.ofNat (back / 0x100)),
      (cpu.registers.stackPlace 0xFF, UInt8.ofNat (back % 0x100))] := by
  intro back
  apply stored_of_writes found
  · rw [writes, calls]
  · exact List.forall_mem_cons.mpr ⟨isFont_stackPlace _ _,
      List.forall_mem_singleton.mpr (isFont_stackPlace _ _)⟩

theorem cell_step_of_mem_stored (size : cpu.memory.size = 0x10000) {address : Nat} {byte : UInt8}
    (member : (address, byte) ∈ cpu.stored) : cpu.step.cell address = byte := by
  have inside := lt_of_mem_stored member
  rw [cell, Nat.mod_eq_of_lt inside, memory_step]
  exact Memory.byte_storeCells_of_mem cpu.pairwise_stored member (by rwa [size])

theorem wordOf_step_of_jsr (size : cpu.memory.size = 0x10000)
    (found : cpu.instruction? = some instruction) (calls : instruction.mnemonic = .jsr) :
    wordOf (cpu.step.cell (cpu.registers.stackPlace 0xFF))
      (cpu.step.cell (cpu.registers.stackPlace 0)) = cpu.registers.pc + 2 := by
  have stores := stored_of_jsr found calls
  have high := cell_step_of_mem_stored size (stores ▸ List.mem_cons_self)
  have low := cell_step_of_mem_stored size (stores ▸ List.mem_cons_of_mem _ List.mem_cons_self)
  apply UInt16.toNat_inj.mp
  have next : (cpu.registers.pc + 2).toNat = (cpu.registers.pc.toNat + 2) % 0x10000 :=
    UInt16.toNat_add _ 2
  rw [high, low, Placed.toNat_wordOf, UInt8.toNat_ofNat', UInt8.toNat_ofNat', next]
  omega

theorem step_of_rts (found : cpu.instruction? = some instruction)
    (returns : instruction.mnemonic = .rts) :
    cpu.step.registers = { cpu.registers with
      pc := wordOf (cpu.cell (cpu.registers.stackPlace 1))
        (cpu.cell (cpu.registers.stackPlace 2)) + 1
      sp := cpu.registers.sp + 2 } ∧
    cpu.step.memory = cpu.memory := by
  constructor
  · have taken := cpu.at16_stackAddress
    rw [registers_step found]
    simp only [outcome, perform, returns, taken]
    rfl
  · have nothing : cpu.writes instruction = [] := writes_of_not_mem (by rw [returns]; decide)
    rw [memory_step, stored, found]
    simp only [nothing]
    rfl

/-- A call returns: however many steps later the machine is about to return, if the stack pointer is
where the call left it and the two bytes on the stack are those that the call left there, it goes on
behind the call, with the stack pointer of then. Memory, the flags and the other registers stay as
they are. -/
theorem call_returns {cpu : Cpu} (size : cpu.memory.size = 0x10000) {call back : Instruction}
    (found : cpu.instruction? = some call) (calls : call.mnemonic = .jsr) (body : Nat)
    (ends : (step^[body] cpu.step).instruction? = some back) (returns : back.mnemonic = .rts)
    (level : (step^[body] cpu.step).registers.sp = cpu.registers.sp - 2)
    (kept : ∀ place ∈ [cpu.registers.stackPlace 0, cpu.registers.stackPlace 0xFF],
      (step^[body] cpu.step).cell place = cpu.step.cell place) :
    let before := step^[body] cpu.step
    before.step.registers = { before.registers with
      pc := cpu.registers.pc + 3
      sp := cpu.registers.sp } ∧
    before.step.memory = before.memory := by
  intro before
  obtain ⟨low, high⟩ := Registers.stackPlace_of_pushed level
  obtain ⟨registers, memory⟩ := step_of_rts ends returns
  refine ⟨?_, memory⟩
  -- the low byte, which the call stored last, is the first that the return takes
  have address : wordOf (before.cell (before.registers.stackPlace 1))
      (before.cell (before.registers.stackPlace 2)) = cpu.registers.pc + 2 := by
    rw [low, high, kept _ (by simp), kept _ (by simp)]
    exact wordOf_step_of_jsr size found calls
  have next : cpu.registers.pc + 2 + 1 = cpu.registers.pc + 3 := UInt16.add_assoc _ 2 1
  have above : before.registers.sp + 2 = cpu.registers.sp := by
    rw [level, UInt8.sub_add_cancel]
  rw [registers, address, next, above]

theorem call_returns_around_end :
    let subroutine : Memory := blank.memory.storeAll 0x0300 [0x20, 0x04, 0x03, 0x60, 0x60]
    let cpu : Cpu :=
      { blank with
        memory := subroutine.storeAll 0xFFFD [0x20, 0x00, 0x03]
        registers := { Registers.initial with sp := 0, pc := 0xFFFD } }
    let before := step^[2] cpu.step
    cpu.stored = [(0x0100, 0xFF), (0x01FF, 0xFF)] ∧ before.registers.pc = 0x0303 ∧
      before.step.registers.pc = 0 ∧ before.step.registers.sp = 0 ∧
      before.step.memory = before.memory := by
  intro subroutine cpu before
  have size : cpu.memory.size = 0x10000 := (Memory.size_storeAll _ _ _).trans <|
    Memory.size_storeAll _ _ _
  have found : cpu.instruction? = some ⟨0x20, .jsr, .absolute, 6⟩ := by decide +kernel
  have ends : before.instruction? = some ⟨0x60, .rts, .implied, 6⟩ := by decide +kernel
  obtain ⟨registers, memory⟩ :=
    call_returns size found rfl 2 ends rfl (by decide +kernel) (by decide +kernel)
  have pc : before.step.registers.pc = cpu.registers.pc + 3 := by rw [registers]
  have sp : before.step.registers.sp = cpu.registers.sp := by rw [registers]
  exact ⟨by decide +kernel, by decide +kernel, pc.trans (by decide), sp, memory⟩

end Cpu

end EightBit
