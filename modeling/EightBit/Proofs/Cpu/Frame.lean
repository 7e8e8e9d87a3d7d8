import EightBit.Proofs.Cpu.Addresses
import EightBit.Proofs.Cpu.Loader

namespace EightBit

structure Registers.KeptBy (mnemonic : Mnemonic) (before after : Registers) : Prop where
  a : mnemonic ∉ [Mnemonic.adc, .lda, .pla, .txa, .tya] → after.a = before.a
  x : mnemonic ∉ [Mnemonic.ldx, .tax, .inx, .dex] → after.x = before.x
  y : mnemonic ∉ [Mnemonic.ldy, .tay, .iny, .dey] → after.y = before.y
  sp : mnemonic ∉ [Mnemonic.pha, .pla, .jsr, .rts] → after.sp = before.sp

namespace Cpu

def storing : List Mnemonic := [.sta, .stx, .sty, .inc]

def writes (cpu : Cpu) (instruction : Instruction) : List (Nat × UInt8) :=
  let registers := cpu.registers
  let operand := (cpu.operandAddress? instruction.mode).toList
  -- a call keeps the address of its own last byte
  let back := (registers.pc.toNat + 2) % 0x10000
  match instruction.mnemonic with
  | .sta => operand.map fun address => (address, registers.a)
  | .stx => operand.map fun address => (address, registers.x)
  | .sty => operand.map fun address => (address, registers.y)
  | .inc => operand.map fun address => (address, cpu.cell address + 1)
  | .pha => [(registers.stackPlace 0, registers.a)]
  | .jsr =>
    [(registers.stackPlace 0, UInt8.ofNat (back / 0x100)),
     (registers.stackPlace 0xFF, UInt8.ofNat (back % 0x100))]
  | _ => []

/-- The cells that the next step writes. What is written to the character set is lost, and a machine
that executes no instruction writes nothing. -/
def stored (cpu : Cpu) : List (Nat × UInt8) :=
  match cpu.instruction? with
  | some instruction => (cpu.writes instruction).filter fun cell => !MemoryMap.isFont cell.1
  | none => []

/-- The next step changes a part of the machine only if it executes one of these instructions. -/
def ChangesUnder {α : Type} (cpu : Cpu) (part : Cpu → α) (mnemonics : List Mnemonic) : Prop :=
  part cpu.step ≠ part cpu →
    ∃ instruction, cpu.instruction? = some instruction ∧ instruction.mnemonic ∈ mnemonics

section Stores

theorem commit_eq_storeCells (memory : Memory) (stores : List (UInt16 × UInt8)) :
    commit memory stores =
      memory.storeCells ((stores.map fun store => (store.1.toNat, store.2)).filter
        fun cell => !MemoryMap.isFont cell.1) := by
  induction stores generalizing memory with
  | nil => rfl
  | cons store rest ih =>
      obtain ⟨address, value⟩ := store
      rw [commit, ih, ih, List.map_cons, List.filter_cons]
      cases MemoryMap.isFont address.toNat <;> rfl

variable {cpu : Cpu} {instruction : Instruction}

theorem isSome_operandAddress?_of_storing (cpu : Cpu) (defined : instruction ∈ Instruction.all)
    (stores : instruction.mnemonic ∈ storing) :
    (cpu.operandAddress? instruction.mode).isSome := by
  have modes : ∀ instruction ∈ Instruction.all, instruction.mnemonic ∈ storing →
      instruction.mode ≠ .implied ∧ instruction.mode ≠ .relative := by decide
  obtain ⟨operand, far⟩ := modes instruction defined stores
  exact cpu.isSome_operandAddress? operand far

theorem toNat_back (pc : UInt16) :
    (pc + UInt16.ofNat AddressingMode.absolute.size - 1).toNat = (pc.toNat + 2) % 0x10000 := by
  have ahead : pc + UInt16.ofNat AddressingMode.absolute.size - 1 = pc + 2 := by
    rw [UInt16.sub_eq_add_neg, UInt16.add_assoc]
    rfl
  rw [ahead, UInt16.toNat_add]
  rfl

theorem stores_outcome (defined : instruction ∈ Instruction.all) :
    ((outcome instruction cpu.registers cpu.memory).stores.map
      fun store => (store.1.toNat, store.2)) = cpu.writes instruction := by
  have operand (stores : instruction.mnemonic ∈ storing) : ∃ address,
      cpu.operandAddress? instruction.mode = some address ∧
        (place cpu.memory cpu.registers instruction.mode).address.toNat = address := by
    have known := cpu.isSome_operandAddress?_of_storing defined stores
    obtain ⟨address, known⟩ := Option.isSome_iff_exists.mp known
    exact ⟨address, known, toNat_address_place known⟩
  unfold outcome perform writes
  cases named : instruction.mnemonic with
  | sta | stx | sty | inc =>
      obtain ⟨address, known, there⟩ := operand (by rw [named]; decide)
      simp only [List.map_cons, List.map_nil, known, there, at16_eq_cell, Option.toList_some]
  | pha =>
      simp only [List.map_cons, List.map_nil, Registers.toNat_stackAddress_add]
      rfl
  | jsr =>
      have absolute := mode_of_jump defined (Or.inr named)
      have low (back : Nat) : UInt8.ofNat back = UInt8.ofNat (back % 0x100) :=
        UInt8.ofNat_mod_size.symm
      simp only [List.map_cons, List.map_nil, Registers.toNat_stackAddress_add, absolute,
        toNat_back, low (_ % 0x10000)]
      rfl
  | bcc | bcs | beq | bmi | bne | bpl | bvc | bvs =>
      dsimp only
      split <;> rfl
  | _ => rfl

theorem writes_of_not_mem (other : instruction.mnemonic ∉ storing ++ [.pha, .jsr]) :
    cpu.writes instruction = [] := by
  unfold writes
  revert other
  cases instruction.mnemonic with
  | sta | stx | sty | inc | pha | jsr => exact fun other => absurd (by decide) other
  | _ => exact fun _ => rfl

theorem memory_step (cpu : Cpu) : cpu.step.memory = cpu.memory.storeCells cpu.stored := by
  unfold stored
  cases found : cpu.instruction? with
  | some instruction =>
      rw [step_of_instruction? found]
      dsimp only [conclude]
      rw [commit_eq_storeCells, stores_outcome (mem_all_of_instruction? found)]
  | none =>
      rcases step_of_instruction?_eq_none found with same | halts
      · rw [same]
        rfl
      · rw [halts]
        rfl

theorem lt_of_mem_stored {address : Nat} {byte : UInt8} (member : (address, byte) ∈ cpu.stored) :
    address < 0x10000 := by
  unfold stored at member
  cases found : cpu.instruction? with
  | none =>
      rw [found] at member
      cases member
  | some instruction =>
      rw [found] at member
      have written := (List.mem_filter.mp member).1
      rw [← stores_outcome (mem_all_of_instruction? found)] at written
      obtain ⟨store, -, same⟩ := List.mem_map.mp written
      have place : store.1.toNat = address := congrArg Prod.fst same
      rw [← place]
      exact store.1.toNat_lt

theorem pairwise_stored (cpu : Cpu) :
    cpu.stored.Pairwise fun first second => first.1 ≠ second.1 := by
  have writes (instruction : Instruction) :
      (cpu.writes instruction).Pairwise fun first second => first.1 ≠ second.1 := by
    have apart : cpu.registers.stackPlace 0 ≠ cpu.registers.stackPlace 0xFF := by
      unfold Registers.stackPlace
      omega
    unfold Cpu.writes
    cases instruction.mnemonic with
    | sta | stx | sty | inc =>
        cases cpu.operandAddress? instruction.mode with
        | none => exact .nil
        | some address => exact List.pairwise_singleton _ _
    | pha => exact List.pairwise_singleton _ _
    | jsr => exact List.pairwise_pair.mpr apart
    | _ => exact .nil
  unfold stored
  split
  · exact (writes _).filter _
  · exact .nil

end Stores

theorem keptBy_perform {instruction : Instruction} {registers : Registers} {memory : Memory}
    {place : Place} :
    registers.KeptBy instruction.mnemonic
      (perform instruction registers memory place).registers := by
  unfold perform
  cases instruction.mnemonic with
  | adc | lda | txa | tya =>
      exact ⟨fun other => absurd (by decide) other, fun _ => rfl, fun _ => rfl, fun _ => rfl⟩
  | ldx | tax | inx | dex =>
      exact ⟨fun _ => rfl, fun other => absurd (by decide) other, fun _ => rfl, fun _ => rfl⟩
  | ldy | tay | iny | dey =>
      exact ⟨fun _ => rfl, fun _ => rfl, fun other => absurd (by decide) other, fun _ => rfl⟩
  | pha | jsr | rts =>
      exact ⟨fun _ => rfl, fun _ => rfl, fun _ => rfl, fun other => absurd (by decide) other⟩
  | pla =>
      exact ⟨fun other => absurd (by decide) other, fun _ => rfl, fun _ => rfl,
        fun other => absurd (by decide) other⟩
  | bcc | bcs | beq | bmi | bne | bpl | bvc | bvs =>
      dsimp only
      split <;> exact ⟨fun _ => rfl, fun _ => rfl, fun _ => rfl, fun _ => rfl⟩
  | _ => exact ⟨fun _ => rfl, fun _ => rfl, fun _ => rfl, fun _ => rfl⟩

theorem changesUnder {α : Type} {cpu : Cpu} {part : Cpu → α} {mnemonics : List Mnemonic}
    (halts : ∀ opcode, part (cpu.halt opcode) = part cpu)
    (keeps : ∀ instruction ∈ Instruction.all, instruction.mnemonic ∉ mnemonics →
      part (cpu.conclude instruction (outcome instruction cpu.registers cpu.memory)) = part cpu) :
    cpu.ChangesUnder part mnemonics := by
  intro changed
  cases found : cpu.instruction? with
  | none =>
      rcases step_of_instruction?_eq_none found with same | halted
      · exact absurd (congrArg part same) changed
      · rw [halted] at changed
        exact absurd (halts _) changed
  | some instruction =>
      refine ⟨instruction, rfl, by_contra fun other => changed ?_⟩
      rw [step_of_instruction? found]
      exact keeps instruction (mem_all_of_instruction? found) other

/-- What a step changes. Memory holds the stored bytes where they were stored, as far as it goes,
and is the same everywhere else; every register is changed only by the instructions that are about
it. -/
theorem step_changes_only (cpu : Cpu) :
    (∀ address byte, (address, byte) ∈ cpu.stored → address < 0x10000 ∧
      (address < cpu.memory.size → cpu.step.memory.byte address = byte)) ∧
    (∀ address, (∀ byte, (address, byte) ∉ cpu.stored) →
      cpu.step.memory.byte address = cpu.memory.byte address) ∧
    (cpu.stored = [] → cpu.step.memory = cpu.memory) ∧
    cpu.step.memory.size = cpu.memory.size ∧
    (∀ instruction, cpu.instruction? = some instruction → instruction.mnemonic ∈ storing →
      (cpu.operandAddress? instruction.mode).isSome) ∧
    cpu.ChangesUnder (·.memory) (storing ++ [.pha, .jsr]) ∧
    cpu.ChangesUnder (·.registers.a) [.adc, .lda, .pla, .txa, .tya] ∧
    cpu.ChangesUnder (·.registers.x) [.ldx, .tax, .inx, .dex] ∧
    cpu.ChangesUnder (·.registers.y) [.ldy, .tay, .iny, .dey] ∧
    cpu.ChangesUnder (·.registers.sp) [.pha, .pla, .jsr, .rts] := by
  rw [memory_step]
  refine ⟨?_, ?_, ?_, Memory.size_storeCells _ _, ?_, ?_, ?_, ?_, ?_, ?_⟩
  · intro address byte member
    exact ⟨lt_of_mem_stored member, Memory.byte_storeCells_of_mem cpu.pairwise_stored member⟩
  · intro address absent
    apply Memory.byte_storeCells_of_absent
    rintro ⟨place, byte⟩ member rfl
    exact absent byte member
  · intro nothing
    rw [nothing]
    rfl
  · intro instruction found stores
    exact cpu.isSome_operandAddress?_of_storing (mem_all_of_instruction? found) stores
  · refine changesUnder (fun _ => rfl) fun instruction defined other => ?_
    dsimp only [conclude]
    rw [commit_eq_storeCells, stores_outcome defined, writes_of_not_mem other]
    rfl
  · exact changesUnder (fun _ => rfl) fun _ _ other => keptBy_perform.a other
  · exact changesUnder (fun _ => rfl) fun _ _ other => keptBy_perform.x other
  · exact changesUnder (fun _ => rfl) fun _ _ other => keptBy_perform.y other
  · exact changesUnder (fun _ => rfl) fun _ _ other => keptBy_perform.sp other

theorem step_changes_only_around_end :
    let machine (program : List UInt8) : Cpu :=
      { blank with
        memory := blank.memory.storeAll 0x0200 program
        registers := { Registers.initial with a := 7, x := 2, pc := 0x0200 } }
    (machine [0x9D, 0xFF, 0xFF]).step.memory.byte 1 = 7 ∧
      (machine [0x9D, 0xFF, 0xFF]).step.memory.byte 0 = 0 ∧
      (machine [0xEE, 0x00, 0xF0]).step.memory = (machine [0xEE, 0x00, 0xF0]).memory := by
  intro machine
  have around : (machine [0x9D, 0xFF, 0xFF]).stored = [(1, 7)] := by decide +kernel
  have lost : (machine [0xEE, 0x00, 0xF0]).stored = [] := by decide +kernel
  have size : (machine [0x9D, 0xFF, 0xFF]).memory.size = 0x10000 := Memory.size_storeAll _ _ _
  obtain ⟨written, others, -⟩ := step_changes_only (machine [0x9D, 0xFF, 0xFF])
  obtain ⟨-, -, unchanged, -⟩ := step_changes_only (machine [0xEE, 0x00, 0xF0])
  rw [around] at written others
  refine ⟨(written 1 7 List.mem_cons_self).2 (by rw [size]; decide), ?_, unchanged lost⟩
  have zero : (machine [0x9D, 0xFF, 0xFF]).memory.byte 0 = 0 := by decide +kernel
  rw [others 0 (by simp), zero]

end Cpu

end EightBit
