import EightBit.Proofs.Cpu.Addition
import EightBit.Proofs.Cpu.ProgramCounter

namespace EightBit

def Registers.Compares (after : Registers) (register byte : UInt8) : Prop :=
  (after.flag .zero = true ↔ register = byte) ∧ (after.flag .carry = true ↔ byte ≤ register) ∧
    after.flag .negative = (register - byte).toNat.testBit 7

def Registers.Reads (before after : Registers) (byte : UInt8) : Mnemonic → Prop
  | .lda => after.a = byte
  | .ldx => after.x = byte
  | .ldy => after.y = byte
  | .adc => 0x100 * (after.flag .carry).toNat + after.a.toNat =
      before.a.toNat + byte.toNat + (before.flag .carry).toNat
  | .cmp => after.Compares before.a byte
  | .cpx => after.Compares before.x byte
  | .cpy => after.Compares before.y byte
  | _ => False

namespace Cpu

def storedByte? (cpu : Cpu) (address : Nat) : Mnemonic → Option UInt8
  | .sta => some cpu.registers.a
  | .stx => some cpu.registers.x
  | .sty => some cpu.registers.y
  | .inc => some (cpu.cell address + 1)
  | _ => none

/-- The address that an operand of this value names: the value itself, with an index added, or the
one that the pointer at this place leads to. -/
def named? (cpu : Cpu) (value : Int) : AddressingMode → Option Nat
  | .zeroPage => some value.toNat
  | .absolute => some (value % 0x10000).toNat
  | .absoluteX => some ((value + cpu.registers.x.toNat) % 0x10000).toNat
  | .absoluteY => some ((value + cpu.registers.y.toNat) % 0x10000).toNat
  | .indirectY =>
    let pointer := (value % 0x100).toNat
    let base := wordOf (cpu.cell pointer) (cpu.cell ((pointer + 1) % 0x100))
    some ((base.toNat + cpu.registers.y.toNat) % 0x10000)
  | .implied | .immediate | .relative => none

/-- The byte that it stands for: its own low byte, or the one at the address. -/
def meant? (cpu : Cpu) (value : Int) : AddressingMode → Option UInt8
  | .immediate => some (UInt8.ofNat (value % 0x100).toNat)
  | mode => (cpu.named? value mode).map cpu.cell

/-- The next step is that of an instruction whose operand has this value. -/
structure Executes (cpu : Cpu) (mnemonic : Mnemonic) (mode : AddressingMode) (value : Int) :
    Prop where
  short : mode = .zeroPage → 0 ≤ value ∧ value ≤ 0xFF
  reads : mnemonic ∈ reading → ∃ byte, cpu.meant? value mode = some byte ∧
    cpu.registers.Reads cpu.step.registers byte mnemonic
  stores : mnemonic ∈ storing → ∃ address byte, cpu.named? value mode = some address ∧
    cpu.storedByte? address mnemonic = some byte ∧
    ∀ other, cpu.step.memory.byte other =
      if other = address ∧ MemoryMap.isFont address = false then byte else cpu.memory.byte other
  jumps : mnemonic = .jmp ∨ mnemonic = .jsr →
    (cpu.step.registers.pc.toNat : Int) = value % 0x10000
  branches : mnemonic.isBranch = true → (cpu.step.registers.pc.toNat : Int) =
    (if cpu.registers.branches mnemonic then value else cpu.registers.pc.toNat + 2) % 0x10000

variable {cpu : Cpu} {instruction : Instruction} {address : Nat}

section Step

theorem reads_step (found : cpu.instruction? = some instruction)
    (reads : instruction.mnemonic ∈ reading)
    (known : cpu.operandAddress? instruction.mode = some address) :
    cpu.registers.Reads cpu.step.registers (cpu.cell address) instruction.mnemonic := by
  have byte : cpu.memory.at16 (place cpu.memory cpu.registers instruction.mode).address =
      cpu.cell address := by rw [at16_eq_cell, toNat_address_place known]
  have compares {register : UInt8}
      (compared : cpu.registers.compared? instruction.mnemonic = some register) :
      cpu.step.registers.Compares register (cpu.cell address) := by
    obtain ⟨zero, carry, negative, -⟩ := flags_of_compared found compared known
    exact ⟨zero, carry, negative⟩
  have after := registers_step found
  rw [outcome, perform, byte] at after
  revert reads
  cases named : instruction.mnemonic with
  | lda | ldx | ldy =>
      intro _
      rw [after, named]
      rfl
  | adc =>
      intro _
      let next : Registers :=
        { cpu.registers with pc := cpu.registers.pc + UInt16.ofNat instruction.mode.size }
      have sum : cpu.step.registers = next.addWithCarry (cpu.cell address) := by
        rw [after, named]
      rw [Registers.Reads, sum, next.carry_addWithCarry]
      rfl
  | cmp | cpx | cpy => exact fun _ => compares (by rw [named]; rfl)
  | _ => exact fun other => absurd other (by decide)

theorem operandAddress?_lt (known : cpu.operandAddress? instruction.mode = some address) :
    address < 0x10000 := by
  obtain ⟨base, -, rfl⟩ := Option.map_eq_some_iff.mp known
  exact Nat.mod_lt _ (by decide)

theorem writes_of_storing {byte : UInt8}
    (known : cpu.operandAddress? instruction.mode = some address)
    (made : cpu.storedByte? address instruction.mnemonic = some byte) :
    cpu.writes instruction = [(address, byte)] := by
  unfold writes
  revert made
  cases instruction.mnemonic with
  | sta | stx | sty | inc =>
      intro made
      cases made
      rw [known]
      rfl
  | _ => exact nofun

theorem byte_step_of_storing (found : cpu.instruction? = some instruction)
    (size : cpu.memory.size = 0x10000)
    (known : cpu.operandAddress? instruction.mode = some address) {byte : UInt8}
    (made : cpu.storedByte? address instruction.mnemonic = some byte) (other : Nat) :
    cpu.step.memory.byte other =
      if other = address ∧ MemoryMap.isFont address = false then byte
      else cpu.memory.byte other := by
  have inside : address < cpu.memory.size := size ▸ operandAddress?_lt known
  have stored : cpu.stored = [(address, byte)].filter fun cell => !MemoryMap.isFont cell.1 := by
    simp only [Cpu.stored, found, writes_of_storing known made]
  rw [memory_step, stored]
  cases font : MemoryMap.isFont address with
  | true => simp [font, Memory.storeCells]
  | false => simp [font, Memory.storeCells, Memory.byte_store, inside]

theorem mode_ne_immediate_of_storing (defined : instruction ∈ Instruction.all)
    (stores : instruction.mnemonic ∈ storing) : instruction.mode ≠ .immediate := by
  revert instruction
  decide

theorem exists_storedByte (cpu : Cpu) (address : Nat) {mnemonic : Mnemonic}
    (stores : mnemonic ∈ storing) : ∃ byte, cpu.storedByte? address mnemonic = some byte := by
  cases mnemonic with
  | sta | stx | sty | inc => exact ⟨_, rfl⟩
  | _ => exact absurd stores (by decide)

end Step

section Operand

variable {placed : Placed} {mode : AddressingMode} {span : Span} {value : Int64} {code : UInt8}
  {bytes : List UInt8}

theorem Finds.cell_operandByte {byte : UInt8} {rest : List UInt8}
    (finds : cpu.Finds (code :: byte :: rest)) :
    cpu.cell (cpu.registers.pc.toNat + 1) = byte := by
  rw [← operandByte_eq_cell, finds.operandByte]

theorem named?_of_finds (encoded : placed.operandBytes mode span value = .ok bytes)
    (short : mode = .zeroPage → 0 ≤ value ∧ value ≤ 0xFF) (far : mode ≠ .immediate)
    (finds : cpu.Finds (code :: bytes)) :
    cpu.operandAddress? mode = cpu.named? value.toInt mode := by
  have word (words : bytes = [Placed.lowByte value, Placed.highByte value]) :
      (cpu.operandWord : Int) = value.toInt % 0x10000 := by
    subst words
    rw [← toNat_operandWord, finds.operandWord, Placed.toNat_word]
  have index (offset : UInt8) (words : bytes = [Placed.lowByte value, Placed.highByte value]) :
      (cpu.operandWord + offset.toNat) % 0x10000 =
        ((value.toInt + offset.toNat) % 0x10000).toNat := by
    have base := word words
    omega
  cases mode with
  | implied | relative => rfl
  | immediate => exact absurd rfl far
  | zeroPage =>
      cases encoded
      have byte := Placed.toNat_lowByte (short rfl).1 (short rfl).2
      have small := (Placed.lowByte value).toNat_lt
      simp only [operandAddress?, operandBase?, Cpu.index, named?, finds.cell_operandByte,
        Option.map_some]
      congr 1
      omega
  | absolute =>
      cases encoded
      have base := word rfl
      simp only [operandAddress?, operandBase?, Cpu.index, named?, Option.map_some]
      congr 1
      omega
  | absoluteX | absoluteY =>
      cases encoded
      exact congrArg some (index _ rfl)
  | indirectY =>
      cases encoded
      have byte := Placed.toNat_lowByte_eq value
      have pointer : (Placed.lowByte value).toNat = (value.toInt % 0x100).toNat := by omega
      simp only [operandAddress?, operandBase?, Cpu.index, named?, finds.cell_operandByte,
        Option.map_some, pointer]

theorem meant?_of_finds (encoded : placed.operandBytes mode span value = .ok bytes)
    (short : mode = .zeroPage → 0 ≤ value ∧ value ≤ 0xFF) (finds : cpu.Finds (code :: bytes)) :
    (cpu.operandAddress? mode).map cpu.cell = cpu.meant? value.toInt mode := by
  by_cases immediate : mode = .immediate
  · subst immediate
    cases encoded
    have low : UInt8.ofNat (value.toInt % 0x100).toNat = Placed.lowByte value := by
      rw [← Placed.toNat_lowByte_eq, Int.toNat_natCast, UInt8.ofNat_toNat]
    have cell : cpu.cell ((cpu.registers.pc.toNat + 1) % 0x10000 % 0x10000) =
        Placed.lowByte value := by
      rw [← finds.cell_operandByte, cell, cell, Nat.mod_mod, Nat.mod_mod]
    rw [meant?, low, ← cell]
    rfl
  · rw [named?_of_finds encoded short immediate finds]
    cases mode with
    | immediate => exact absurd rfl immediate
    | _ => rfl

theorem target_of_finds (encoded : placed.operandBytes .relative span value = .ok bytes)
    (here : cpu.registers.pc = UInt16.ofNat placed.address) (inside : placed.address < 0x10000)
    (finds : cpu.Finds (code :: bytes)) :
    ((place cpu.memory cpu.registers .relative).address.toNat : Int) =
      value.toInt % 0x10000 := by
  simp only [Placed.operandBytes] at encoded
  split at encoded
  · rename_i near
    cases encoded
    have sign := Placed.toNat_signExtend near.1 near.2
    have distance := Placed.toInt_sub_ofNat value (by omega : placed.address + 2 < _)
    have start : (UInt16.ofNat placed.address).toNat = placed.address :=
      UInt16.toNat_ofNat_of_lt' inside
    have two : (2 : UInt16).toNat = 2 := rfl
    have byte := finds.operandByte
    rw [here] at byte
    simp only [place, here, byte, UInt16.toNat_add, start, two]
    omega
  · cases encoded

theorem executes_of_finds (found : cpu.instruction? = some instruction)
    (size : cpu.memory.size = 0x10000)
    (encoded : placed.operandBytes instruction.mode span value = .ok bytes)
    (short : instruction.mode = .zeroPage → 0 ≤ value ∧ value ≤ 0xFF)
    (here : cpu.registers.pc = UInt16.ofNat placed.address) (inside : placed.address < 0x10000)
    (finds : cpu.Finds (code :: bytes)) :
    cpu.Executes instruction.mnemonic instruction.mode value.toInt := by
  have defined := mem_all_of_instruction? found
  have ends := congrArg Registers.pc (registers_step found)
  refine ⟨fun zeroPage => ?_, fun reads => ?_, fun stores => ?_, fun jump => ?_, fun branch => ?_⟩
  · exact (short zeroPage).imp Int64.le_iff_toInt_le.mp Int64.le_iff_toInt_le.mp
  · obtain ⟨address, known⟩ :=
      Option.isSome_iff_exists.mp (cpu.isSome_operandAddress?_of_reading defined reads)
    refine ⟨cpu.cell address, ?_, reads_step found reads known⟩
    rw [← meant?_of_finds encoded short finds, known, Option.map_some]
  · obtain ⟨address, known⟩ :=
      Option.isSome_iff_exists.mp (cpu.isSome_operandAddress?_of_storing defined stores)
    obtain ⟨byte, made⟩ := cpu.exists_storedByte address stores
    refine ⟨address, byte, ?_, made, byte_step_of_storing found size known made⟩
    rw [← named?_of_finds encoded short (mode_ne_immediate_of_storing defined stores) finds, known]
  · have absolute := mode_of_jump defined jump
    rw [ends, outcome, pc_perform_of_jump jump]
    rw [absolute] at encoded ⊢
    cases encoded
    rw [place, Place.direct, finds.operandWord, Placed.toNat_word]
  · have relative := mode_of_isBranch defined branch
    rw [ends, outcome]
    cases taken : cpu.registers.branches instruction.mnemonic with
    | true =>
        rw [pc_perform_of_branches taken, if_pos rfl]
        rw [relative] at encoded ⊢
        exact target_of_finds encoded here inside finds
    | false =>
        rw [pc_perform_of_passes (not_mem_of_isBranch branch) taken, toNat_pc_add_size, relative,
          if_neg Bool.false_ne_true]
        rfl

end Operand

/-- The machine executes what was assembled. With the segments of a program in memory, the byte at
the address of an instruction is its opcode, and a step from there is one with the operand whose
value the finished table gives. -/
theorem machine_executes_program {source : List Char} {program : Program}
    (assembled : assemble source = .ok program) (disjoint : program.overlaps = [])
    (apart : ∀ address, 0xF000 ≤ address → address ≤ 0xF3FF →
      program.image.get? address = none) :
    ∃ layout loaded, (Layout.ofSource source).1 = .ok layout ∧
      new.loadSegments program.image.segments = .ok loaded ∧
      ∀ placed ∈ layout.statements, ∀ mnemonic mode operand,
        placed.content = .instruction mnemonic mode operand →
        ∃ instruction, Instruction.decode? (loaded.memory.byte placed.address) =
            some instruction ∧ instruction.mnemonic = mnemonic ∧ instruction.mode = mode ∧
          (operand = none ↔ mode = .implied) ∧
          ∀ machine : Cpu, machine.isHalted = false → machine.memory = loaded.memory →
            machine.registers.pc = UInt16.ofNat placed.address →
            machine.instruction? = some instruction ∧
            ∀ located, operand = some located → ∃ value : Int64,
              layout.symbols.evaluate located.expr = .ok value ∧
              machine.Executes mnemonic mode value.toInt := by
  obtain ⟨layout, laid, holds⟩ := Program.holds_of_disjoint assembled disjoint
  have loadable (address : Nat) (written : (program.image.get? address).isSome) :
      Loadable address := by
    refine ⟨holds.below written, eq_false_of_ne_true fun inside => ?_⟩
    simp only [MemoryMap.isFont, Bool.and_eq_true, decide_eq_true_eq] at inside
    rw [apart address inside.1 inside.2] at written
    cases written
  obtain ⟨loaded, ran, size, stands⟩ := loadSegments_holds intact_new.memory.size loadable
  refine ⟨layout, loaded, laid, ran, fun placed member mnemonic mode operand content => ?_⟩
  obtain ⟨bytes, encoded, length, inside⟩ := holds.encodes placed member
  obtain ⟨code, rest, rfl, coded, valued⟩ := instruction_of_encode content encoded
  obtain ⟨instruction, decoded, rfl, rfl⟩ := Instruction.decode?_of_encode? coded
  have first : loaded.memory.byte placed.address = code :=
    stands _ _ (holds.get? member encoded (Nat.succ_pos _))
  have complete := (holds.fits placed member).complete
  rw [content] at complete
  rw [first]
  refine ⟨instruction, decoded, rfl, rfl, complete, fun machine live same here => ?_⟩
  have finds : machine.Finds (code :: rest) :=
    finds_of_holds holds member encoded (same ▸ stands) here
  have found : machine.instruction? = some instruction :=
    instruction?_eq_some_iff.mpr ⟨live, finds.opcode ▸ decoded⟩
  refine ⟨found, fun located some => ?_⟩
  obtain ⟨value, known, made⟩ := valued located some
  have short (zeroPage : instruction.mode = .zeroPage) : 0 ≤ value ∧ value ≤ 0xFF := by
    rw [zeroPage] at content
    obtain ⟨-, other, final, there, resolved, byte⟩ := Layout.zeroPage_final laid member content
    cases some.symm.trans there
    cases known.symm.trans resolved
    exact byte
  have start : placed.address < 0x10000 := by
    rw [List.length_cons] at inside
    omega
  exact ⟨value, known,
    executes_of_finds found (same ▸ size) made short here start finds⟩

theorem machine_executes_program_around_end :
    let source := ".ORG 8\nLDA 65535,X\nSTA 65535,Y\n.ORG $FFFC\nBNE 65540".toList
    ∃ program loaded, assemble source = .ok program ∧
      new.loadSegments program.image.segments = .ok loaded ∧
      let machine (pc : UInt16) : Cpu :=
        { loaded with
          state := .idle
          registers := { Registers.initial with a := 7, x := 9, y := 0x21, pc } }
      (machine 8).step.registers.a = 0xBD ∧ (machine 11).step.memory.byte 0x20 = 7 ∧
        (machine 0xFFFC).step.registers.pc.toNat = 4 := by
  intro source
  have checked : (match assemble source with
      | .ok program => program.overlaps.isEmpty &&
        (List.range' 0xF000 0x400).all fun address => (program.image.get? address).isNone
      | .error _ => false) = true := by decide +kernel
  let load : Placed := ⟨2, 7, 8, ⟨0, 11⟩,
    .instruction .lda .absoluteX (some ⟨.number 65535, ⟨4, 5⟩⟩)⟩
  let store : Placed := ⟨3, 19, 11, ⟨0, 11⟩,
    .instruction .sta .absoluteY (some ⟨.number 65535, ⟨4, 5⟩⟩)⟩
  let branch : Placed := ⟨5, 42, 0xFFFC, ⟨0, 9⟩,
    .instruction .bne .relative (some ⟨.number 65540, ⟨4, 5⟩⟩)⟩
  let expected : Layout := ⟨[load, store, branch], .empty⟩
  have same : (Layout.ofSource source).1 = .ok expected := by decide +kernel
  cases assembled : assemble source with
  | error reason =>
      rw [assembled] at checked
      cases checked
  | ok program =>
      rw [assembled, Bool.and_eq_true, List.isEmpty_iff, List.all_eq_true] at checked
      obtain ⟨disjoint, none⟩ := checked
      obtain ⟨layout, loaded, laid, ran, executes⟩ := machine_executes_program assembled disjoint
        fun address low high =>
          Option.isNone_iff_eq_none.mp (none address (List.mem_range'_1.mpr (by omega)))
      cases same.symm.trans laid
      let machine (pc : UInt16) : Cpu :=
        { loaded with
          state := .idle
          registers := { Registers.initial with a := 7, x := 9, y := 0x21, pc } }
      have executed {placed : Placed} (member : placed ∈ expected.statements) {mnemonic : Mnemonic}
          {mode : AddressingMode} {located : Located} {value : Int64}
          (content : placed.content = .instruction mnemonic mode (some located))
          (known : SymbolTable.empty.evaluate located.expr = .ok value) :
          (machine (UInt16.ofNat placed.address)).Executes mnemonic mode value.toInt := by
        obtain ⟨_, -, -, -, -, steps⟩ := executes placed member _ _ _ content
        obtain ⟨other, same, done⟩ := (steps (machine _) rfl rfl rfl).2 located rfl
        cases known.symm.trans same
        exact done
      have last : (65535 : Int64).toInt = 65535 := by decide
      refine ⟨program, loaded, rfl, ran, ?_, ?_, ?_⟩
      · have loads : (machine 8).Executes .lda .absoluteX (65535 : Int64).toInt :=
          executed (by decide : load ∈ _) rfl rfl
        rw [last] at loads
        obtain ⟨byte, meant, read⟩ := loads.reads (by decide)
        have around : (machine 8).named? 65535 .absoluteX = some 8 := by
          simp only [named?, machine]
          decide
        simp only [meant?, around, Option.map_some, Option.some.injEq] at meant
        obtain ⟨instruction, decoded, named, moded, -⟩ := executes load (by decide) _ _ _ rfl
        have opcode : ∀ instruction ∈ Instruction.all, instruction.mnemonic = .lda →
            instruction.mode = .absoluteX → instruction.opcode = 0xBD := by decide
        calc (machine 8).step.registers.a
          _ = loaded.memory.byte 8 := read.trans meant.symm
          _ = instruction.opcode := (Instruction.opcode_of_decode? decoded).symm
          _ = 0xBD := opcode _ (Instruction.mem_all_of_decode? decoded) named moded
      · have stores : (machine 11).Executes .sta .absoluteY (65535 : Int64).toInt :=
          executed (by decide : store ∈ _) rfl rfl
        rw [last] at stores
        obtain ⟨address, byte, named, made, written⟩ := stores.stores (by decide)
        have around : (machine 11).named? 65535 .absoluteY = some 0x20 := by
          simp only [named?, machine]
          decide
        cases around.symm.trans named
        cases made
        exact (written 0x20).trans (if_pos ⟨rfl, rfl⟩)
      · have goes : (machine 0xFFFC).Executes .bne .relative (65540 : Int64).toInt :=
          executed (by decide : branch ∈ _) rfl rfl
        have taken : (machine 0xFFFC).registers.branches .bne = true := by
          simp only [machine]
          decide
        have ends := goes.branches (by decide)
        rw [if_pos taken] at ends
        exact Int.ofNat.inj (ends.trans (by decide))

end Cpu

end EightBit
