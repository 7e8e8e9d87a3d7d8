import EightBit.Proofs.Cpu.Frame

namespace EightBit

namespace Flag

def bit : Flag → Nat
  | carry => 0
  | zero => 1
  | interruptDisable => 2
  | decimal => 3
  | breakCommand => 4
  | unused => 5
  | overflow => 6
  | negative => 7

variable (byte : UInt8) (flag other : Flag)

theorem toNat_mask : flag.mask.toNat = 1 <<< flag.bit := by
  cases flag <;> rfl

theorem bit_lt : flag.bit < 8 := by
  cases flag <;> decide

theorem testBit_mask : flag.mask.toNat.testBit other.bit = decide (flag = other) := by
  have distinct : flag.bit = other.bit ↔ flag = other := by
    cases flag <;> cases other <;> decide
  rw [toNat_mask, Nat.one_shiftLeft, Nat.testBit_two_pow]
  exact decide_eq_decide.mpr distinct

theorem testBit_or_mask : (byte ||| flag.mask).toNat.testBit other.bit =
    (byte.toNat.testBit other.bit || decide (flag = other)) := by
  rw [UInt8.toNat_or, Nat.testBit_or, testBit_mask]

theorem testBit_and_not_mask : (byte &&& ~~~flag.mask).toNat.testBit other.bit =
    (byte.toNat.testBit other.bit && !decide (flag = other)) := by
  have size : UInt8.size = 2 ^ 8 := rfl
  have complement : (~~~flag.mask).toNat = 2 ^ 8 - (flag.mask.toNat + 1) := by
    rw [UInt8.toNat_not, size, Nat.sub_sub, Nat.add_comm 1]
  rw [UInt8.toNat_and, Nat.testBit_and, complement,
    Nat.testBit_two_pow_sub_succ flag.mask.toNat_lt, decide_eq_true other.bit_lt, Bool.true_and,
    testBit_mask]

theorem and_mask_ne_zero : (byte &&& flag.mask != 0) = byte.toNat.testBit flag.bit := by
  have picked (place : Nat) : (byte &&& flag.mask).toNat.testBit place =
      (byte.toNat.testBit place && decide (flag.bit = place)) := by
    rw [UInt8.toNat_and, Nat.testBit_and, toNat_mask, Nat.one_shiftLeft, Nat.testBit_two_pow]
  cases set : byte.toNat.testBit flag.bit with
  | true =>
      rw [bne_iff_ne]
      intro none
      have here := picked flag.bit
      rw [none, set, decide_eq_true rfl] at here
      exact Bool.false_ne_true ((Nat.zero_testBit _).symm.trans here)
  | false =>
      rw [bne_eq_false_iff_eq]
      apply UInt8.toNat_inj.mp
      apply Nat.eq_of_testBit_eq
      intro place
      rw [picked]
      by_cases here : flag.bit = place
      · rw [← here, set, Bool.false_and]
        exact (Nat.zero_testBit _).symm
      · rw [decide_eq_false here, Bool.and_false]
        exact (Nat.zero_testBit _).symm

theorem and_sign_ne_zero : (byte &&& 0x80 != 0) = byte.toNat.testBit 7 :=
  and_mask_ne_zero byte negative

end Flag

namespace Registers

variable (registers : Registers) {flag other : Flag}

theorem flag_eq_testBit : registers.flag flag = registers.status.toNat.testBit flag.bit :=
  Flag.and_mask_ne_zero registers.status flag

/-- To give a flag a value is to set the unused bit too, and to leave all others. -/
theorem flag_setFlag (value : Bool) : (registers.setFlag flag value).flag other =
    if other = .unused then true else if other = flag then value else registers.flag other := by
  have bits : (if value then registers.status ||| flag.mask
      else registers.status &&& ~~~flag.mask).toNat.testBit other.bit =
      if other = flag then value else registers.flag other := by
    rw [flag_eq_testBit]
    cases value with
    | true =>
        rw [if_pos rfl, Flag.testBit_or_mask]
        by_cases same : other = flag
        · rw [if_pos same, decide_eq_true same.symm, Bool.or_true]
        · rw [if_neg same, decide_eq_false (Ne.symm same), Bool.or_false]
    | false =>
        rw [if_neg Bool.false_ne_true, Flag.testBit_and_not_mask]
        by_cases same : other = flag
        · rw [if_pos same, decide_eq_true same.symm, Bool.not_true, Bool.and_false]
        · rw [if_neg same, decide_eq_false (Ne.symm same), Bool.not_false, Bool.and_true]
  rw [flag_eq_testBit, setFlag, setStatus, Flag.testBit_or_mask, bits]
  by_cases unused : other = .unused
  · rw [if_pos unused, decide_eq_true unused.symm, Bool.or_true]
  · rw [if_neg unused, decide_eq_false (Ne.symm unused), Bool.or_false]

theorem flag_setResult (result : UInt8) : (registers.setResult result).flag other =
    if other = .unused then true
    else if other = .negative then result.toNat.testBit 7
    else if other = .zero then result == 0
    else registers.flag other := by
  rw [setResult, flag_setFlag, flag_setFlag, Flag.and_sign_ne_zero]
  by_cases unused : other = .unused
  · rw [if_pos unused, if_pos unused]
  · rw [if_neg unused, if_neg unused, if_neg unused]

theorem flag_compare (register value : UInt8) : (registers.compare register value).flag other =
    if other = .unused then true
    else if other = .carry then decide (value ≤ register)
    else if other = .negative then (register - value).toNat.testBit 7
    else if other = .zero then register == value
    else registers.flag other := by
  rw [compare, flag_setFlag, flag_setFlag, flag_setFlag, Flag.and_sign_ne_zero]
  by_cases unused : other = .unused
  · rw [if_pos unused, if_pos unused]
  · rw [if_neg unused, if_neg unused, if_neg unused, if_neg unused]

theorem flag_addWithCarry (value : UInt8) : (registers.addWithCarry value).flag other =
    let result := (registers.addWithCarry value).a
    if other = .unused then true
    else if other = .negative then result.toNat.testBit 7
    else if other = .zero then result == 0
    else if other = .overflow then
      (~~~(registers.a ^^^ value) &&& (registers.a ^^^ result)).toNat.testBit 7
    else if other = .carry then
      decide (0xFF < registers.a.toNat + value.toNat + (registers.flag .carry).toNat)
    else registers.flag other := by
  have result (after : Registers) (a : UInt8) :
      { after with a }.flag other = after.flag other := rfl
  rw [addWithCarry, result, flag_setResult, flag_setFlag, flag_setFlag, Flag.and_sign_ne_zero]
  by_cases unused : other = .unused
  · rw [if_pos unused, if_pos unused]
  · rw [if_neg unused, if_neg unused, if_neg unused, if_neg unused]

end Registers

/-- The instructions that a flag can be changed by. -/
def Flag.changers : Flag → List Mnemonic
  | carry => [.adc, .cmp, .cpx, .cpy, .clc, .sec]
  | overflow => [.adc]
  | zero | negative =>
    [.adc, .cmp, .cpx, .cpy, .lda, .ldx, .ldy, .pla, .inc, .inx, .iny, .dex, .dey,
     .tax, .tay, .txa, .tya]
  | interruptDisable | decimal | breakCommand | unused => []

theorem Flag.ne_of_changers {flag other : Flag} {mnemonic : Mnemonic}
    (kept : mnemonic ∉ flag.changers) (changed : mnemonic ∈ other.changers) : flag ≠ other := by
  rintro rfl
  exact kept changed

def Registers.given? (registers : Registers) : Mnemonic → Option UInt8
  | .lda | .pla | .txa | .tya => some registers.a
  | .ldx | .tax | .inx | .dex => some registers.x
  | .ldy | .tay | .iny | .dey => some registers.y
  | _ => none

def Registers.compared? (registers : Registers) : Mnemonic → Option UInt8
  | .cmp => some registers.a
  | .cpx => some registers.x
  | .cpy => some registers.y
  | _ => none

namespace Cpu

def giving : List Mnemonic :=
  [.lda, .ldx, .ldy, .pla, .tax, .tay, .txa, .tya, .inc, .inx, .iny, .dex, .dey]

/-- The value that the next step makes: that of a register behind it, or an incremented byte, even
where memory does not take it. -/
def newValue? (cpu : Cpu) (instruction : Instruction) : Option UInt8 :=
  match instruction.mnemonic with
  | .inc => (cpu.operandAddress? instruction.mode).map fun address => cpu.cell address + 1
  | mnemonic => cpu.step.registers.given? mnemonic

section Perform

variable {instruction : Instruction} {registers : Registers} {memory : Memory} {place : Place}

theorem flag_perform {flag : Flag} (unused : flag ≠ .unused)
    (kept : instruction.mnemonic ∉ flag.changers) :
    (perform instruction registers memory place).registers.flag flag = registers.flag flag := by
  unfold perform
  revert kept
  cases instruction.mnemonic with
  | clc | sec =>
      intro kept
      have carry : flag ≠ .carry := Flag.ne_of_changers kept (by decide)
      dsimp only
      rw [Registers.flag_setFlag, if_neg unused, if_neg carry]
      rfl
  | cmp | cpx | cpy =>
      intro kept
      have carry : flag ≠ .carry := Flag.ne_of_changers kept (by decide)
      have negative : flag ≠ .negative := Flag.ne_of_changers kept (by decide)
      have zero : flag ≠ .zero := Flag.ne_of_changers kept (by decide)
      dsimp only
      rw [Registers.flag_compare, if_neg unused, if_neg carry, if_neg negative, if_neg zero]
      rfl
  | adc =>
      intro kept
      have carry : flag ≠ .carry := Flag.ne_of_changers kept (by decide)
      have overflow : flag ≠ .overflow := Flag.ne_of_changers kept (by decide)
      have negative : flag ≠ .negative := Flag.ne_of_changers kept (by decide)
      have zero : flag ≠ .zero := Flag.ne_of_changers kept (by decide)
      dsimp only
      rw [Registers.flag_addWithCarry, if_neg unused, if_neg negative, if_neg zero,
        if_neg overflow, if_neg carry]
      rfl
  | lda | ldx | ldy | pla | tax | tay | txa | tya | inc | inx | iny | dex | dey =>
      intro kept
      have negative : flag ≠ .negative := Flag.ne_of_changers kept (by decide)
      have zero : flag ≠ .zero := Flag.ne_of_changers kept (by decide)
      dsimp only [Registers.setA, Registers.setX, Registers.setY]
      rw [Registers.flag_setResult, if_neg unused, if_neg negative, if_neg zero]
      rfl
  | bcc | bcs | beq | bmi | bne | bpl | bvc | bvs =>
      intro _
      dsimp only
      split <;> rfl
  | _ => exact fun _ => rfl

theorem perform_of_given {value : UInt8}
    (given : (perform instruction registers memory place).registers.given? instruction.mnemonic =
      some value) :
    ∃ before : Registers,
      (perform instruction registers memory place).registers = before.setResult value := by
  unfold perform at given ⊢
  revert given
  cases instruction.mnemonic with
  | lda | ldx | ldy | pla | tax | tay | txa | tya | inx | iny | dex | dey =>
      intro given
      cases given
      exact ⟨_, rfl⟩
  | _ => exact nofun

theorem perform_of_inc (increments : instruction.mnemonic = .inc) : ∃ before : Registers,
    (perform instruction registers memory place).registers =
      before.setResult (memory.at16 place.address + 1) := by
  unfold perform
  rw [increments]
  exact ⟨_, rfl⟩

theorem perform_of_compared (memory : Memory) (place : Place) {register : UInt8}
    (compared : registers.compared? instruction.mnemonic = some register) :
    (∃ before : Registers, (perform instruction registers memory place).registers =
      before.compare register (memory.at16 place.address)) ∧
    (perform instruction registers memory place).registers.compared? instruction.mnemonic =
      some register := by
  unfold perform
  revert compared
  cases instruction.mnemonic with
  | cmp | cpx | cpy =>
      intro compared
      cases compared
      exact ⟨⟨_, rfl⟩, rfl⟩
  | _ => exact nofun

end Perform

section Step

variable {cpu : Cpu} {instruction : Instruction}

theorem flag_step_changesUnder (cpu : Cpu) {flag : Flag} (unused : flag ≠ .unused) :
    cpu.ChangesUnder (·.registers.flag flag) flag.changers :=
  changesUnder (fun _ => rfl) fun _ _ kept => flag_perform unused kept

theorem flag_step_of_no_changers (cpu : Cpu) {flag : Flag} (unused : flag ≠ .unused)
    (none : flag.changers = []) : cpu.step.registers.flag flag = cpu.registers.flag flag := by
  by_contra changed
  obtain ⟨instruction, -, listed⟩ := cpu.flag_step_changesUnder unused changed
  rw [none] at listed
  cases listed

theorem flag_unused_step (cpu : Cpu) (set : cpu.registers.flag .unused = true) :
    cpu.step.registers.flag .unused = true := by
  have bit (registers : Registers) : registers.flag .unused = registers.status.toNat.testBit 5 :=
    registers.flag_eq_testBit
  rw [bit] at set ⊢
  cases found : cpu.instruction? with
  | some instruction =>
      rw [registers_step found]
      exact unusedSet_perform set _ _ _
  | none =>
      rcases step_of_instruction?_eq_none found with same | halts
      · rw [same]
        exact set
      · rw [halts]
        exact set

theorem flags_of_newValue {value : UInt8} (found : cpu.instruction? = some instruction)
    (made : cpu.newValue? instruction = some value) :
    (cpu.step.registers.flag .zero = true ↔ value = 0) ∧
      cpu.step.registers.flag .negative = value.toNat.testBit 7 := by
  have told : ∃ before : Registers, cpu.step.registers = before.setResult value := by
    unfold newValue? at made
    split at made
    · rename_i increments
      obtain ⟨address, known, rfl⟩ := Option.map_eq_some_iff.mp made
      rw [registers_step found, ← toNat_address_place known, ← at16_eq_cell]
      exact perform_of_inc increments
    · rw [registers_step found] at made ⊢
      exact perform_of_given made
  obtain ⟨before, ends⟩ := told
  rw [ends, Registers.flag_setResult, Registers.flag_setResult]
  exact ⟨beq_iff_eq, rfl⟩

theorem exists_newValue (found : cpu.instruction? = some instruction)
    (gives : instruction.mnemonic ∈ giving) : ∃ value, cpu.newValue? instruction = some value := by
  have stores (increments : instruction.mnemonic = .inc) : instruction.mnemonic ∈ storing := by
    rw [increments]
    decide
  have operand (increments : instruction.mnemonic = .inc) :=
    cpu.isSome_operandAddress?_of_storing (mem_all_of_instruction? found) (stores increments)
  unfold newValue?
  revert gives operand
  cases instruction.mnemonic with
  | inc =>
      intro _ operand
      obtain ⟨address, known⟩ := Option.isSome_iff_exists.mp (operand rfl)
      exact ⟨_, by rw [known]; rfl⟩
  | lda | ldx | ldy | pla | tax | tay | txa | tya | inx | iny | dex | dey =>
      exact fun _ _ => ⟨_, rfl⟩
  | _ => exact fun gives => absurd gives (by decide)

theorem mem_reading_of_compared {registers : Registers} {mnemonic : Mnemonic} {register : UInt8}
    (compared : registers.compared? mnemonic = some register) : mnemonic ∈ reading := by
  cases mnemonic with
  | cmp | cpx | cpy => decide
  | _ => cases compared

theorem flags_of_compared {register : UInt8} {address : Nat}
    (found : cpu.instruction? = some instruction)
    (compared : cpu.registers.compared? instruction.mnemonic = some register)
    (known : cpu.operandAddress? instruction.mode = some address) :
    (cpu.step.registers.flag .zero = true ↔ register = cpu.cell address) ∧
      (cpu.step.registers.flag .carry = true ↔ cpu.cell address ≤ register) ∧
      cpu.step.registers.flag .negative = (register - cpu.cell address).toNat.testBit 7 ∧
      cpu.step.registers.compared? instruction.mnemonic = some register := by
  rw [registers_step found, ← toNat_address_place known, ← at16_eq_cell]
  obtain ⟨⟨before, ends⟩, same⟩ :=
    perform_of_compared cpu.memory (place cpu.memory cpu.registers instruction.mode) compared
  refine ⟨?_, ?_, ?_, same⟩
  · rw [outcome, ends, Registers.flag_compare]
    exact beq_iff_eq
  · rw [outcome, ends, Registers.flag_compare]
    exact decide_eq_true_iff
  · rw [outcome, ends, Registers.flag_compare]
    rfl

/-- What a step does to the flags. Three of them no instruction changes, and a fourth none clears;
each of the others is changed by its own instructions only. The zero and negative flags tell of the
value that a register or an incremented byte gets, and together with the carry flag of a comparison,
which leaves its register as it is. -/
theorem flags_of_step (cpu : Cpu) :
    (∀ flag ∈ [Flag.interruptDisable, .decimal, .breakCommand],
      cpu.step.registers.flag flag = cpu.registers.flag flag) ∧
    (cpu.registers.flag .unused = true → cpu.step.registers.flag .unused = true) ∧
    cpu.ChangesUnder (·.registers.flag .carry) [.adc, .cmp, .cpx, .cpy, .clc, .sec] ∧
    cpu.ChangesUnder (·.registers.flag .overflow) [.adc] ∧
    (∀ flag ∈ [Flag.zero, .negative], cpu.ChangesUnder (·.registers.flag flag)
      [.adc, .cmp, .cpx, .cpy, .lda, .ldx, .ldy, .pla, .inc, .inx, .iny, .dex, .dey,
       .tax, .tay, .txa, .tya]) ∧
    ∀ instruction, cpu.instruction? = some instruction →
      (instruction.mnemonic ∈ giving → ∃ value, cpu.newValue? instruction = some value ∧
        (cpu.step.registers.flag .zero = true ↔ value = 0) ∧
        cpu.step.registers.flag .negative = value.toNat.testBit 7) ∧
      ∀ register, cpu.registers.compared? instruction.mnemonic = some register →
        ∃ address, cpu.operandAddress? instruction.mode = some address ∧
          (cpu.step.registers.flag .zero = true ↔ register = cpu.cell address) ∧
          (cpu.step.registers.flag .carry = true ↔ cpu.cell address ≤ register) ∧
          cpu.step.registers.flag .negative = (register - cpu.cell address).toNat.testBit 7 ∧
          cpu.step.registers.compared? instruction.mnemonic = some register := by
  refine ⟨?_, cpu.flag_unused_step, cpu.flag_step_changesUnder (by decide),
    cpu.flag_step_changesUnder (by decide), ?_, fun instruction found => ⟨fun gives => ?_, ?_⟩⟩
  · intro flag listed
    have still : ∀ flag ∈ [Flag.interruptDisable, .decimal, .breakCommand],
        flag ≠ .unused ∧ flag.changers = [] := by decide
    obtain ⟨unused, none⟩ := still flag listed
    exact cpu.flag_step_of_no_changers unused none
  · intro flag listed
    simp only [List.mem_cons, List.not_mem_nil, or_false] at listed
    rcases listed with rfl | rfl
    · exact cpu.flag_step_changesUnder (by decide)
    · exact cpu.flag_step_changesUnder (by decide)
  · obtain ⟨value, made⟩ := exists_newValue found gives
    exact ⟨value, made, flags_of_newValue found made⟩
  · intro register compared
    have defined := mem_all_of_instruction? found
    have reads : instruction.mnemonic ∈ reading := mem_reading_of_compared compared
    obtain ⟨address, known⟩ :=
      Option.isSome_iff_exists.mp (cpu.isSome_operandAddress?_of_reading defined reads)
    exact ⟨address, known, flags_of_compared found compared known⟩

theorem flags_of_step_lost_zero :
    let machine (program : List UInt8) : Cpu :=
      { blank with
        memory := (blank.memory.storeAll 0x0200 program).store 0xF000 0xFF
        registers := { Registers.initial with a := 0x10, pc := 0x0200 } }
    let lost := (machine [0xEE, 0x00, 0xF0]).step
    let compared := (machine [0xC9, 0xF0]).step
    lost.registers.flag .zero = true ∧ lost.memory.byte 0xF000 = 0xFF ∧
      compared.registers.flag .carry = false ∧ compared.registers.flag .negative = false ∧
      compared.registers.a = 0x10 := by
  intro machine lost compared
  have increments : (machine [0xEE, 0x00, 0xF0]).instruction? =
      some ⟨0xEE, .inc, .absolute, 6⟩ := by decide +kernel
  have compares : (machine [0xC9, 0xF0]).instruction? =
      some ⟨0xC9, .cmp, .immediate, 2⟩ := by decide +kernel
  have made : (machine [0xEE, 0x00, 0xF0]).operandAddress? .absolute = some 0xF000 ∧
      (machine [0xEE, 0x00, 0xF0]).cell 0xF000 = 0xFF := by decide +kernel
  have operand : (machine [0xC9, 0xF0]).operandAddress? .immediate = some 0x0201 ∧
      (machine [0xC9, 0xF0]).cell 0x0201 = 0xF0 := by decide +kernel
  obtain ⟨-, -, -, -, -, tells⟩ := flags_of_step (machine [0xEE, 0x00, 0xF0])
  obtain ⟨-, -, -, -, -, tellsToo⟩ := flags_of_step (machine [0xC9, 0xF0])
  obtain ⟨value, known, zero, -⟩ := (tells _ increments).1 (by decide)
  obtain ⟨address, place, -, carry, negative, same⟩ := (tellsToo _ compares).2 0x10 rfl
  rw [newValue?, made.1, Option.map_some, made.2] at known
  cases known
  rw [operand.1] at place
  cases place
  rw [operand.2] at carry negative
  have clear := eq_false_of_ne_true fun set => absurd (carry.mp set) (by decide)
  exact ⟨zero.mpr rfl, by decide +kernel, clear, negative.trans (by decide), Option.some.inj same⟩

end Step

end Cpu

end EightBit
