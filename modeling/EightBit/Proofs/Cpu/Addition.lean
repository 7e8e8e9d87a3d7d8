import Mathlib.Logic.Function.Iterate
import Mathlib.Tactic.Ring
import EightBit.Proofs.Cpu.Flags

/-!
Additions of numbers of any length, byte by byte from the lowest one on. The carry flag takes each
carry to the next byte, past the load and the store between two additions, and behind the highest
byte the flags tell of the whole sum.
-/
namespace EightBit

/-- The number that some bytes stand for, the lowest byte first. -/
def littleEndian : List UInt8 → Nat
  | [] => 0
  | byte :: rest => byte.toNat + 0x100 * littleEndian rest

def twosComplement (bytes : List UInt8) : Int :=
  if 2 * littleEndian bytes < 0x100 ^ bytes.length then littleEndian bytes
  else littleEndian bytes - (0x100 ^ bytes.length : Nat)

def FitsSigned (length : Nat) (value : Int) : Prop :=
  -(0x100 ^ length : Nat) ≤ 2 * value ∧ 2 * value < (0x100 ^ length : Nat)

instance (length : Nat) (value : Int) : Decidable (FitsSigned length value) :=
  inferInstanceAs (Decidable (_ ∧ _))

def lowBytes : Nat → Nat → List UInt8
  | 0, _ => []
  | length + 1, value => UInt8.ofNat value :: lowBytes length (value / 0x100)

section Numbers

theorem length_lowBytes (length value : Nat) : (lowBytes length value).length = length := by
  induction length generalizing value with
  | zero => rfl
  | succ length ih => rw [lowBytes, List.length_cons, ih]

theorem littleEndian_lowBytes (length value : Nat) :
    littleEndian (lowBytes length value) = value % 0x100 ^ length := by
  induction length generalizing value with
  | zero => exact (Nat.mod_one value).symm
  | succ length ih =>
      have low : (UInt8.ofNat value).toNat = value % 0x100 := UInt8.toNat_ofNat'
      rw [lowBytes, littleEndian, ih, low, pow_succ', Nat.mod_mul]

theorem twosComplement_cons (byte : UInt8) {rest : List UInt8} (more : rest ≠ []) :
    twosComplement (byte :: rest) = byte.toNat + 0x100 * twosComplement rest := by
  obtain ⟨next, others, rfl⟩ := List.exists_cons_of_ne_nil more
  have small := byte.toNat_lt
  unfold twosComplement
  rw [littleEndian, List.length_cons, pow_succ', List.length_cons, pow_succ']
  -- the highest byte, and with it the sign, is in both numbers
  generalize littleEndian (next :: others) = high
  generalize 0x100 ^ others.length = size
  split <;> split <;> push_cast <;> omega

theorem fitsSigned_succ {length low : Nat} (some : length ≠ 0) (small : low < 0x100) (high : Int) :
    FitsSigned (length + 1) (low + 0x100 * high) ↔ FitsSigned length high := by
  obtain ⟨shorter, rfl⟩ := Nat.exists_eq_succ_of_ne_zero some
  unfold FitsSigned
  rw [pow_succ', Nat.succ_eq_add_one, pow_succ']
  generalize 0x100 ^ shorter = size
  push_cast
  omega

theorem testBit_seven (byte : UInt8) : byte.toNat.testBit 7 = decide (0x80 ≤ byte.toNat) := by
  have bound := byte.toNat_lt
  rw [Nat.testBit_eq_decide_div_mod_eq]
  exact decide_eq_decide.mpr (by omega)

theorem twosComplement_singleton (byte : UInt8) :
    twosComplement [byte] =
      if 0x80 ≤ byte.toNat then (byte.toNat : Int) - 0x100 else byte.toNat := by
  have alone : littleEndian [byte] = byte.toNat := Nat.add_zero _
  rw [twosComplement, alone, List.length_singleton, pow_one]
  by_cases large : 0x80 ≤ byte.toNat
  · rw [if_neg (by omega), if_pos large]
    rfl
  · rw [if_pos (by omega), if_neg large]

theorem toNat_decide_carry {sum : Nat} (small : sum < 0x200) :
    (decide (0x100 ≤ sum)).toNat = sum / 0x100 := by
  by_cases large : 0x100 ≤ sum
  · rw [decide_eq_true large, Bool.toNat_true]
    omega
  · rw [decide_eq_false large, Bool.toNat_false]
    omega

end Numbers

namespace Registers

variable (registers : Registers) (value : UInt8)

theorem flag_carry_addWithCarry : (registers.addWithCarry value).flag .carry =
    decide (0x100 ≤ registers.a.toNat + value.toNat + (registers.flag .carry).toNat) := by
  rw [flag_addWithCarry]
  rfl

theorem toNat_a_addWithCarry : (registers.addWithCarry value).a.toNat =
    (registers.a.toNat + value.toNat + (registers.flag .carry).toNat) % 0x100 :=
  UInt8.toNat_ofNat'

/-- The carry flag is what the sum has on top of its low byte. -/
theorem carry_addWithCarry : 0x100 * ((registers.addWithCarry value).flag .carry).toNat +
      (registers.addWithCarry value).a.toNat =
    registers.a.toNat + value.toNat + (registers.flag .carry).toNat := by
  have first := registers.a.toNat_lt
  have second := value.toNat_lt
  have carry := (registers.flag .carry).toNat_le
  rw [flag_carry_addWithCarry, toNat_a_addWithCarry, toNat_decide_carry (by omega)]
  exact Nat.div_add_mod _ _

theorem flag_overflow_addWithCarry : (registers.addWithCarry value).flag .overflow = true ↔
    (0x80 ≤ registers.a.toNat ↔ 0x80 ≤ value.toNat) ∧
      ¬ (0x80 ≤ registers.a.toNat ↔ 0x80 ≤ (registers.addWithCarry value).a.toNat) := by
  have complement (byte : UInt8) : (~~~byte).toNat.testBit 7 = !byte.toNat.testBit 7 := by
    have bound := byte.toNat_lt
    have size : UInt8.size = 0x100 := rfl
    rw [testBit_seven, testBit_seven, UInt8.toNat_not, size, ← decide_not]
    exact decide_eq_decide.mpr (by omega)
  have flag : (registers.addWithCarry value).flag .overflow =
      (~~~(registers.a ^^^ value) &&&
        (registers.a ^^^ (registers.addWithCarry value).a)).toNat.testBit 7 :=
    registers.flag_addWithCarry value
  rw [flag, UInt8.toNat_and, Nat.testBit_and, complement, UInt8.toNat_xor, Nat.testBit_xor,
    UInt8.toNat_xor, Nat.testBit_xor, testBit_seven, testBit_seven, testBit_seven,
    Bool.and_eq_true, Bool.not_eq_true']
  simp only [bne_eq_false_iff_eq, bne_iff_ne, ne_eq, decide_eq_decide]

theorem flag_overflow_addWithCarry_iff :
    (registers.addWithCarry value).flag .overflow = true ↔
      ¬ FitsSigned 1 (twosComplement [registers.a] + twosComplement [value] +
        (registers.flag .carry).toNat) := by
  have bound := registers.a.toNat_lt
  have other := value.toNat_lt
  have carry := (registers.flag .carry).toNat_le
  rw [flag_overflow_addWithCarry, toNat_a_addWithCarry, twosComplement_singleton,
    twosComplement_singleton, FitsSigned, pow_one]
  split <;> split <;> omega

end Registers

namespace Cpu

section Code

variable {cpu : Cpu} {code byte : UInt8} {front back rest : List UInt8}

theorem Finds.left (finds : cpu.Finds (front ++ back)) : cpu.Finds front := by
  intro index below
  have there := finds index (by rw [List.length_append]; omega)
  rw [there, List.getElem_append_left below]

theorem Finds.right {after : Cpu} (front : List UInt8) (finds : cpu.Finds (front ++ back))
    (behind : after.registers.pc = cpu.registers.pc + UInt16.ofNat front.length)
    (kept : ∀ index < back.length,
      after.memory.at16 (after.registers.pc + UInt16.ofNat index) =
        cpu.memory.at16 (after.registers.pc + UInt16.ofNat index)) :
    after.Finds back := by
  intro index below
  have there := finds (front.length + index) (by rw [List.length_append]; omega)
  rw [kept index below, behind, UInt16.add_assoc, ← UInt16.ofNat_add, there,
    List.getElem_append_right (Nat.le_add_right _ _)]
  simp only [Nat.add_sub_cancel_left]

theorem step_of_finds (instruction : Instruction)
    (decoded : Instruction.decode? code = some instruction) (live : cpu.isHalted = false)
    (finds : cpu.Finds (code :: rest)) :
    cpu.step = cpu.conclude instruction (outcome instruction cpu.registers cpu.memory) := by
  apply step_of_decode live
  rw [finds.opcode]
  exact decoded

theorem step_of_clc (live : cpu.isHalted = false) (finds : cpu.Finds (0x18 :: rest)) :
    cpu.step.isHalted = false ∧ cpu.step.memory = cpu.memory ∧
      cpu.step.registers.pc = cpu.registers.pc + 1 ∧ cpu.step.registers.flag .carry = false := by
  rw [step_of_finds ⟨0x18, .clc, .implied, 2⟩ rfl live finds]
  exact ⟨live, rfl, rfl, Registers.flag_setFlag _ _⟩

theorem step_of_lda (live : cpu.isHalted = false) (finds : cpu.Finds (0xA9 :: byte :: rest)) :
    cpu.step.isHalted = false ∧ cpu.step.memory = cpu.memory ∧
      cpu.step.registers.pc = cpu.registers.pc + 2 ∧ cpu.step.registers.a = byte ∧
      cpu.step.registers.flag .carry = cpu.registers.flag .carry := by
  have operand := finds.operandByte
  rw [step_of_finds ⟨0xA9, .lda, .immediate, 2⟩ rfl live finds]
  exact ⟨live, rfl, rfl, operand, Registers.flag_setResult _ _⟩

theorem step_of_adc (live : cpu.isHalted = false) (finds : cpu.Finds (0x69 :: byte :: rest)) :
    let sum := cpu.registers.a.toNat + byte.toNat + (cpu.registers.flag .carry).toNat
    cpu.step.isHalted = false ∧ cpu.step.memory = cpu.memory ∧
      cpu.step.registers.pc = cpu.registers.pc + 2 ∧ cpu.step.registers.a = UInt8.ofNat sum ∧
      cpu.step.registers.flag .carry = decide (0x100 ≤ sum) ∧
      (cpu.step.registers.flag .overflow = true ↔
        ¬ FitsSigned 1 (twosComplement [cpu.registers.a] + twosComplement [byte] +
          (cpu.registers.flag .carry).toNat)) := by
  intro sum
  have operand := finds.operandByte
  let next : Registers := { cpu.registers with pc := cpu.registers.pc + 2 }
  have step := step_of_finds ⟨0x69, .adc, .immediate, 2⟩ rfl live finds
  have registers : cpu.step.registers = next.addWithCarry byte := by
    rw [step, ← operand]
    rfl
  have memory : cpu.step.memory = cpu.memory := by
    rw [step]
    rfl
  rw [registers]
  exact ⟨(congrArg isHalted step).trans live, memory, rfl, rfl,
    next.flag_carry_addWithCarry byte, next.flag_overflow_addWithCarry_iff byte⟩

theorem step_of_sta {place : Nat} (live : cpu.isHalted = false)
    (finds : cpu.Finds ([0x8D, UInt8.ofNat place, UInt8.ofNat (place / 0x100)] ++ rest))
    (below : place < 0x10000) (clear : MemoryMap.isFont place = false) :
    cpu.step.isHalted = false ∧ cpu.step.memory = cpu.memory.store place cpu.registers.a ∧
      cpu.step.registers.pc = cpu.registers.pc + 3 ∧
      ∀ flag, cpu.step.registers.flag flag = cpu.registers.flag flag := by
  have address : (cpu.memory.operandWord cpu.registers.pc).toNat = place := by
    rw [finds.left.operandWord, Placed.toNat_wordOf, UInt8.toNat_ofNat', UInt8.toNat_ofNat']
    omega
  have stored : commit cpu.memory
      [(cpu.memory.operandWord cpu.registers.pc, cpu.registers.a)] =
        cpu.memory.store place cpu.registers.a := by
    rw [commit, address, clear]
    rfl
  rw [step_of_finds ⟨0x8D, .sta, .absolute, 4⟩ rfl live finds]
  exact ⟨live, stored, rfl, fun _ => rfl⟩

end Code

/-- The code that adds two numbers byte by byte, to the carry that there is, and stores the sum from
a place on: for each pair of bytes a load, an addition and a store. -/
def additions : List UInt8 → List UInt8 → Nat → List UInt8
  | byte :: first, other :: second, place =>
    [0xA9, byte, 0x69, other] ++
      ([0x8D, UInt8.ofNat place, UInt8.ofNat (place / 0x100)] ++
        additions first second (place + 1))
  | _, _, _ => []

def addition (first second : List UInt8) (place : Nat) : List UInt8 :=
  0x18 :: additions first second place

structure Spares (cpu : Cpu) (code : List UInt8) (address : Nat) : Prop where
  below : address < 0x10000
  clear : MemoryMap.isFont address = false
  outside : address < cpu.registers.pc.toNat ∨ cpu.registers.pc.toNat + code.length ≤ address

/-- The machine has some code at the program counter, and that many cells from a place on for the
code to store to. -/
structure Ready (cpu : Cpu) (code : List UInt8) (place length : Nat) : Prop where
  finds : cpu.Finds code
  inside : cpu.registers.pc.toNat + code.length ≤ 0x10000
  spares : ∀ index < length, cpu.Spares code (place + index)

def total (cpu : Cpu) (first second : List UInt8) : Nat :=
  littleEndian first + littleEndian second + (cpu.registers.flag .carry).toNat

def signedTotal (cpu : Cpu) (first second : List UInt8) : Int :=
  twosComplement first + twosComplement second + (cpu.registers.flag .carry).toNat

structure Added (cpu : Cpu) (first second : List UInt8) (place : Nat) (after : Cpu) : Prop where
  live : after.isHalted = false
  memory : after.memory = cpu.memory.storeAll place (lowBytes first.length (cpu.total first second))
  carry : after.registers.flag .carry = decide (0x100 ^ first.length ≤ cpu.total first second)
  overflow : after.registers.flag .overflow = true ↔
    ¬ FitsSigned first.length (cpu.signedTotal first second)

section Additions

variable {cpu middle after : Cpu} {byte other : UInt8} {first second rest : List UInt8}
  {place : Nat}

theorem total_singleton (cpu : Cpu) (byte other : UInt8) : cpu.total [byte] [other] =
    byte.toNat + other.toNat + (cpu.registers.flag .carry).toNat := rfl

theorem Added.toNat_carry (low : cpu.Added [byte] [other] place middle) :
    (middle.registers.flag .carry).toNat = cpu.total [byte] [other] / 0x100 := by
  have bound := byte.toNat_lt
  have otherBound := other.toNat_lt
  have carryBound := (cpu.registers.flag .carry).toNat_le
  rw [low.carry, List.length_singleton, pow_one, total_singleton]
  exact toNat_decide_carry (by omega)

theorem Added.total_cons (low : cpu.Added [byte] [other] place middle) (first second : List UInt8) :
    cpu.total (byte :: first) (other :: second) =
      cpu.total [byte] [other] % 0x100 + 0x100 * middle.total first second := by
  have carried := low.toNat_carry
  rw [total_singleton] at carried ⊢
  rw [total, total, littleEndian, littleEndian]
  omega

theorem Added.signedTotal_cons (low : cpu.Added [byte] [other] place middle)
    (some : first ≠ []) (more : second ≠ []) :
    cpu.signedTotal (byte :: first) (other :: second) =
      (cpu.total [byte] [other] % 0x100 : Nat) + 0x100 * middle.signedTotal first second := by
  have carried := low.toNat_carry
  rw [total_singleton] at carried ⊢
  rw [signedTotal, signedTotal, twosComplement_cons _ some, twosComplement_cons _ more]
  omega

/-- The additions of the lowest bytes and those of the others are the additions of the numbers. -/
theorem Added.cons (low : cpu.Added [byte] [other] place middle)
    (high : middle.Added first second (place + 1) after) (some : first ≠ []) (more : second ≠ []) :
    cpu.Added (byte :: first) (other :: second) place after where
  live := high.live
  memory := by
    have lowest : UInt8.ofNat (cpu.total (byte :: first) (other :: second)) =
        UInt8.ofNat (cpu.total [byte] [other]) := by
      apply UInt8.toNat_inj.mp
      rw [low.total_cons, UInt8.toNat_ofNat', UInt8.toNat_ofNat']
      omega
    have others : cpu.total (byte :: first) (other :: second) / 0x100 =
        middle.total first second := by
      rw [low.total_cons]
      omega
    have bytes : lowBytes (byte :: first).length (cpu.total (byte :: first) (other :: second)) =
        UInt8.ofNat (cpu.total [byte] [other]) ::
          lowBytes first.length (middle.total first second) := by
      rw [List.length_cons, lowBytes, lowest, others]
    rw [high.memory, low.memory, bytes]
    rfl
  carry := by
    rw [high.carry, low.total_cons, List.length_cons, pow_succ']
    exact decide_eq_decide.mpr (by omega)
  overflow := by
    have small : cpu.total [byte] [other] % 0x100 < 0x100 := Nat.mod_lt _ (by decide)
    have long : first.length ≠ 0 := fun none => some (List.length_eq_zero_iff.mp none)
    rw [high.overflow, low.signedTotal_cons some more, List.length_cons,
      fitsSigned_succ long small]

theorem Added.littleEndian_cells (added : cpu.Added first second place after)
    (fits : place + first.length ≤ cpu.memory.size) :
    littleEndian ((List.range' place first.length).map after.memory.byte) =
      cpu.total first second % 0x100 ^ first.length := by
  have length := length_lowBytes first.length (cpu.total first second)
  rw [← length] at fits
  have read := cpu.memory.map_byte_storeAll fits
  rw [length] at read
  rw [added.memory, read, littleEndian_lowBytes]

theorem added_step (live : cpu.isHalted = false)
    (finds : cpu.Finds ([0xA9, byte, 0x69, other] ++
      ([0x8D, UInt8.ofNat place, UInt8.ofNat (place / 0x100)] ++ rest)))
    (below : place < 0x10000) (clear : MemoryMap.isFont place = false) :
    cpu.Added [byte] [other] place (step^[3] cpu) ∧
      (step^[3] cpu).registers.pc = cpu.registers.pc + 7 := by
  obtain ⟨liveLoaded, memoryLoaded, pcLoaded, loaded, carryLoaded⟩ := step_of_lda live finds
  have findsSum : cpu.step.Finds ([0x69, other] ++
      ([0x8D, UInt8.ofNat place, UInt8.ofNat (place / 0x100)] ++ rest)) := by
    apply Finds.right [0xA9, byte] finds pcLoaded
    intro index below
    rw [memoryLoaded]
  obtain ⟨liveAdded, memoryAdded, pcAdded, added, carry, overflow⟩ :=
    step_of_adc liveLoaded findsSum
  have findsStore : cpu.step.step.Finds
      ([0x8D, UInt8.ofNat place, UInt8.ofNat (place / 0x100)] ++ rest) := by
    apply findsSum.right [0x69, other] pcAdded
    intro index below
    rw [memoryAdded]
  obtain ⟨liveStored, memory, pc, kept⟩ := step_of_sta liveAdded findsStore below clear
  rw [loaded, carryLoaded] at added carry overflow
  refine ⟨⟨liveStored, ?_, (kept .carry).trans carry, ?_⟩, ?_⟩
  · rw [added, memoryAdded, memoryLoaded] at memory
    exact memory
  · rw [← kept .overflow] at overflow
    exact overflow
  · rw [pcAdded, pcLoaded, UInt16.add_assoc, UInt16.add_assoc] at pc
    exact pc

theorem additions_ne_nil (same : second.length = first.length) (some : first ≠ []) (place : Nat) :
    additions first second place ≠ [] := by
  obtain ⟨byte, first, rfl⟩ := List.exists_cons_of_ne_nil some
  obtain ⟨other, second, rfl⟩ := List.exists_cons_of_length_eq_add_one same
  exact List.cons_ne_nil _ _

theorem Ready.tail (front : List UInt8) {back : List UInt8} {length : Nat} (skip : Nat)
    (ready : cpu.Ready (front ++ back) place (length + skip)) (more : back ≠ [])
    (pc : after.registers.pc = cpu.registers.pc + UInt16.ofNat front.length)
    (kept : ∀ address, cpu.registers.pc.toNat ≤ address →
      address < cpu.registers.pc.toNat + (front ++ back).length →
        after.memory.byte address = cpu.memory.byte address) :
    after.Ready back (place + skip) length := by
  have inside := ready.inside
  have some := List.length_pos_iff.mpr more
  rw [List.length_append] at inside kept
  have behind : after.registers.pc.toNat = cpu.registers.pc.toNat + front.length := by
    rw [pc, UInt16.toNat_add, UInt16.toNat_ofNat']
    omega
  refine ⟨ready.finds.right front pc fun index below => ?_, by omega, fun index below => ?_⟩
  · have address : (after.registers.pc + UInt16.ofNat index).toNat =
        cpu.registers.pc.toNat + front.length + index := by
      rw [UInt16.toNat_add, behind, UInt16.toNat_ofNat']
      omega
    rw [Memory.at16, Memory.at16, address]
    exact kept _ (by omega) (by omega)
  · have spares := ready.spares (index + skip) (by omega)
    have outside := spares.outside
    have address : place + (index + skip) = place + skip + index := by omega
    rw [List.length_append] at outside
    rw [address] at spares outside
    exact ⟨spares.below, spares.clear, by omega⟩

theorem added_run (same : second.length = first.length) (some : first ≠ [])
    (live : cpu.isHalted = false)
    (ready : cpu.Ready (additions first second place) place first.length) :
    cpu.Added first second place (step^[3 * first.length] cpu) := by
  induction first generalizing second place cpu with
  | nil => exact absurd rfl some
  | cons byte first ih =>
      obtain ⟨other, second, rfl⟩ := List.exists_cons_of_length_eq_add_one same
      replace same : second.length = first.length := Nat.succ.inj same
      have here := ready.spares 0 (Nat.succ_pos _)
      obtain ⟨low, pc⟩ := added_step live ready.finds here.below here.clear
      -- without any addition the overflow flag tells nothing, so the induction starts at one pair
      rcases first with _ | ⟨next, others⟩
      · rw [List.eq_nil_of_length_eq_zero same]
        exact low
      · obtain ⟨otherNext, second, rfl⟩ := List.exists_cons_of_length_eq_add_one same
        have later : (step^[3] cpu).Ready
            (additions (next :: others) (otherNext :: second) (place + 1)) (place + 1)
            (next :: others).length := by
          let front : List UInt8 :=
            [0xA9, byte, 0x69, other, 0x8D, UInt8.ofNat place, UInt8.ofNat (place / 0x100)]
          refine ready.tail front 1 (List.cons_ne_nil _ _) pc fun address start stop => ?_
          have apart : address ≠ place := by
            rintro rfl
            exact here.outside.elim (Nat.not_lt.mpr start) (Nat.not_le.mpr stop)
          rw [low.memory]
          exact Memory.byte_store_of_ne _ apart _
        have high := ih same (List.cons_ne_nil _ _) low.live later
        have steps : 3 * (byte :: next :: others).length = 3 * (next :: others).length + 3 := rfl
        rw [steps, Function.iterate_add_apply]
        exact low.cons high (List.cons_ne_nil _ _) (List.cons_ne_nil _ _)

end Additions

/-- Numbers of any length are added exactly. Behind the code the cells hold the sum, as far as they
reach; the carry flag tells whether there is more of it, and the overflow flag whether the sum in
two's complement does not fit. -/
theorem long_addition_exact {cpu : Cpu} (live : cpu.isHalted = false)
    (size : cpu.memory.size = 0x10000) {first second : List UInt8}
    (same : second.length = first.length) (some : 0 < first.length) {place : Nat}
    (finds : cpu.Finds (addition first second place))
    (inside : cpu.registers.pc.toNat + (addition first second place).length ≤ 0x10000)
    (spares : ∀ index < first.length,
      cpu.Spares (addition first second place) (place + index)) :
    let length := first.length
    let after := step^[3 * length + 1] cpu
    after.isHalted = false ∧
      littleEndian ((List.range' place length).map after.memory.byte) =
        (littleEndian first + littleEndian second) % 0x100 ^ length ∧
      (after.registers.flag .carry = true ↔
        0x100 ^ length ≤ littleEndian first + littleEndian second) ∧
      (after.registers.flag .overflow = true ↔
        ¬ FitsSigned length (twosComplement first + twosComplement second)) := by
  intro length after
  obtain ⟨liveNext, memory, pc, clear⟩ := step_of_clc live finds
  have more : first ≠ [] := List.ne_nil_of_length_pos some
  have ready : cpu.step.Ready (additions first second place) place length := by
    have whole : cpu.Ready (addition first second place) place length := ⟨finds, inside, spares⟩
    refine whole.tail [0x18] 0 (additions_ne_nil same more place) pc fun address _ _ => ?_
    rw [memory]
  have added : cpu.step.Added first second place after := added_run same more liveNext ready
  have total : cpu.step.total first second = littleEndian first + littleEndian second := by
    rw [Cpu.total, clear]
    rfl
  have signedTotal : cpu.step.signedTotal first second =
      twosComplement first + twosComplement second := by
    rw [Cpu.signedTotal, clear]
    exact Int.add_zero _
  have last := (spares (first.length - 1) (by omega)).below
  have fits : place + first.length ≤ cpu.step.memory.size := by
    rw [memory, size]
    omega
  rw [← total, ← signedTotal]
  refine ⟨added.live, added.littleEndian_cells fits, ?_, added.overflow⟩
  rw [added.carry, decide_eq_true_iff]

/-- The sum of $8001 and $80FF: there is a carry behind each pair of bytes, and the sum of the two
negative numbers is positive. -/
theorem long_addition_exact_overflowing :
    let cpu : Cpu :=
      { blank with
        memory := blank.memory.storeAll 0x0200 (addition [0x01, 0x80] [0xFF, 0x80] 0x00FF)
        registers := { Registers.initial with pc := 0x0200 } }
    let after := step^[7] cpu
    after.isHalted = false ∧
      littleEndian ((List.range' 0x00FF 2).map after.memory.byte) = 0x0100 ∧
      after.registers.flag .carry = true ∧ after.registers.flag .overflow = true := by
  intro cpu after
  have size : cpu.memory.size = 0x10000 := Memory.size_storeAll _ _ _
  have finds : cpu.Finds (addition [0x01, 0x80] [0xFF, 0x80] 0x00FF) := by
    unfold Finds
    decide +kernel
  have apart : ∀ index < 2, 0x00FF + index < 0x10000 ∧
      MemoryMap.isFont (0x00FF + index) = false ∧
      0x00FF + index < cpu.registers.pc.toNat := by decide +kernel
  have spares (index : Nat) (below : index < 2) :
      cpu.Spares (addition [0x01, 0x80] [0xFF, 0x80] 0x00FF) (0x00FF + index) := by
    obtain ⟨inside, clear, before⟩ := apart index below
    exact ⟨inside, clear, Or.inl before⟩
  have live : cpu.isHalted = false := rfl
  have same : ([0xFF, 0x80] : List UInt8).length = ([0x01, 0x80] : List UInt8).length := rfl
  obtain ⟨live, cells, carry, overflow⟩ :=
    long_addition_exact live size same (by decide) finds (by decide +kernel) spares
  exact ⟨live, cells.trans (by decide), carry.mpr (by decide), overflow.mpr (by decide)⟩

end Cpu

end EightBit
