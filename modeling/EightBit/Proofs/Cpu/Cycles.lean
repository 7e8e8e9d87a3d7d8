import Mathlib.Algebra.Order.BigOperators.Group.List
import Mathlib.Algebra.Order.Ring.Nat
import EightBit.Proofs.Cpu.LifeCycle
import EightBit.Proofs.Cpu.ProgramCounter

/-!
What a step costs, and what all of them cost together. Besides the cycles of its instruction a step
pays for an index that leads to another page before a read, and for a branch that is taken.
-/
namespace EightBit

namespace Cpu

def crossing (first second : Nat) : Nat := if first / 0x100 = second / 0x100 then 0 else 1

def indexed : List AddressingMode := [.absoluteX, .absoluteY, .indirectY]

def branchTarget (cpu : Cpu) : Nat :=
  let pc := cpu.registers.pc.toNat
  ((pc + 2 + (cpu.cell (pc + 1)).toInt8.toInt) % 0x10000).toNat

/-- The cost of reading an operand whose address has an index: it is the index that leads to another
page. -/
def readCycles (cpu : Cpu) (mode : AddressingMode) : Nat :=
  match cpu.operandBase? mode with
  | some base => if mode ∈ indexed then crossing ((base + cpu.index mode) % 0x10000) base else 0
  | none => 0

def branchCycles (cpu : Cpu) : Nat :=
  1 + crossing cpu.branchTarget ((cpu.registers.pc.toNat + 2) % 0x10000)

/-- What the next step costs on top of its instruction. Stores have an index for nothing. -/
def extraCycles (cpu : Cpu) (instruction : Instruction) : Nat :=
  if instruction.mnemonic ∈ reading then cpu.readCycles instruction.mode
  else if cpu.registers.branches instruction.mnemonic then cpu.branchCycles
  else 0

section Step

variable {cpu : Cpu} {instruction : Instruction}

theorem penalty_eq_crossing (place : Place) :
    place.penalty = crossing place.address.toNat place.base.toNat := by
  simp only [Place.penalty, samePage, crossing, decide_eq_true_eq]

theorem crossing_self (address : Nat) : crossing address address = 0 := if_pos rfl

theorem crossing_le (first second : Nat) : crossing first second ≤ 1 := by
  unfold crossing
  split <;> decide

theorem penalty_perform (instruction : Instruction) (registers : Registers) (memory : Memory)
    (place : Place) :
    (perform instruction registers memory place).penalty =
      if instruction.mnemonic ∈ reading then place.penalty
      else if registers.branches instruction.mnemonic then 1 + place.penalty
      else 0 := by
  unfold perform
  cases instruction.mnemonic with
  | bcc | bcs | beq | bmi | bne | bpl | bvc | bvs =>
      rw [if_neg (by decide)]
      exact apply_ite Outcome.penalty _ _ _
  | _ => rfl

theorem penalty_place {base : Nat} {mode : AddressingMode}
    (based : cpu.operandBase? mode = some base) :
    (place cpu.memory cpu.registers mode).penalty = cpu.readCycles mode := by
  obtain ⟨start, ends⟩ := toNat_place based
  unfold readCycles
  rw [based]
  dsimp only
  cases mode with
  | implied | relative => cases based
  | immediate | zeroPage | absolute =>
      rw [if_neg (by decide), penalty_eq_crossing]
      exact crossing_self _
  | absoluteX | absoluteY | indirectY =>
      rw [if_pos (by decide), penalty_eq_crossing, ends, start]

theorem penalty_relative (cpu : Cpu) :
    1 + (place cpu.memory cpu.registers .relative).penalty = cpu.branchCycles := by
  have target : (place cpu.memory cpu.registers .relative).address.toNat = cpu.branchTarget := by
    rw [branchTarget, ← cpu.toNat_address_relative, Int.toNat_natCast]
  have next : (place cpu.memory cpu.registers .relative).base.toNat =
      (cpu.registers.pc.toNat + 2) % 0x10000 := UInt16.toNat_add _ 2
  rw [penalty_eq_crossing, target, next, branchCycles]

theorem cycles_step (found : cpu.instruction? = some instruction) :
    cpu.step.cycles = instruction.cycles + cpu.extraCycles instruction := by
  have defined := mem_all_of_instruction? found
  have paid : cpu.step.cycles =
      instruction.cycles + (outcome instruction cpu.registers cpu.memory).penalty := by
    rw [step_of_instruction? found]
    rfl
  rw [paid, outcome, penalty_perform, extraCycles]
  by_cases reads : instruction.mnemonic ∈ reading
  · obtain ⟨address, known⟩ :=
      Option.isSome_iff_exists.mp (cpu.isSome_operandAddress?_of_reading defined reads)
    obtain ⟨base, based, -⟩ := Option.map_eq_some_iff.mp known
    rw [if_pos reads, if_pos reads, penalty_place based]
  · rw [if_neg reads, if_neg reads]
    by_cases taken : cpu.registers.branches instruction.mnemonic = true
    · rw [if_pos taken, if_pos taken, mode_of_branches defined taken, penalty_relative]
    · rw [if_neg taken, if_neg taken]

theorem cycles_step_of_none (live : cpu.isHalted = false) (none : cpu.instruction? = none) :
    cpu.step.cycles = 1 := by
  have unknown : Instruction.decode? (cpu.memory.at16 cpu.registers.pc) = .none := by
    rwa [instruction?, if_neg (ne_true_of_eq_false live)] at none
  rw [step_of_unknown live unknown]
  rfl

theorem cycles_step_le (live : cpu.isHalted = false) : cpu.step.cycles ≤ 8 := by
  cases found : cpu.instruction? with
  | none =>
      rw [cycles_step_of_none live found]
      decide
  | some instruction =>
      have dearest : ∀ instruction ∈ Instruction.all, instruction.cycles ≤ 6 := by decide
      have base := dearest instruction (mem_all_of_instruction? found)
      have extra : cpu.extraCycles instruction ≤ 2 := by
        have crosses := crossing_le
        unfold extraCycles readCycles branchCycles
        grind
      rw [cycles_step found]
      omega

theorem totalCycles_step (cpu : Cpu) :
    cpu.step.totalCycles = cpu.totalCycles + if cpu.isHalted then 0 else cpu.step.cycles := by
  cases live : cpu.isHalted with
  | true =>
      rw [step_of_isHalted live]
      rfl
  | false =>
      cases decoded : Instruction.decode? (cpu.memory.at16 cpu.registers.pc) with
      | none =>
          rw [step_of_unknown live decoded]
          rfl
      | some instruction =>
          rw [step_of_decode live decoded]
          rfl

end Step

section History

def charge (cpu : Cpu) (costs : List Nat) : Turn → List Nat
  | .reset => []
  | .step => if cpu.isHalted then costs else costs ++ [cpu.step.cycles]
  | _ => costs

/-- What the instructions cost that were executed since the last reset, one by one. A step of a
halted machine executes none. -/
def costs (cpu : Cpu) (sofar : List Nat) : List Turn → List Nat
  | [] => sofar
  | turn :: rest => (cpu.take turn).costs (cpu.charge sofar turn) rest

variable {cpu : Cpu} {turn : Turn} {turns : List Turn} {sofar : List Nat}

theorem totalCycles_load (program : List UInt8) (start : UInt16) :
    (cpu.attempt (cpu.load program start)).totalCycles = cpu.totalCycles := by
  obtain ⟨memory, loaded⟩ := cpu.exists_attempt_load program start
  rw [loaded]

theorem totalCycles_poke (address : UInt16) (value : UInt8) :
    (cpu.attempt (cpu.poke address value)).totalCycles = cpu.totalCycles := by
  obtain ⟨memory, poked⟩ := cpu.exists_attempt_poke address value
  rw [poked]

theorem totalCycles_stop (cpu : Cpu) : cpu.stop.totalCycles = cpu.totalCycles := by
  unfold stop
  split <;> rfl

theorem totalCycles_start (cpu : Cpu) : cpu.start.totalCycles = cpu.totalCycles := by
  unfold start
  split <;> rfl

theorem totalCycles_take (total : cpu.totalCycles = sofar.sum) :
    (cpu.take turn).totalCycles = (cpu.charge sofar turn).sum := by
  cases turn with
  | reset => rfl
  | load program start => exact (totalCycles_load program start).trans total
  | poke address value => exact (totalCycles_poke address value).trans total
  | write change => exact total
  | setTracing tracing => exact total
  | stop => exact (totalCycles_stop cpu).trans total
  | start => exact (totalCycles_start cpu).trans total
  | step =>
      rw [take, totalCycles_step, total, charge]
      cases cpu.isHalted with
      | true => rfl
      | false =>
          simp only [Bool.false_eq_true, ↓reduceIte, List.sum_append, List.sum_singleton]

theorem totalCycles_replay (total : cpu.totalCycles = sofar.sum) :
    (cpu.replay turns).totalCycles = (cpu.costs sofar turns).sum := by
  induction turns generalizing cpu sofar with
  | nil => exact total
  | cons turn rest ih => exact ih (totalCycles_take total)

theorem charge_le (cheap : ∀ cost ∈ sofar, cost ≤ 8) :
    ∀ cost ∈ cpu.charge sofar turn, cost ≤ 8 := by
  cases turn with
  | step =>
      unfold charge
      cases live : cpu.isHalted with
      | true => exact cheap
      | false =>
          intro cost member
          rcases List.mem_append.mp member with earlier | last
          · exact cheap cost earlier
          · rw [List.mem_singleton.mp last]
            exact cycles_step_le live
  | reset => exact nofun
  | _ => exact cheap

theorem costs_le (cheap : ∀ cost ∈ sofar, cost ≤ 8) :
    ∀ cost ∈ cpu.costs sofar turns, cost ≤ 8 := by
  induction turns generalizing cpu sofar with
  | nil => exact cheap
  | cons turn rest ih => exact ih (charge_le cheap)

/-- A step costs the cycles of its instruction, one more for a read whose index leads to another
page, one more for a branch that is taken, and another if it leads to another page; at an unknown
opcode it costs one. Whatever is done with a machine behind a reset, its total is the sum of the
costs of the instructions executed since then, to which a halted machine adds nothing. In fewer than
2^60 steps it does not outgrow 64 bits. -/
theorem cycles_add_up :
    (∀ cpu : Cpu, cpu.isHalted = false →
      (∀ instruction, cpu.instruction? = some instruction →
        cpu.step.cycles = instruction.cycles + cpu.extraCycles instruction) ∧
      (cpu.instruction? = none → cpu.step.cycles = 1)) ∧
    ∀ (before : Cpu) (turns : List Turn) (cpu : Cpu), History before.reset turns cpu →
      cpu.totalCycles = (before.reset.costs [] turns).sum ∧
      ((before.reset.costs [] turns).length < 0x1000000000000000 →
        cpu.totalCycles < 0x10000000000000000) := by
  refine ⟨fun cpu live => ⟨fun _ => cycles_step, cycles_step_of_none live⟩, ?_⟩
  intro before turns cpu history
  have total : cpu.totalCycles = (before.reset.costs [] turns).sum := by
    rw [history.replay]
    exact totalCycles_replay rfl
  refine ⟨total, fun short => ?_⟩
  have bound : (before.reset.costs [] turns).sum ≤ (before.reset.costs [] turns).length • 8 :=
    List.sum_le_card_nsmul _ _ (costs_le nofun)
  rw [Nat.nsmul_eq_mul] at bound
  omega

theorem costs_of_increment (idle : cpu.state = .idle)
    (first : cpu.memory.at16 cpu.registers.pc = 0xE8)
    (second : cpu.memory.at16 (cpu.registers.pc + 1) = 0x02) :
    cpu.costs [] [.step, .step, .step] = [2, 1] := by
  have live := isHalted_eq_false_of_idle idle
  have found : cpu.instruction? = some ⟨0xE8, .inx, .implied, 2⟩ := by
    apply instruction?_eq_some_iff.mpr
    rw [first]
    exact ⟨live, by decide⟩
  have early : cpu.step.cycles = 2 := cycles_step found
  have going : cpu.step.isHalted = false := by
    rw [step_of_instruction? found]
    exact live
  have unknown : Instruction.decode? (cpu.step.memory.at16 cpu.step.registers.pc) = none := by
    rw [step_of_instruction? found]
    change Instruction.decode? (cpu.memory.at16 (cpu.registers.pc + 1)) = none
    rw [second]
    decide
  have halting := step_of_unknown going unknown
  have late : cpu.step.step.cycles = 1 := congrArg Cpu.cycles halting
  have halted : cpu.step.step.isHalted = true := congrArg isHalted halting
  simp only [costs, charge, take, live, going, halted, early, late, Bool.false_eq_true, ↓reduceIte]
  rfl

theorem cycles_add_up_over_pages :
    let machine (program : List UInt8) : Cpu :=
      { blank with
        memory := blank.memory.storeAll 0x02F0 program
        registers := { Registers.initial with x := 1, pc := 0x02F0 } }
    let turns : List Turn :=
      [.load [0xE8, 0x02] 0x0200, .write (.pc 0x0200), .step, .step, .step]
    (machine [0xBD, 0xFF, 0x02]).step.cycles = 4 + 1 ∧
      (machine [0x9D, 0xFF, 0x02]).step.cycles = 5 ∧
      (machine [0xD0, 0x20]).step.cycles = 2 + 1 + 1 ∧
      (blank.reset.replay turns).totalCycles = 2 + 1 := by
  intro machine turns
  have reads : (machine [0xBD, 0xFF, 0x02]).instruction? =
      some ⟨0xBD, .lda, .absoluteX, 4⟩ := by decide +kernel
  have stores : (machine [0x9D, 0xFF, 0x02]).instruction? =
      some ⟨0x9D, .sta, .absoluteX, 5⟩ := by decide +kernel
  have branches : (machine [0xD0, 0x20]).instruction? =
      some ⟨0xD0, .bne, .relative, 2⟩ := by decide +kernel
  obtain ⟨pays, adds⟩ := cycles_add_up
  have read := (pays (machine [0xBD, 0xFF, 0x02]) rfl).1 _ reads
  have store := (pays (machine [0x9D, 0xFF, 0x02]) rfl).1 _ stores
  have branch := (pays (machine [0xD0, 0x20]) rfl).1 _ branches
  have history : History blank.reset turns _ :=
    .andThen (.operation (.load [0xE8, 0x02] 0x0200) rfl)
      (.andThen (.operation (.write (.pc 0x0200)) rfl)
        (.andThen (.operation .step rfl)
          (.andThen (.operation .step rfl) (.operation .step rfl))))
  have total := (adds blank turns _ history).1
  have resting : blank.reset.state = .idle := rfl
  obtain ⟨idle, pc, first, second⟩ := take_load_write resting (intact_reset rfl).memory.size
  have spent : blank.reset.costs [] turns = [2, 1] := by
    rw [costs, costs]
    exact costs_of_increment idle (by rw [pc, first]) (by rw [pc, second])
  rw [history.replay, spent] at total
  exact ⟨read.trans (by decide +kernel), store.trans (by decide +kernel),
    branch.trans (by decide +kernel), total⟩

end History

end Cpu

end EightBit
