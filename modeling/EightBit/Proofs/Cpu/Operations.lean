import EightBit.Cpu.Run

/-!
What a caller can make of a machine: sequences of its operations, of any length, with hooks that
call operations themselves. A property that every operation keeps is kept by all of them.
-/
namespace EightBit

inductive RegisterWrite where
  | a (value : UInt8)
  | x (value : UInt8)
  | y (value : UInt8)
  | sp (value : UInt8)
  | pc (value : UInt16)
  | status (value : UInt8)
  | flag (name : Flag) (value : Bool)
  | result (value : UInt8)
  | reset

def RegisterWrite.apply (registers : Registers) : RegisterWrite → Registers
  | a value => { registers with a := value }
  | x value => { registers with x := value }
  | y value => { registers with y := value }
  | sp value => { registers with sp := value }
  | pc value => { registers with pc := value }
  | status value => registers.setStatus value
  | flag name value => registers.setFlag name value
  | result value => registers.setResult value
  | reset => .initial

namespace Cpu

def write (cpu : Cpu) (change : RegisterWrite) : Cpu :=
  { cpu with registers := change.apply cpu.registers }

def attempt (cpu : Cpu) (result : Except MemoryError Cpu) : Cpu :=
  match result with
  | .ok after => after
  | .error _ => cpu

/-- One machine leads to another by a finite sequence of operations. A run counts if it ends, and
its hook calls operations only. -/
inductive Leads : Cpu → Cpu → Prop
  | none {cpu : Cpu} : Leads cpu cpu
  | andThen {first second third : Cpu} (early : Leads first second) (late : Leads second third) :
      Leads first third
  | reset {cpu : Cpu} : Leads cpu cpu.reset
  | load {cpu : Cpu} (program : List UInt8) (start : UInt16) :
      Leads cpu (cpu.attempt (cpu.load program start))
  | poke {cpu : Cpu} (address : UInt16) (value : UInt8) :
      Leads cpu (cpu.attempt (cpu.poke address value))
  | write {cpu : Cpu} (change : RegisterWrite) : Leads cpu (cpu.write change)
  | setTracing {cpu : Cpu} (tracing : Bool) : Leads cpu (cpu.setTracing tracing)
  | stop {cpu : Cpu} : Leads cpu cpu.stop
  | step {cpu : Cpu} : Leads cpu cpu.step
  | runFor {cpu : Cpu} (limit : Nat) : Leads cpu (cpu.runFor limit).2
  | run {cpu after : Cpu} {fuel : Nat} (ended : cpu.run fuel = .finished after) : Leads cpu after
  | runWith {σ : Type} {hook : Hook σ} {cpu after : Cpu} {fuel : Nat} {own left : σ}
      (calls : ∀ own cpu, Leads cpu (hook.after own cpu).2)
      (ended : cpu.runWith hook fuel own = .finished (left, after)) : Leads cpu after

/-- What a step, a hook and the change of the state keep, a run keeps. -/
structure Kept {σ : Type} (hook : Hook σ) (holds : Cpu → Prop) : Prop where
  state {cpu : Cpu} (state : CpuState) : holds cpu → holds { cpu with state }
  step {cpu : Cpu} : holds cpu → holds cpu.step
  hook {cpu : Cpu} (own : σ) : holds cpu → holds (hook.after own cpu).2

section Kept

variable {σ : Type} {hook : Hook σ} {holds : Cpu → Prop}

theorem Kept.loop (kept : Kept hook holds) (fuel : Nat) (own : σ) {cpu : Cpu} (start : holds cpu) :
    holds (cpu.loop hook fuel own).value.2 := by
  induction fuel generalizing own cpu with
  | zero =>
      unfold Cpu.loop
      split <;> exact start
  | succ fuel ih =>
      unfold Cpu.loop
      split
      · dsimp only
        split
        · exact ih _ (kept.hook _ (kept.step start))
        · exact kept.step start
      · exact start

theorem Kept.runWith (kept : Kept hook holds) (fuel : Nat) (own : σ) {cpu : Cpu}
    (start : holds cpu) : holds (cpu.runWith hook fuel own).value.2 := by
  unfold Cpu.runWith
  split
  · exact start
  · exact kept.loop fuel own (kept.state .running start)

theorem exists_finished_of_stops (stops : ∀ own cpu, (hook.after own cpu).2.state ≠ .running)
    (own : σ) (cpu : Cpu) : ∃ result, cpu.runWith hook 1 own = .finished result := by
  unfold Cpu.runWith
  split
  · exact ⟨_, rfl⟩
  · unfold Cpu.loop
    rw [if_pos rfl]
    dsimp only
    split
    · exact ⟨_, if_neg (stops _ _)⟩
    · exact ⟨_, rfl⟩

end Kept

end Cpu

end EightBit
