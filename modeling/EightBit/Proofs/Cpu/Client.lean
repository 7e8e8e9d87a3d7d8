import EightBit.Proofs.Cpu.Invariant
import EightBit.Proofs.Cpu.Lockstep

/-!
What a caller learns from a machine. It decides by all the answers so far what to do next, and the
hooks of its runs do so too. The trace switch is no part of any answer, and all else that a reset
leaves is the same as in a new machine, so nobody can tell the two apart.
-/
namespace EightBit

def Cpu.seen (cpu : Cpu) : Cpu := cpu.setTracing false

inductive Request : Type → Type
  | look : Request Cpu
  | reset : Request Unit
  | load (program : List UInt8) (start : UInt16) : Request (Except MemoryError Unit)
  | poke (address : UInt16) (value : UInt8) : Request (Except MemoryError Unit)
  | write (change : RegisterWrite) : Request Unit
  | setTracing (tracing : Bool) : Request Unit
  | stop : Request Unit
  | step : Request Unit
  | runFor (limit : Nat) : Request Nat

def Request.serve {α : Type} (cpu : Cpu) : Request α → α × Cpu
  | look => (cpu.seen, cpu)
  | reset => ((), cpu.reset)
  | load program start =>
    let result := cpu.load program start
    (result.map fun _ => (), cpu.attempt result)
  | poke address value =>
    let result := cpu.poke address value
    (result.map fun _ => (), cpu.attempt result)
  | write change => ((), cpu.write change)
  | setTracing tracing => ((), cpu.setTracing tracing)
  | stop => ((), cpu.stop)
  | step => ((), cpu.step)
  | runFor limit => cpu.runFor limit

/-- A caller that ends with a value. What it does after a request or a run is a function of the
answer. The hook of a run is a caller too, each time it is called, and what it ends with is known to
its next call. -/
inductive Client : Type → Type 1
  | done {α : Type} (value : α) : Client α
  | ask {α β : Type} (request : Request β) (next : β → Client α) : Client α
  | run {α : Type} (next : Client α) : Client α
  | runWith {α σ : Type} (own : σ) (hook : σ → Client σ) (next : σ → Client α) : Client α

def Hook.calling {σ : Type} (call : σ → Cpu → Option (σ × Cpu)) : Hook (Option σ) where
  before own _ := own
  after own cpu :=
    match own.bind fun own => call own cpu with
    | some (own, after) => (some own, after)
    | none => (none, cpu.stop)

/-- What a caller ends with, and the machine as the caller leaves it. There is nothing if a run
wants more than the fuel that every run gets. -/
def Client.play {α : Type} (fuel : Nat) : Client α → Cpu → Option (α × Cpu)
  | done value, cpu => some (value, cpu)
  | ask request next, cpu =>
    let (answer, after) := request.serve cpu
    (next answer).play fuel after
  | run next, cpu =>
    match cpu.run fuel with
    | .finished after => next.play fuel after
    | .outOfFuel _ => none
  | runWith own hook next, cpu =>
    match cpu.runWith (.calling fun own cpu => (hook own).play fuel cpu) fuel (some own) with
    | .finished (some own, after) => (next own).play fuel after
    | _ => none

namespace Cpu

/-- Machines that differ at most in the trace switch. -/
def Twin (cpu other : Cpu) : Prop := cpu.seen = other.seen

variable {cpu other : Cpu}

theorem twin_setTracing (cpu : Cpu) (tracing : Bool) : (cpu.setTracing tracing).Twin cpu := rfl

theorem step_seen (cpu : Cpu) : cpu.seen.step = cpu.step.seen := by
  have same : cpu.seen.isHalted = cpu.isHalted := rfl
  cases halted : cpu.isHalted with
  | true => rw [step, step, if_pos halted, if_pos (same.trans halted)]
  | false =>
      cases decoded : Instruction.decode? (cpu.memory.at16 cpu.registers.pc) with
      | none =>
          rw [step_of_unknown halted decoded, step_of_unknown (same.trans halted) decoded]
          rfl
      | some instruction =>
          rw [step_of_decode halted decoded, step_of_decode (same.trans halted) decoded]
          rfl

theorem load_seen (cpu : Cpu) (program : List UInt8) (start : UInt16) :
    cpu.seen.load program start = (cpu.load program start).map seen := by
  unfold load
  split
  · rfl
  · change (cpu.memory.load program start.toNat).map _ = _
    cases cpu.memory.load program start.toNat with
    | error reason => rfl
    | ok memory => rfl

theorem poke_seen (cpu : Cpu) (address : UInt16) (value : UInt8) :
    cpu.seen.poke address value = (cpu.poke address value).map seen := by
  unfold poke
  split
  · rfl
  · change (cpu.memory.write address.toNat value.toUInt16).map _ = _
    cases cpu.memory.write address.toNat value.toUInt16 with
    | error reason => rfl
    | ok memory => rfl

theorem reset_seen (cpu : Cpu) : cpu.seen.reset = cpu.reset.seen := by
  rw [seen, setTracing, reset, reset, seen, setTracing]

theorem stepEvents_seen (cpu : Cpu) :
    cpu.seen.stepEvents = cpu.stepEvents.filter fun event => event.severity ≠ .trace := by
  have halted : cpu.seen.isHalted = cpu.isHalted := rfl
  have memory : cpu.seen.memory = cpu.memory := rfl
  have registers : cpu.seen.registers = cpu.registers := rfl
  have switch : cpu.seen.tracing = false := rfl
  unfold stepEvents
  rw [halted, memory, registers, switch]
  cases cpu.isHalted with
  | true => rfl
  | false =>
      dsimp only
      rw [if_neg Bool.false_ne_true, if_neg Bool.false_ne_true]
      cases Instruction.decode? (cpu.memory.at16 cpu.registers.pc) with
      | none => rfl
      | some instruction =>
          dsimp only
          generalize (outcome instruction cpu.registers cpu.memory).stores.filter _ = lost
          have warnings : ∀ event ∈ lost.map fun store => Event.writeIgnored store.1 store.2,
              decide (event.severity ≠ .trace) = true := by
            intro event member
            obtain ⟨store, -, rfl⟩ := List.mem_map.mp member
            rfl
          rw [List.filter_append, List.filter_eq_self.mpr warnings]
          cases cpu.tracing <;> rfl

theorem Twin.congr (twin : cpu.Twin other) (change : Cpu → Cpu)
    (blind : ∀ cpu, change cpu.seen = (change cpu).seen) : (change cpu).Twin (change other) := by
  rw [Twin, ← blind, ← blind, twin]

theorem lockstep_twin : Lockstep Twin where
  state {cpu other} twin := (congrArg Cpu.state twin : cpu.seen.state = other.seen.state)
  withState twin state := twin.congr (fun cpu => { cpu with state }) fun _ => rfl
  step twin := twin.congr Cpu.step step_seen

theorem Twin.attempt (twin : cpu.Twin other) (operation : Cpu → Except MemoryError Cpu)
    (blind : ∀ cpu, operation cpu.seen = (operation cpu).map seen) :
    Beside Twin ((operation cpu).map fun _ => (), cpu.attempt (operation cpu))
      ((operation other).map fun _ => (), other.attempt (operation other)) := by
  have same : (operation cpu).map seen = (operation other).map seen := by
    rw [← blind, ← blind, twin]
  revert same
  cases operation cpu with
  | error reason =>
      cases operation other with
      | error another =>
          rintro ⟨⟩
          exact ⟨rfl, twin⟩
      | ok another => exact nofun
  | ok after =>
      cases operation other with
      | error another => exact nofun
      | ok another => exact fun same => ⟨rfl, Except.ok.inj same⟩

theorem beside_serve (twin : cpu.Twin other) {α : Type} (request : Request α) :
    Beside Twin (request.serve cpu) (request.serve other) := by
  cases request with
  | look => exact ⟨twin, twin⟩
  | reset => exact ⟨rfl, twin.congr Cpu.reset reset_seen⟩
  | load program start =>
      exact twin.attempt (·.load program start) fun cpu => cpu.load_seen program start
  | poke address value =>
      exact twin.attempt (·.poke address value) fun cpu => cpu.poke_seen address value
  | write change => exact ⟨rfl, twin.congr (·.write change) fun _ => rfl⟩
  | setTracing tracing => exact ⟨rfl, twin⟩
  | stop => exact ⟨rfl, lockstep_twin.stop twin⟩
  | step => exact ⟨rfl, lockstep_twin.step twin⟩
  | runFor limit => exact lockstep_twin.runFor limit twin

theorem respects_calling {σ : Type} {call : σ → Cpu → Option (σ × Cpu)}
    (calls : ∀ own {cpu other : Cpu}, cpu.Twin other →
      Option.Rel (Beside Twin) (call own cpu) (call own other)) :
    Respects Twin (.calling call) where
  before own _ _ _ := rfl
  after own cpu other twin := by
    dsimp only [Hook.calling]
    cases own with
    | none => exact ⟨rfl, lockstep_twin.stop twin⟩
    | some own =>
        have called := calls own twin
        dsimp only [Option.bind_some]
        generalize call own cpu = mine at called ⊢
        generalize call own other = theirs at called ⊢
        cases called with
        | none => exact ⟨rfl, lockstep_twin.stop twin⟩
        | some both => exact ⟨congrArg some both.1, both.2⟩

theorem Twin.play {α : Type} (client : Client α) (fuel : Nat) (twin : cpu.Twin other) :
    Option.Rel (Beside Twin) (client.play fuel cpu) (client.play fuel other) := by
  induction client generalizing cpu other with
  | done value => exact .some ⟨rfl, twin⟩
  | ask request next ih =>
      obtain ⟨answer, after⟩ := beside_serve twin request
      rw [Client.play, Client.play]
      dsimp only
      rw [answer]
      exact ih _ after
  | run next ih =>
      have ended := lockstep_twin.run fuel twin
      rw [Client.play, Client.play]
      generalize cpu.run fuel = mine at ended ⊢
      generalize other.run fuel = theirs at ended ⊢
      cases ended with
      | finished both => exact ih both
      | outOfFuel both => exact .none
  | runWith own hook next ihHook ihNext =>
      have respects : Respects Twin (.calling fun own cpu => (hook own).play fuel cpu) :=
        respects_calling fun own _ _ twin => ihHook own twin
      have ended := lockstep_twin.runWith respects fuel (some own) twin
      rw [Client.play, Client.play]
      generalize cpu.runWith _ fuel (some own) = mine at ended ⊢
      generalize other.runWith _ fuel (some own) = theirs at ended ⊢
      cases ended with
      | outOfFuel both => exact .none
      | finished both =>
          rename_i first second
          obtain ⟨left, after⟩ := first
          obtain ⟨leftToo, afterToo⟩ := second
          obtain ⟨rfl, both⟩ := both
          cases left with
          | none => exact .none
          | some own => exact ihNext own both

theorem reset_eq_new (size : cpu.memory.size = MemoryMap.memorySize) :
    cpu.reset = new.setTracing cpu.tracing := by
  have zeros : cpu.memory.reset = blank.memory.reset := by
    rw [Memory.reset, size]
    rfl
  rw [new, reset, zeros, reset, setTracing]

/-- Whatever was done with a machine, after a reset it is a new one but for the trace switch, also
when a hook resets it in the midst of a run. It gives a caller, whatever it does next, the same
value as a new machine and is the same at the end, again but for the switch, or both want more fuel.
The switch makes no such difference for any machine. All it does is to put lines in the log. -/
theorem reset_leaks_nothing (reached : Leads new cpu) :
    (∀ state, ({ cpu with state } : Cpu).reset = new.setTracing cpu.tracing) ∧
    (∀ (α : Type) (client : Client α) fuel,
      Option.Rel (Beside Twin) (client.play fuel cpu.reset) (client.play fuel new)) ∧
    (∀ (machine : Cpu) tracing (α : Type) (client : Client α) fuel,
      Option.Rel (Beside Twin) (client.play fuel (machine.setTracing tracing))
        (client.play fuel machine)) ∧
    ∀ machine : Cpu, (machine.setTracing false).stepEvents =
      machine.stepEvents.filter fun event => event.severity ≠ .trace := by
  have size := (reached.intact intact_new).memory.size
  refine ⟨fun _ => reset_eq_new size, ?_, ?_, stepEvents_seen⟩
  · intro α client fuel
    rw [reset_eq_new size]
    exact Twin.play client fuel (new.twin_setTracing cpu.tracing)
  · intro machine tracing α client fuel
    exact Twin.play client fuel (machine.twin_setTracing tracing)

theorem reset_leaks_nothing_of_accumulator :
    let used := (new.setTracing true).write (.a 7)
    let client : Client (UInt8 × UInt8) :=
      .ask (.write (.x 1)) fun _ => .ask .look fun cpu => .done (cpu.registers.a, cpu.registers.x)
    used.registers.a = 7 ∧ ({ used with state := .running } : Cpu).reset = new.setTracing true ∧
      ∃ after, client.play 0 used.reset = some ((0, 1), after) ∧ after.registers.x = 1 := by
  intro used client
  have reached : Leads new used := .andThen (.setTracing true) (.write (.a 7))
  obtain ⟨fresh, same, -⟩ := reset_leaks_nothing reached
  refine ⟨rfl, fresh .running, ?_⟩
  have played : client.play 0 new = some ((0, 1), new.write (.x 1)) := rfl
  have both := same _ client 0
  rw [played] at both
  generalize client.play 0 used.reset = mine at both ⊢
  cases both with
  | some both =>
      rename_i result
      obtain ⟨value, after⟩ := result
      obtain ⟨rfl, twin⟩ := both
      have registers : after.registers = (new.write (.x 1)).registers :=
        congrArg (fun cpu => cpu.registers) twin
      refine ⟨after, rfl, ?_⟩
      rw [registers]
      rfl

end Cpu

end EightBit
