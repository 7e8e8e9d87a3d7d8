import Mathlib.Tactic.Choose
import EightBit.Proofs.Cpu.Invariant
import EightBit.Proofs.Cpu.Rounds

namespace EightBit

inductive Turn where
  | reset
  | load (program : List UInt8) (start : UInt16)
  | poke (address : UInt16) (value : UInt8)
  | write (change : RegisterWrite)
  | setTracing (tracing : Bool)
  | stop
  | step
  | start

/-- Callers do not start a machine themselves: a run does. -/
def Turn.isOperation : Turn → Bool
  | start => false
  | _ => true

namespace Cpu

def take (cpu : Cpu) : Turn → Cpu
  | .reset => cpu.reset
  | .load program start => cpu.attempt (cpu.load program start)
  | .poke address value => cpu.attempt (cpu.poke address value)
  | .write change => cpu.write change
  | .setTracing tracing => cpu.setTracing tracing
  | .stop => cpu.stop
  | .step => cpu.step
  | .start => cpu.start

def replay (cpu : Cpu) (turns : List Turn) : Cpu := turns.foldl take cpu

section Turns

variable {cpu : Cpu} {turn : Turn}

theorem replay_append (front back : List Turn) :
    cpu.replay (front ++ back) = (cpu.replay front).replay back :=
  List.foldl_append

theorem exists_attempt_load (cpu : Cpu) (program : List UInt8) (start : UInt16) :
    ∃ memory, cpu.attempt (cpu.load program start) = { cpu with memory } := by
  unfold load
  split
  · exact ⟨cpu.memory, rfl⟩
  · cases cpu.memory.load program start.toNat with
    | error => exact ⟨cpu.memory, rfl⟩
    | ok memory => exact ⟨memory, rfl⟩

theorem exists_attempt_poke (cpu : Cpu) (address : UInt16) (value : UInt8) :
    ∃ memory, cpu.attempt (cpu.poke address value) = { cpu with memory } := by
  unfold poke
  split
  · exact ⟨cpu.memory, rfl⟩
  · cases cpu.memory.write address.toNat value.toUInt16 with
    | error => exact ⟨cpu.memory, rfl⟩
    | ok memory => exact ⟨memory, rfl⟩

theorem state_load (program : List UInt8) (start : UInt16) :
    (cpu.attempt (cpu.load program start)).state = cpu.state := by
  obtain ⟨memory, loaded⟩ := cpu.exists_attempt_load program start
  rw [loaded]

theorem state_poke (address : UInt16) (value : UInt8) :
    (cpu.attempt (cpu.poke address value)).state = cpu.state := by
  obtain ⟨memory, poked⟩ := cpu.exists_attempt_poke address value
  rw [poked]

theorem stop_of_isHalted (halted : cpu.isHalted = true) : cpu.stop = cpu :=
  if_neg (ne_running_of_isHalted halted)

theorem start_of_isHalted (halted : cpu.isHalted = true) : cpu.start = cpu := if_pos halted

theorem state_take_of_isHalted (halted : cpu.isHalted = true) :
    turn = .reset ∨ (cpu.take turn).state = cpu.state := by
  cases turn with
  | reset => exact Or.inl rfl
  | load program start => exact Or.inr (state_load program start)
  | poke address value => exact Or.inr (state_poke address value)
  | write change => exact Or.inr rfl
  | setTracing tracing => exact Or.inr rfl
  | stop => exact Or.inr (congrArg Cpu.state (stop_of_isHalted halted))
  | step => exact Or.inr (congrArg Cpu.state (step_of_isHalted halted))
  | start => exact Or.inr (congrArg Cpu.state (start_of_isHalted halted))

/-- One machine halts at an opcode that stands for nothing, and this is what it leaves: memory and
registers as they were, except that the program counter is behind the opcode. -/
structure HaltsAt (cpu : Cpu) (opcode : UInt8) (address : UInt16) (after : Cpu) : Prop where
  address_eq : address = cpu.registers.pc
  opcode_eq : opcode = cpu.memory.at16 address
  unknown : Instruction.decode? opcode = none
  state_eq : after.state = .halted (.unknownOpcode opcode address)
  memory_eq : after.memory = cpu.memory
  registers_eq : after.registers = { cpu.registers with pc := address + 1 }

theorem halts_of_step (live : cpu.isHalted = false) (halted : cpu.step.isHalted = true) :
    ∃ opcode address, cpu.HaltsAt opcode address cpu.step := by
  cases decoded : Instruction.decode? (cpu.memory.at16 cpu.registers.pc) with
  | none =>
      rw [step_of_unknown live decoded]
      exact ⟨_, _, rfl, rfl, decoded, rfl, rfl, rfl⟩
  | some instruction =>
      rw [step_of_decode live decoded] at halted
      have same : (cpu.conclude instruction
          (outcome instruction cpu.registers cpu.memory)).isHalted = cpu.isHalted := rfl
      rw [same, live] at halted
      cases halted

theorem isHalted_congr {other : Cpu} (same : other.state = cpu.state) :
    other.isHalted = cpu.isHalted := by
  unfold isHalted
  rw [same]

theorem halts_of_take (live : cpu.isHalted = false) (halted : (cpu.take turn).isHalted = true) :
    turn = .step ∧ ∃ opcode address, cpu.HaltsAt opcode address (cpu.take turn) := by
  have kept (same : (cpu.take turn).state = cpu.state) : False := by
    rw [isHalted_congr same, live] at halted
    cases halted
  cases turn with
  | step => exact ⟨rfl, halts_of_step live halted⟩
  | reset => cases halted
  | load program start => exact (kept (state_load program start)).elim
  | poke address value => exact (kept (state_poke address value)).elim
  | write change => exact (kept rfl).elim
  | setTracing tracing => exact (kept rfl).elim
  | stop =>
      by_cases running : cpu.state = .running
      · simp [take, stop, running, isHalted] at halted
      · exact (kept (congrArg Cpu.state (if_neg running))).elim
  | start =>
      have started : cpu.start = { cpu with state := .running } :=
        if_neg (ne_true_of_eq_false live)
      rw [take, started] at halted
      cases halted

end Turns

end Cpu

def LoopEvent.turns {σ : Type} (deeds : σ → Cpu → List Turn) : LoopEvent σ → List Turn
  | executed _ => [.step]
  | called own cpu => deeds own cpu

namespace Cpu

/-- A finite sequence of operations leads from one machine to another, by these turns. A run counts
if it ends, and its hook may do anything in the calls that happen, as long as it is a sequence of
operations again. -/
inductive History : Cpu → List Turn → Cpu → Prop
  | none {cpu : Cpu} : History cpu [] cpu
  | andThen {first second third : Cpu} {early late : List Turn}
      (before : History first early second) (after : History second late third) :
      History first (early ++ late) third
  | operation {cpu : Cpu} (turn : Turn) (offered : turn.isOperation = true) :
      History cpu [turn] (cpu.take turn)
  | runWith {σ : Type} {hook : Hook σ} {cpu after : Cpu} {fuel : Nat} {own left : σ}
      {events : List (LoopEvent σ)} (deeds : σ → Cpu → List Turn)
      (finished : cpu.runWith hook.recording fuel (own, []) = .finished ((left, events), after))
      (calls : ∀ own seen, .called own seen ∈ events →
        History seen (deeds own seen) (hook.after own seen).2) :
      History cpu (.start :: events.flatMap (LoopEvent.turns deeds)) after

section History

variable {cpu after : Cpu} {turns : List Turn}

theorem Rounds.replay {σ : Type} {hook : Hook σ} {events : List (LoopEvent σ)}
    (rounds : Rounds hook cpu events after) (deeds : σ → Cpu → List Turn)
    (calls : ∀ own seen, .called own seen ∈ events →
      (hook.after own seen).2 = seen.replay (deeds own seen)) :
    after = cpu.replay (events.flatMap (LoopEvent.turns deeds)) := by
  induction rounds with
  | ended resting => rfl
  | halting running halted => rfl
  | going running live later ih =>
      rename_i own events
      have now := calls own _ (List.mem_cons_of_mem _ List.mem_cons_self)
      have rest := ih fun own seen member =>
        calls own seen (List.mem_cons_of_mem _ (List.mem_cons_of_mem _ member))
      rw [rest, now, ← replay_append]
      rfl

theorem History.replay (history : History cpu turns after) : after = cpu.replay turns := by
  induction history with
  | none => rfl
  | andThen before later ihBefore ihLater => rw [replay_append, ← ihBefore, ← ihLater]
  | operation turn offered => rfl
  | runWith deeds finished calls ih => exact (rounds_of_runWith finished).replay deeds ih

theorem take_resting {turn : Turn} (offered : turn.isOperation = true) (resting : cpu.state ≠ .running) :
    (cpu.take turn).state ≠ .running := by
  cases turn with
  | start => cases offered
  | reset => exact nofun
  | load program start => rwa [take, state_load]
  | poke address value => rwa [take, state_poke]
  | write change => exact resting
  | setTracing tracing => exact resting
  | stop =>
      rw [take, stop, if_neg resting]
      exact resting
  | step => exact step_resting resting

theorem History.resting (history : History cpu turns after) (resting : cpu.state ≠ .running) :
    after.state ≠ .running := by
  induction history with
  | none => exact resting
  | andThen before later ihBefore ihLater => exact ihLater (ihBefore resting)
  | operation turn offered => exact take_resting offered resting
  | runWith deeds finished calls ih => exact (rounds_of_runWith finished).resting

theorem History.of_runWith {σ : Type} {hook : Hook σ} {fuel : Nat} {own left : σ}
    (finished : cpu.runWith hook fuel own = .finished (left, after))
    (calls : ∀ own seen, ∃ turns, History seen turns (hook.after own seen).2) :
    ∃ turns, History cpu turns after := by
  obtain ⟨events, recorded⟩ := exists_runWith_recording finished
  choose deeds made using calls
  exact ⟨_, .runWith deeds recorded fun own seen _ => made own seen⟩

theorem exists_finished_counting {σ : Type} (watch : σ → Cpu → σ) {limit : Nat}
    (live : cpu.isHalted = false) (some : 0 < limit) (own : σ) :
    ∃ left after, cpu.runWith (countingHook watch limit) limit (own, 0) =
      .finished (left, after) := by
  -- the loop makes the machine run, so what it did before does not matter
  have idle : ({ cpu with state := .idle } : Cpu).state = .idle := rfl
  obtain ⟨after, counted, taken, -, finished, -⟩ :=
    loop_counting watch idle own some (Nat.le_add_left limit 0)
  rw [runWith, if_neg (ne_true_of_eq_false live)]
  exact ⟨_, _, finished⟩

theorem History.of_runFor (cpu : Cpu) (limit : Nat) :
    ∃ turns, History cpu turns (cpu.runFor limit).2 := by
  by_cases nothing : limit = 0 ∨ cpu.isHalted = true
  · rw [runFor, runForWatching, if_pos nothing]
    exact ⟨[], .none⟩
  · have live := eq_false_of_ne_true fun halted => nothing (Or.inr halted)
    have some := Nat.pos_of_ne_zero fun zero => nothing (Or.inl zero)
    obtain ⟨left, after, finished⟩ := exists_finished_counting (fun _ _ => ()) live some ()
    have same : (cpu.runFor limit).2 = after := by
      rw [runFor, runForWatching, if_neg nothing, finished]
      rfl
    rw [same]
    apply of_runWith finished
    intro own seen
    by_cases last : limit ≤ own.2 + 1
    · rw [countingHook_after_last last]
      exact ⟨_, .operation .stop rfl⟩
    · rw [countingHook_after_early (Nat.lt_of_not_le last)]
      exact ⟨_, .none⟩

theorem History.of_run {fuel : Nat} (finished : cpu.run fuel = .finished after) :
    ∃ turns, History cpu turns after := by
  unfold run at finished
  split at finished
  · rename_i ended
    cases finished
    exact of_runWith ended fun _ _ => ⟨_, .none⟩
  · cases finished

theorem Leads.history (leads : Leads cpu after) : ∃ turns, History cpu turns after := by
  induction leads with
  | none => exact ⟨_, .none⟩
  | andThen early late ihEarly ihLate =>
      obtain ⟨front, before⟩ := ihEarly
      obtain ⟨back, later⟩ := ihLate
      exact ⟨_, .andThen before later⟩
  | reset => exact ⟨_, .operation .reset rfl⟩
  | load program start => exact ⟨_, .operation (.load program start) rfl⟩
  | poke address value => exact ⟨_, .operation (.poke address value) rfl⟩
  | write change => exact ⟨_, .operation (.write change) rfl⟩
  | setTracing tracing => exact ⟨_, .operation (.setTracing tracing) rfl⟩
  | stop => exact ⟨_, .operation .stop rfl⟩
  | step => exact ⟨_, .operation .step rfl⟩
  | runFor limit => exact History.of_runFor _ limit
  | run finished => exact History.of_run finished
  | runWith calls finished ih => exact History.of_runWith finished ih

theorem runWith_of_isHalted {σ : Type} (halted : cpu.isHalted = true) (hook : Hook σ) (fuel : Nat)
    (own : σ) : cpu.runWith hook fuel own = .finished (own, cpu) :=
  if_pos halted

theorem run_of_isHalted (halted : cpu.isHalted = true) (fuel : Nat) :
    cpu.run fuel = .finished cpu := by
  rw [run, runWith_of_isHalted halted]

theorem runFor_of_isHalted (halted : cpu.isHalted = true) (limit : Nat) :
    cpu.runFor limit = (0, cpu) := by
  rw [runFor, runForWatching, if_pos (Or.inr halted)]

/-- Whatever a caller does with a new machine, it is at rest between operations. All that is done
to it on the way, also by hooks, is known by its turns: only a reset takes it out of a halt, and
only a step at an unknown opcode halts it. A halted machine does nothing at all. In a run that ends,
the hook is called once behind every instruction that does not halt, with a running machine, and
only a machine that it leaves running goes on. -/
theorem life_cycle (history : History new turns cpu) :
    (cpu.state = .idle ∨ cpu.isHalted = true) ∧
    (∀ first last, Leads first last → ∃ others, History first others last) ∧
    cpu = new.replay turns ∧
    (∀ front turn back, turns = front ++ turn :: back →
      let before := new.replay front
      let after := before.take turn
      (before.isHalted = true → turn = .reset ∨ after.state = before.state) ∧
      (before.isHalted = false → after.isHalted = true →
        turn = .step ∧ ∃ opcode address, before.HaltsAt opcode address after)) ∧
    (∀ halted : Cpu, halted.isHalted = true →
      halted.step = halted ∧ halted.stop = halted ∧
      (∀ limit, halted.runFor limit = (0, halted)) ∧
      (∀ fuel, halted.run fuel = .finished halted) ∧
      ∀ (σ : Type) (hook : Hook σ) fuel own,
        halted.runWith hook fuel own = .finished (own, halted)) ∧
    ∀ (σ : Type) (hook : Hook σ) fuel own left (first last : Cpu),
      first.runWith hook fuel own = .finished (left, last) →
      ∃ events : List (LoopEvent σ),
        first.runWith hook.recording fuel (own, []) = .finished ((left, events), last) ∧
        (∀ (front back : List (LoopEvent σ)) (now : Cpu), events = front ++ .executed now :: back →
          now.state = .running ∧ (now.step.isHalted = true ∧ back = [] ∨
            now.step.isHalted = false ∧ ∃ own rest, back = .called own now.step :: rest)) ∧
        ∀ (front back : List (LoopEvent σ)) (own : σ) (seen : Cpu),
          events = front ++ .called own seen :: back →
          seen.state = .running ∧
          (∃ (earlier : List (LoopEvent σ)) (now : Cpu),
            front = earlier ++ [.executed now] ∧ seen = now.step) ∧
          ((hook.after own seen).2.state ≠ .running →
            back = [] ∧ last = (hook.after own seen).2) ∧
          ((hook.after own seen).2.state = .running →
            ∃ rest, back = .executed (hook.after own seen).2 :: rest) := by
  refine ⟨?_, fun first last => Leads.history, history.replay, ?_, ?_, ?_⟩
  · exact idle_or_halted (history.resting nofun)
  · intro front turn back split before after
    exact ⟨state_take_of_isHalted, halts_of_take⟩
  · intro cpu halted
    exact ⟨step_of_isHalted halted, stop_of_isHalted halted, runFor_of_isHalted halted,
      run_of_isHalted halted, fun σ => runWith_of_isHalted halted⟩
  · intro σ hook fuel own left first last finished
    obtain ⟨events, recorded⟩ := exists_runWith_recording finished
    have rounds := rounds_of_runWith recorded
    exact ⟨events, recorded, fun front back now => rounds.of_executed,
      fun front back own seen => rounds.of_called⟩

theorem take_load_write (idle : cpu.state = .idle) (size : cpu.memory.size = 0x10000) :
    let ready := (cpu.take (.load [0xE8, 0x02] 0x0200)).take (.write (.pc 0x0200))
    ready.state = .idle ∧ ready.registers.pc = 0x0200 ∧ ready.memory.at16 0x0200 = 0xE8 ∧
      ready.memory.at16 (0x0200 + 1) = 0x02 := by
  have fits : 0x0200 + [(0xE8 : UInt8), 0x02].length ≤ cpu.memory.size := by
    rw [size]
    decide
  have loaded : cpu.load [0xE8, 0x02] 0x0200 =
      .ok { cpu with memory := cpu.memory.storeAll 0x0200 [0xE8, 0x02] } := by
    have place : (0x0200 : UInt16).toNat = 0x0200 := rfl
    rw [load, if_neg (by decide), place, Memory.load_of_fits _ fits]
    rfl
  have first : (cpu.memory.storeAll 0x0200 [0xE8, 0x02]).at16 0x0200 = 0xE8 := by
    rw [Memory.at16, Memory.byte_storeAll _ fits, if_pos (by decide)]
    decide
  have second : (cpu.memory.storeAll 0x0200 [0xE8, 0x02]).at16 (0x0200 + 1) = 0x02 := by
    rw [Memory.at16, Memory.byte_storeAll _ fits, if_pos (by decide)]
    decide
  simp only [take, loaded, attempt, write, RegisterWrite.apply, idle, first, second, and_self]

theorem halts_behind_increment (idle : cpu.state = .idle)
    (first : cpu.memory.at16 cpu.registers.pc = 0xE8)
    (second : cpu.memory.at16 (cpu.registers.pc + 1) = 0x02) :
    cpu.step.isHalted = false ∧ ({ cpu.step with state := .running } : Cpu).step.stop.state =
      .halted (.unknownOpcode 0x02 (cpu.registers.pc + 1)) := by
  have live := isHalted_eq_false_of_idle idle
  have decoded : Instruction.decode? (cpu.memory.at16 cpu.registers.pc) =
      some ⟨0xE8, .inx, .implied, 2⟩ := by
    rw [first]
    decide
  have moved : cpu.step.registers.pc = cpu.registers.pc + 1 := by
    rw [step_of_decode live decoded]
    rfl
  have kept : cpu.step.memory = cpu.memory := by
    rw [step_of_decode live decoded]
    rfl
  have going : cpu.step.isHalted = false := by
    rw [step_of_decode live decoded]
    exact live
  have opcode : cpu.step.memory.at16 cpu.step.registers.pc = 0x02 := by rw [kept, moved, second]
  have unknown : Instruction.decode? (cpu.step.memory.at16 cpu.step.registers.pc) = none := by
    rw [opcode]
    decide
  have alive : ({ cpu.step with state := .running } : Cpu).isHalted = false := rfl
  have halting := step_of_unknown alive unknown
  refine ⟨going, ?_⟩
  rw [halting, stop_of_isHalted rfl, ← opcode, ← moved]
  rfl

/-- The hook steps as well, and its step halts the machine inside the run. -/
theorem life_cycle_halted_by_hook :
    let ready := (new.take (.load [0xE8, 0x02] 0x0200)).take (.write (.pc 0x0200))
    let turns : List Turn :=
      [.load [0xE8, 0x02] 0x0200, .write (.pc 0x0200), .start, .step, .step, .stop]
    let hook : Hook Unit := ⟨fun _ _ => (), fun _ cpu => ((), cpu.step.stop)⟩
    ∃ cpu, ready.runWith hook 1 () = .finished ((), cpu) ∧ History new turns cpu ∧
      cpu = new.replay turns ∧ cpu.state = .halted (.unknownOpcode 0x02 0x0201) ∧
      cpu.runFor 5 = (0, cpu) := by
  intro ready turns hook
  have start : History new [.load [0xE8, 0x02] 0x0200, .write (.pc 0x0200)] ready :=
    .andThen (.operation (.load [0xE8, 0x02] 0x0200) rfl)
      (.operation (.write (.pc 0x0200)) rfl)
  have facts := take_load_write rfl intact_new.memory.size
  change ready.state = .idle ∧ ready.registers.pc = 0x0200 ∧ ready.memory.at16 0x0200 = 0xE8 ∧
    ready.memory.at16 (0x0200 + 1) = 0x02 at facts
  clear_value ready
  obtain ⟨idle, pc, first, second⟩ := facts
  rw [← pc] at first second
  obtain ⟨going, halted⟩ := halts_behind_increment idle first second
  have finished (σ : Type) (hook : Hook σ) (own : σ)
      (stops : ∀ own cpu, (hook.after own cpu).2 = cpu.step.stop) :
      ready.runWith hook 1 own = .finished
        (hook.after (hook.before own { ready with state := .running })
          { ready.step with state := .running }) := by
    rw [runWith, if_neg (ne_true_of_eq_false (isHalted_eq_false_of_idle idle)),
      loop_of_going idle going rfl]
    apply loop_of_not_running
    rw [stops, halted]
    simp
  have calls (own : Unit) (cpu : Cpu) : History cpu [.step, .stop] (hook.after own cpu).2 :=
    .andThen (.operation .step rfl) (.operation .stop rfl)
  have history : History new turns _ :=
    .andThen start (.runWith (fun _ _ => [.step, .stop])
      (finished _ hook.recording ((), []) fun _ _ => rfl) fun own cpu _ => calls own cpu)
  obtain ⟨-, -, replayed, -, stays, -⟩ := life_cycle history
  obtain ⟨-, -, counts, -⟩ := stays _ (by rw [isHalted, halted])
  rw [pc] at halted
  exact ⟨_, finished _ hook () fun _ _ => rfl, history, replayed, halted, counts 5⟩

end History

end Cpu

end EightBit
