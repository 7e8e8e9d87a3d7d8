import EightBit.Proofs.Cpu.Stepping

/-!
What happens inside a run that ends. It goes in rounds: an instruction is executed, and unless that
halts the machine, the hook is called once. The hook decides whether there is another round.
-/
namespace EightBit

inductive LoopEvent (σ : Type) where
  | executed (cpu : Cpu)
  | called (own : σ) (cpu : Cpu)

def Hook.recording {σ : Type} (hook : Hook σ) : Hook (σ × List (LoopEvent σ)) where
  before := fun (own, events) cpu => (hook.before own cpu, events ++ [.executed cpu])
  after := fun (own, events) cpu =>
    (((hook.after own cpu).1, events ++ [.called own cpu]), (hook.after own cpu).2)

namespace Cpu

def start (cpu : Cpu) : Cpu := if cpu.isHalted then cpu else { cpu with state := .running }

section State

variable {cpu : Cpu}

theorem step_of_isHalted (halted : cpu.isHalted = true) : cpu.step = cpu := by
  rw [step, if_pos halted]

theorem step_state_cases (cpu : Cpu) : cpu.step.state = cpu.state ∨ cpu.step.isHalted = true := by
  cases live : cpu.isHalted with
  | true =>
      rw [step_of_isHalted live]
      exact Or.inl rfl
  | false =>
      cases decoded : Instruction.decode? (cpu.memory.at16 cpu.registers.pc) with
      | none =>
          rw [step_of_unknown live decoded]
          exact Or.inr rfl
      | some instruction =>
          rw [step_of_decode live decoded]
          exact Or.inl rfl

theorem step_of_running (running : cpu.state = .running) :
    cpu.step.state = .running ↔ cpu.step.isHalted = false := by
  constructor
  · intro still
    rw [isHalted, still]
  · intro live
    cases step_state_cases cpu with
    | inl same => exact same.trans running
    | inr halted =>
        rw [live] at halted
        cases halted

end State

/-- The events of a run, from the machine it goes on with to the one it leaves. -/
inductive Rounds {σ : Type} (hook : Hook σ) : Cpu → List (LoopEvent σ) → Cpu → Prop
  | ended {cpu : Cpu} (resting : cpu.state ≠ .running) : Rounds hook cpu [] cpu
  | halting {cpu : Cpu} (running : cpu.state = .running) (halted : cpu.step.isHalted = true) :
      Rounds hook cpu [.executed cpu] cpu.step
  | going {cpu last : Cpu} {own : σ} {events : List (LoopEvent σ)}
      (running : cpu.state = .running) (live : cpu.step.isHalted = false)
      (later : Rounds hook (hook.after own cpu.step).2 events last) :
      Rounds hook cpu (.executed cpu :: .called own cpu.step :: events) last

section Rounds

variable {σ : Type} {hook : Hook σ} {cpu last : Cpu} {events : List (LoopEvent σ)} {own left : σ}

theorem Rounds.resting (rounds : Rounds hook cpu events last) : last.state ≠ .running := by
  induction rounds with
  | ended resting => exact resting
  | halting running halted => exact ne_running_of_isHalted halted
  | going running live later ih => exact ih

theorem rounds_of_loop {fuel : Nat} {seen : List (LoopEvent σ)}
    (finished : cpu.loop hook.recording fuel (own, seen) = .finished ((left, events), last)) :
    ∃ fresh, events = seen ++ fresh ∧ Rounds hook cpu fresh last := by
  induction fuel generalizing cpu own seen with
  | zero =>
      unfold loop at finished
      split at finished
      · cases finished
      · rename_i resting
        cases finished
        exact ⟨[], (List.append_nil _).symm, .ended resting⟩
  | succ fuel ih =>
      by_cases running : cpu.state = .running
      · rw [loop, if_pos running] at finished
        cases live : cpu.step.isHalted with
        | true =>
            have resting := ne_running_of_isHalted live
            simp only [Hook.recording, resting, ↓reduceIte] at finished
            cases finished
            exact ⟨_, rfl, .halting running live⟩
        | false =>
            have still := (step_of_running running).mpr live
            simp only [still, ↓reduceIte] at finished
            obtain ⟨fresh, same, rounds⟩ := ih finished
            refine ⟨_, ?_, .going running live rounds⟩
            rw [same, List.append_assoc, List.append_assoc]
            rfl
      · rw [loop_of_not_running running] at finished
        cases finished
        exact ⟨[], (List.append_nil _).symm, .ended running⟩

theorem exists_loop_recording {fuel : Nat}
    (finished : cpu.loop hook fuel own = .finished (left, last)) (seen : List (LoopEvent σ)) :
    ∃ events, cpu.loop hook.recording fuel (own, seen) = .finished ((left, events), last) := by
  induction fuel generalizing cpu own seen with
  | zero =>
      unfold loop at finished ⊢
      split at finished
      · cases finished
      · rename_i resting
        cases finished
        rw [if_neg resting]
        exact ⟨seen, rfl⟩
  | succ fuel ih =>
      by_cases running : cpu.state = .running
      · rw [loop, if_pos running] at finished ⊢
        cases live : cpu.step.isHalted with
        | true =>
            have resting := ne_running_of_isHalted live
            simp only [resting, ↓reduceIte] at finished ⊢
            cases finished
            exact ⟨_, rfl⟩
        | false =>
            have still := (step_of_running running).mpr live
            simp only [still, ↓reduceIte] at finished ⊢
            exact ih finished _
      · rw [loop_of_not_running running] at finished ⊢
        cases finished
        exact ⟨seen, rfl⟩

theorem runWith_eq_loop (hook : Hook σ) (fuel : Nat) (own : σ) (cpu : Cpu) :
    cpu.runWith hook fuel own = cpu.start.loop hook fuel own := by
  unfold runWith start
  split
  · rename_i halted
    exact (loop_of_not_running (ne_running_of_isHalted halted) fuel own).symm
  · rfl

theorem rounds_of_runWith {fuel : Nat}
    (finished : cpu.runWith hook.recording fuel (own, []) = .finished ((left, events), last)) :
    Rounds hook cpu.start events last := by
  rw [runWith_eq_loop] at finished
  obtain ⟨fresh, same, rounds⟩ := rounds_of_loop finished
  rw [List.nil_append] at same
  rwa [same]

theorem exists_runWith_recording {fuel : Nat}
    (finished : cpu.runWith hook fuel own = .finished (left, last)) :
    ∃ events, cpu.runWith hook.recording fuel (own, []) = .finished ((left, events), last) := by
  rw [runWith_eq_loop] at finished ⊢
  exact exists_loop_recording finished []

theorem Rounds.of_executed {front back : List (LoopEvent σ)} {now : Cpu}
    (rounds : Rounds hook cpu events last) (split : events = front ++ .executed now :: back) :
    now.state = .running ∧ (now.step.isHalted = true ∧ back = [] ∨
      now.step.isHalted = false ∧ ∃ own rest, back = .called own now.step :: rest) := by
  induction rounds generalizing front with
  | ended resting => simp at split
  | halting running halted =>
      cases front with
      | nil =>
          cases split
          exact ⟨running, Or.inl ⟨halted, rfl⟩⟩
      | cons first front => simp at split
  | going running live later ih =>
      match front with
      | [] =>
          cases split
          exact ⟨running, Or.inr ⟨live, _, _, rfl⟩⟩
      | [first] => simp at split
      | first :: second :: front =>
          simp only [List.cons_append, List.cons.injEq] at split
          exact ih split.2.2

/-- The hook is called with a running machine, behind an instruction, and what it leaves decides
whether there is another one. -/
theorem Rounds.of_called {front back : List (LoopEvent σ)} {seen : Cpu}
    (rounds : Rounds hook cpu events last) (split : events = front ++ .called own seen :: back) :
    seen.state = .running ∧ (∃ earlier now, front = earlier ++ [.executed now] ∧ seen = now.step) ∧
      ((hook.after own seen).2.state ≠ .running → back = [] ∧ last = (hook.after own seen).2) ∧
      ((hook.after own seen).2.state = .running →
        ∃ rest, back = .executed (hook.after own seen).2 :: rest) := by
  induction rounds generalizing front with
  | ended resting => simp at split
  | halting running halted =>
      cases front with
      | nil => simp at split
      | cons first front => simp at split
  | going running live later ih =>
      match front with
      | [] => simp at split
      | [first] =>
          simp only [List.cons_append, List.nil_append, List.cons.injEq] at split
          obtain ⟨rfl, called, rfl⟩ := split
          cases called
          refine ⟨(step_of_running running).mpr live, ⟨[], _, rfl, rfl⟩, ?_, ?_⟩
          · intro resting
            cases later with
            | ended => exact ⟨rfl, rfl⟩
            | halting running | going running => exact absurd running resting
          · intro running
            cases later with
            | ended resting => exact absurd running resting
            | halting | going => exact ⟨_, rfl⟩
      | first :: second :: front =>
          simp only [List.cons_append, List.cons.injEq] at split
          obtain ⟨rfl, rfl, rest⟩ := split
          obtain ⟨alive, ⟨earlier, now, same, stepped⟩, stops, goes⟩ := ih rest
          rw [same]
          exact ⟨alive, ⟨_ :: _ :: earlier, now, rfl, stepped⟩, stops, goes⟩

end Rounds

end Cpu

end EightBit
