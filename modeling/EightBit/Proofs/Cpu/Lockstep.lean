import EightBit.Cpu.Run

/-!
Machines that go together. A relation between two machines that no step breaks is not broken by any
run either, if the hook of the run does not break it.
-/
namespace EightBit

inductive Ran.Both {α : Type} (related : α → α → Prop) : Ran α → Ran α → Prop
  | finished {first second : α} (results : related first second) :
      Both related (.finished first) (.finished second)
  | outOfFuel {first second : α} (results : related first second) :
      Both related (.outOfFuel first) (.outOfFuel second)

theorem Ran.Both.value {α : Type} {related : α → α → Prop} {first second : Ran α}
    (both : first.Both related second) : related first.value second.value := by
  cases both with
  | finished results => exact results
  | outOfFuel results => exact results

namespace Cpu

variable {σ : Type} {hook : Hook σ} {related : Cpu → Cpu → Prop} {cpu other : Cpu}

/-- A relation between machines in the same state. A step keeps it, and so does a new state that
both get. -/
structure Lockstep (related : Cpu → Cpu → Prop) : Prop where
  state {cpu other : Cpu} : related cpu other → cpu.state = other.state
  withState {cpu other : Cpu} : related cpu other → ∀ state,
    related { cpu with state } { other with state }
  step {cpu other : Cpu} : related cpu other → related cpu.step other.step

def Beside {α : Type} (related : Cpu → Cpu → Prop) (first second : α × Cpu) : Prop :=
  first.1 = second.1 ∧ related first.2 second.2

/-- The hook does not tell machines apart that are related, and leaves them related. -/
structure Respects (related : Cpu → Cpu → Prop) (hook : Hook σ) : Prop where
  before (own : σ) {cpu other : Cpu} : related cpu other →
    hook.before own cpu = hook.before own other
  after (own : σ) {cpu other : Cpu} : related cpu other →
    Beside related (hook.after own cpu) (hook.after own other)

namespace Lockstep

variable (together : Lockstep related)

include together

theorem isHalted (start : related cpu other) : cpu.isHalted = other.isHalted := by
  rw [Cpu.isHalted, Cpu.isHalted, together.state start]

theorem stop (start : related cpu other) : related cpu.stop other.stop := by
  unfold Cpu.stop
  rw [together.state start]
  split
  · exact together.withState start .idle
  · exact start

theorem loop (respects : Respects related hook) (fuel : Nat) (own : σ)
    (start : related cpu other) :
    (cpu.loop hook fuel own).Both (Beside related) (other.loop hook fuel own) := by
  induction fuel generalizing own cpu other with
  | zero =>
      unfold Cpu.loop
      rw [together.state start]
      split
      · exact .outOfFuel ⟨rfl, start⟩
      · exact .finished ⟨rfl, start⟩
  | succ fuel ih =>
      unfold Cpu.loop
      rw [together.state start, respects.before own start]
      split
      · have stepped := together.step start
        dsimp only
        rw [together.state stepped]
        split
        · obtain ⟨left, after⟩ := respects.after (hook.before own other) stepped
          rw [left]
          exact ih _ after
        · exact .finished ⟨rfl, stepped⟩
      · exact .finished ⟨rfl, start⟩

theorem runWith (respects : Respects related hook) (fuel : Nat) (own : σ)
    (start : related cpu other) :
    (cpu.runWith hook fuel own).Both (Beside related) (other.runWith hook fuel own) := by
  unfold Cpu.runWith
  rw [together.isHalted start]
  split
  · exact .finished ⟨rfl, start⟩
  · exact together.loop respects fuel own (together.withState start .running)

theorem run (fuel : Nat) (start : related cpu other) :
    (cpu.run fuel).Both related (other.run fuel) := by
  have respects : Respects related (⟨fun _ _ => (), fun _ cpu => ((), cpu)⟩ : Hook Unit) :=
    ⟨fun _ _ _ _ => rfl, fun _ _ _ start => ⟨rfl, start⟩⟩
  have ended := together.runWith respects fuel () start
  unfold Cpu.run
  generalize cpu.runWith _ fuel () = mine at ended ⊢
  generalize other.runWith _ fuel () = theirs at ended ⊢
  cases ended with
  | finished results => exact .finished results.2
  | outOfFuel results => exact .outOfFuel results.2

theorem respects_countingHook {watch : σ → Cpu → σ}
    (watches : ∀ own {cpu other : Cpu}, related cpu other → watch own cpu = watch own other)
    (limit : Nat) : Respects related (countingHook watch limit) where
  before own _ _ start := by simp only [countingHook, watches _ start]
  after own cpu other start := by
    refine ⟨rfl, ?_⟩
    simp only [countingHook]
    split
    · exact together.stop start
    · exact start

theorem runForWatching {watch : σ → Cpu → σ}
    (watches : ∀ own {cpu other : Cpu}, related cpu other → watch own cpu = watch own other)
    (own : σ) (limit : Nat) (start : related cpu other) :
    (cpu.runForWatching watch own limit).1 = (other.runForWatching watch own limit).1 ∧
      Beside related (cpu.runForWatching watch own limit).2
        (other.runForWatching watch own limit).2 := by
  unfold Cpu.runForWatching
  rw [together.isHalted start]
  split
  · exact ⟨rfl, rfl, start⟩
  · obtain ⟨left, after⟩ :=
      (together.runWith (together.respects_countingHook watches limit) limit (own, 0) start).value
    generalize (cpu.runWith (countingHook watch limit) limit (own, 0)).value = mine at left after ⊢
    generalize (other.runWith (countingHook watch limit) limit (own, 0)).value = theirs
      at left after ⊢
    obtain ⟨⟨seen, count⟩, ended⟩ := mine
    obtain ⟨⟨_, _⟩, endedToo⟩ := theirs
    cases left
    have halted : ended.isHalted = endedToo.isHalted := together.isHalted after
    refine ⟨rfl, ?_, after⟩
    dsimp only
    rw [halted]

theorem runFor (limit : Nat) (start : related cpu other) :
    Beside related (cpu.runFor limit) (other.runFor limit) :=
  (together.runForWatching (fun _ _ _ _ => rfl) () limit start).2

end Lockstep

end Cpu

end EightBit
