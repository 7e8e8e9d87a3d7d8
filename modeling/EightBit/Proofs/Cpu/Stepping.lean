import Mathlib.Logic.Function.Iterate
import EightBit.Cpu.Run

namespace EightBit.Cpu

/-- `count` is the least number of steps, of at most `limit`, behind which the machine is halted;
it is `limit` if there is none. -/
structure StepsTo (cpu : Cpu) (limit count : Nat) : Prop where
  le : count ≤ limit
  live {fewer : Nat} (less : fewer < count) : (step^[fewer] cpu).isHalted = false
  halted (less : count < limit) : (step^[count] cpu).isHalted = true

section Steps

variable {cpu : Cpu}

theorem StepsTo.of_isHalted (halted : cpu.isHalted = true) (limit : Nat) : cpu.StepsTo limit 0 where
  le := Nat.zero_le _
  live less := absurd less (Nat.not_lt_zero _)
  halted _ := halted

theorem StepsTo.zero (cpu : Cpu) : cpu.StepsTo 0 0 where
  le := Nat.le_refl _
  live less := absurd less (Nat.not_lt_zero _)
  halted less := absurd less (Nat.not_lt_zero _)

theorem StepsTo.succ {limit count : Nat} (live : cpu.isHalted = false)
    (later : cpu.step.StepsTo limit count) : cpu.StepsTo (limit + 1) (count + 1) where
  le := Nat.succ_le_succ later.le
  live {fewer} less := by
    cases fewer with
    | zero => exact live
    | succ fewer =>
        rw [Function.iterate_succ_apply]
        exact later.live (Nat.lt_of_succ_lt_succ less)
  halted less := by
    rw [Function.iterate_succ_apply]
    exact later.halted (Nat.lt_of_succ_lt_succ less)

theorem StepsTo.unique {limit count other : Nat} (first : cpu.StepsTo limit count)
    (second : cpu.StepsTo limit other) : other = count := by
  apply Nat.le_antisymm
  · apply Nat.le_of_not_lt
    intro less
    have halted := first.halted (Nat.lt_of_lt_of_le less second.le)
    exact Bool.false_ne_true ((second.live less).symm.trans halted)
  · apply Nat.le_of_not_lt
    intro less
    have halted := second.halted (Nat.lt_of_lt_of_le less first.le)
    exact Bool.false_ne_true ((first.live less).symm.trans halted)

theorem StepsTo.add {limit more count further : Nat} (first : cpu.StepsTo limit count)
    (second : (step^[count] cpu).StepsTo more further) :
    cpu.StepsTo (limit + more) (further + count) where
  le := by
    have early := first.le
    have late := second.le
    omega
  live {fewer} less := by
    rcases Nat.lt_or_ge fewer count with early | late
    · exact first.live early
    · have inside : fewer - count < further := by omega
      have split : fewer = fewer - count + count := by omega
      rw [split, Function.iterate_add_apply]
      exact second.live inside
  halted less := by
    rw [Function.iterate_add_apply]
    rcases Nat.lt_or_ge further more with open_ | closed
    · exact second.halted open_
    · -- the second limit is used up, so the first was not, and nothing was left to do
      have early : count < limit := by omega
      have halted := first.halted early
      have none : further = 0 := by
        apply Nat.eq_zero_of_not_pos
        intro some
        exact Bool.false_ne_true ((second.live some).symm.trans halted)
      rw [none]
      exact halted

theorem StepsTo.halted_of_halted {limit count enough : Nat} (steps : cpu.StepsTo limit count)
    (halted : (step^[enough] cpu).isHalted = true) (within : enough ≤ limit) :
    count ≤ enough ∧ (step^[count] cpu).isHalted = true := by
  have least : count ≤ enough := by
    apply Nat.le_of_not_lt
    intro less
    exact Bool.false_ne_true ((steps.live less).symm.trans halted)
  refine ⟨least, ?_⟩
  rcases Nat.lt_or_ge count limit with less | all
  · exact steps.halted less
  · have same : count = enough := by omega
    rw [same]
    exact halted

end Steps

section State

variable {cpu : Cpu}

theorem isHalted_eq_false_of_idle (idle : cpu.state = .idle) : cpu.isHalted = false := by
  rw [isHalted, idle]

theorem idle_of_live (resting : cpu.state ≠ .running) (live : cpu.isHalted = false) :
    cpu.state = .idle := by
  unfold isHalted at live
  cases state : cpu.state with
  | idle => rfl
  | running => exact absurd state resting
  | halted reason => simp [state] at live

theorem ne_running_of_isHalted (halted : cpu.isHalted = true) : cpu.state ≠ .running := by
  intro running
  simp [isHalted, running] at halted

theorem step_withState (live : cpu.isHalted = false) (state : CpuState)
    (alive : ({ cpu with state } : Cpu).isHalted = false) :
    ({ cpu with state } : Cpu).step =
      if cpu.step.isHalted then cpu.step else { cpu.step with state } := by
  cases decoded : Instruction.decode? (cpu.memory.at16 cpu.registers.pc) with
  | none =>
      rw [step_of_unknown live decoded, step_of_unknown alive decoded]
      rfl
  | some instruction =>
      have same : (cpu.conclude instruction
          (outcome instruction cpu.registers cpu.memory)).isHalted = cpu.isHalted := rfl
      rw [step_of_decode live decoded, step_of_decode alive decoded, same, live]
      rfl

theorem step_resting (resting : cpu.state ≠ .running) : cpu.step.state ≠ .running := by
  unfold step
  split
  · exact resting
  · dsimp only
    split
    · exact nofun
    · exact resting

theorem iterate_resting (resting : cpu.state ≠ .running) (count : Nat) :
    (step^[count] cpu).state ≠ .running := by
  induction count generalizing cpu with
  | zero => exact resting
  | succ count ih => exact ih (step_resting resting)

theorem idle_or_halted (resting : cpu.state ≠ .running) :
    cpu.state = .idle ∨ cpu.isHalted = true := by
  cases live : cpu.isHalted with
  | false => exact Or.inl (idle_of_live resting live)
  | true => exact Or.inr rfl

end State

section Loop

variable {σ : Type} {hook : Hook σ} {cpu : Cpu}

theorem loop_of_not_running (resting : cpu.state ≠ .running) (fuel : Nat) (own : σ) :
    cpu.loop hook fuel own = .finished (own, cpu) := by
  cases fuel <;> exact if_neg resting

theorem loop_of_halting (idle : cpu.state = .idle) (halted : cpu.step.isHalted = true)
    (fuel : Nat) (own : σ) :
    ({ cpu with state := .running } : Cpu).loop hook (fuel + 1) own =
      .finished (hook.before own { cpu with state := .running }, cpu.step) := by
  have step := step_withState (isHalted_eq_false_of_idle idle) .running rfl
  rw [halted, if_pos rfl] at step
  rw [loop, if_pos rfl, step]
  exact if_neg (ne_running_of_isHalted halted)

theorem loop_of_going {own next : σ} {after : Cpu} (idle : cpu.state = .idle)
    (going : cpu.step.isHalted = false)
    (called : hook.after (hook.before own { cpu with state := .running })
      { cpu.step with state := .running } = (next, after)) (fuel : Nat) :
    ({ cpu with state := .running } : Cpu).loop hook (fuel + 1) own =
      after.loop hook fuel next := by
  have step := step_withState (isHalted_eq_false_of_idle idle) .running rfl
  rw [going, if_neg Bool.false_ne_true] at step
  rw [loop, if_pos rfl, step]
  simp only [↓reduceIte, called]

theorem countingHook_after_last {watch : σ → Cpu → σ} {limit count : Nat}
    (last : limit ≤ count + 1) (own : σ) :
    (countingHook watch limit).after (own, count) cpu = ((own, count + 1), cpu.stop) := by
  simp only [countingHook, last, ↓reduceIte]

theorem countingHook_after_early {watch : σ → Cpu → σ} {limit count : Nat}
    (early : count + 1 < limit) (own : σ) :
    (countingHook watch limit).after (own, count) cpu = ((own, count + 1), cpu) := by
  simp only [countingHook, Nat.not_le_of_lt early, ↓reduceIte]

/-- The counting loop makes the steps of the machine. It does not count a step that halts. -/
theorem loop_counting (watch : σ → Cpu → σ) {limit count fuel : Nat} (idle : cpu.state = .idle)
    (own : σ) (room : count < limit) (enough : limit ≤ count + fuel) :
    ∃ after counted taken, cpu.StepsTo (limit - count) taken ∧
      ({ cpu with state := .running } : Cpu).loop (countingHook watch limit) fuel (own, count) =
        .finished ((after, counted), step^[taken] cpu) ∧
      (if (step^[taken] cpu).isHalted then counted + 1 else counted) = count + taken := by
  induction fuel generalizing cpu count own with
  | zero => omega
  | succ fuel ih =>
      let seen := watch own { cpu with state := .running }
      have live := isHalted_eq_false_of_idle idle
      have resting := step_resting (by simp [idle] : cpu.state ≠ .running)
      have less : limit - count = limit - (count + 1) + 1 := by omega
      rw [less]
      cases halted : cpu.step.isHalted with
      | true =>
          refine ⟨seen, count, 1, .succ live (.of_isHalted halted _), ?_, if_pos halted⟩
          exact loop_of_halting idle halted fuel _
      | false =>
          have next := idle_of_live resting halted
          rcases Nat.lt_or_ge (count + 1) limit with early | last
          · obtain ⟨after, counted, taken, steps, ended, total⟩ := ih next seen early (by omega)
            refine ⟨after, counted, taken + 1, .succ live steps, ?_, ?_⟩
            · rw [loop_of_going idle halted (countingHook_after_early early seen)]
              exact ended
            · rw [Function.iterate_succ_apply, total]
              omega
          · have none : limit - (count + 1) = 0 := by omega
            have stopped : ({ cpu.step with state := .running } : Cpu).stop = cpu.step := by
              rw [stop, if_pos rfl, ← next]
            refine ⟨seen, count + 1, 1, ?_, ?_, if_neg (ne_true_of_eq_false halted)⟩
            · rw [none]
              exact .succ live (.zero _)
            · rw [loop_of_going idle halted (countingHook_after_last last seen), stopped]
              exact loop_of_not_running resting fuel _

theorem loop_to_halt (hook : Hook σ) {count fuel : Nat}
    (pass : ∀ own cpu, hook.after own cpu = (own, cpu)) (idle : cpu.state = .idle) (own : σ)
    (live : ∀ fewer < count, (step^[fewer] cpu).isHalted = false)
    (halted : (step^[count] cpu).isHalted = true) (enough : count ≤ fuel) :
    ∃ after, ({ cpu with state := .running } : Cpu).loop hook fuel own =
      .finished (after, step^[count] cpu) := by
  induction count generalizing cpu fuel own with
  | zero => exact absurd halted (ne_true_of_eq_false (isHalted_eq_false_of_idle idle))
  | succ count ih =>
      have resting := step_resting (by simp [idle] : cpu.state ≠ .running)
      obtain ⟨rest, rfl⟩ : ∃ rest, fuel = rest + 1 := ⟨fuel - 1, by omega⟩
      cases now : cpu.step.isHalted with
      | true =>
          have done : count = 0 := by
            apply Nat.eq_zero_of_not_pos
            intro more
            exact Bool.false_ne_true ((live 1 (by omega)).symm.trans now)
          rw [loop_of_halting idle now, done]
          exact ⟨_, rfl⟩
      | false =>
          have later (fewer : Nat) (less : fewer < count) :
              (step^[fewer] cpu.step).isHalted = false := by
            rw [← Function.iterate_succ_apply]
            exact live (fewer + 1) (by omega)
          rw [loop_of_going idle now (pass _ _), Function.iterate_succ_apply]
          exact ih (idle_of_live resting now) _ later halted (by omega)

end Loop

section Run

variable {cpu : Cpu}

theorem runWith_counting {limit fuel : Nat} (live : cpu.isHalted = false)
    (resting : cpu.state ≠ .running) (some : 0 < limit) (enough : limit ≤ fuel) :
    ∃ counted taken, cpu.StepsTo limit taken ∧
      cpu.runWith (countingHook (fun _ _ => ()) limit) fuel ((), 0) =
        .finished (((), counted), step^[taken] cpu) ∧
      (if (step^[taken] cpu).isHalted then counted + 1 else counted) = taken := by
  obtain ⟨_, counted, taken, steps, ended, total⟩ := loop_counting (fun _ _ => ())
    (idle_of_live resting live) () some (Nat.le_add_left_of_le enough)
  refine ⟨counted, taken, steps, ?_, total.trans (Nat.zero_add _)⟩
  rw [runWith, if_neg (ne_true_of_eq_false live)]
  exact ended

theorem exists_runFor (resting : cpu.state ≠ .running) (limit : Nat) :
    ∃ count, cpu.StepsTo limit count ∧ cpu.runFor limit = (count, step^[count] cpu) := by
  by_cases nothing : limit = 0 ∨ cpu.isHalted = true
  · refine ⟨0, ?_, ?_⟩
    · rcases nothing with none | halted
      · rw [none]
        exact .zero cpu
      · exact .of_isHalted halted limit
    · rw [runFor, runForWatching, if_pos nothing]
      rfl
  · obtain ⟨some, live⟩ := not_or.mp nothing
    obtain ⟨counted, taken, steps, ended, total⟩ := runWith_counting (eq_false_of_ne_true live)
      resting (Nat.pos_of_ne_zero some) (Nat.le_refl limit)
    refine ⟨taken, steps, ?_⟩
    rw [runFor, runForWatching, if_neg nothing, ended]
    exact Prod.ext total rfl

theorem run_of_halted {limit count fuel : Nat} (resting : cpu.state ≠ .running)
    (steps : cpu.StepsTo limit count) (halted : (step^[count] cpu).isHalted = true)
    (enough : count ≤ fuel) : cpu.run fuel = .finished (step^[count] cpu) := by
  unfold run runWith
  cases live : cpu.isHalted with
  | true =>
      have none : count = 0 := by
        apply Nat.eq_zero_of_not_pos
        intro some
        exact Bool.false_ne_true ((steps.live some).symm.trans live)
      rw [none]
      rfl
  | false =>
      obtain ⟨after, ended⟩ := loop_to_halt ⟨fun _ _ => (), fun _ cpu => ((), cpu)⟩
        (fun _ _ => rfl) (idle_of_live resting live) () (fun _ => steps.live) halted enough
      rw [if_neg Bool.false_ne_true, ended]

/-- A run for a number of instructions is as many steps, up to the one that halts the machine. So
two such runs are one, and a run that halts is as good as any that is long enough. -/
theorem runFor_iterates_step {cpu : Cpu} (resting : cpu.state = .idle ∨ cpu.isHalted = true)
    (limit : Nat) :
    ∃ count, cpu.StepsTo limit count ∧ (∀ other, cpu.StepsTo limit other → other = count) ∧
      cpu.runFor limit = (count, step^[count] cpu) ∧
      ((step^[count] cpu).state = .idle ∨ (step^[count] cpu).isHalted = true) ∧
      (0 < limit → ∀ fuel, limit ≤ fuel → ∃ counted,
        cpu.runWith (countingHook (fun _ _ => ()) limit) fuel ((), 0) =
          .finished (((), counted), step^[count] cpu)) ∧
      (∀ more, cpu.runFor (limit + more) =
        (count + ((cpu.runFor limit).2.runFor more).1, ((cpu.runFor limit).2.runFor more).2)) ∧
      ∀ enough ≤ limit, (step^[enough] cpu).isHalted = true →
        ∀ fuel, enough ≤ fuel → cpu.run fuel = .finished (cpu.runFor limit).2 := by
  have resting : cpu.state ≠ .running := by
    rcases resting with idle | halted
    · simp [idle]
    · exact ne_running_of_isHalted halted
  obtain ⟨count, steps, ran⟩ := exists_runFor resting limit
  have after := iterate_resting resting count
  refine ⟨count, steps, fun _ => steps.unique, ran, idle_or_halted after, ?_, ?_, ?_⟩
  · intro some fuel enough
    cases live : cpu.isHalted with
    | true =>
        have none : 0 = count := steps.unique (.of_isHalted live limit)
        rw [← none, runWith, live]
        exact ⟨0, rfl⟩
    | false =>
        obtain ⟨counted, taken, others, ended, -⟩ := runWith_counting live resting some enough
        rw [steps.unique others] at ended
        exact ⟨counted, ended⟩
  · intro more
    obtain ⟨further, later, ranMore⟩ := exists_runFor after more
    obtain ⟨total, all, ranAll⟩ := exists_runFor resting (limit + more)
    rw [ran, ranMore, ranAll, (steps.add later).unique all, Function.iterate_add_apply,
      Nat.add_comm]
  · intro enough within halted fuel fueled
    obtain ⟨least, stops⟩ := steps.halted_of_halted halted within
    rw [ran, run_of_halted resting steps stops (Nat.le_trans least fueled)]

theorem runFor_iterates_step_halting :
    let cpu : Cpu := { blank with memory := blank.memory.storeAll 0 [0xE8, 0xE8, 0x02] }
    cpu.StepsTo 3 3 ∧ cpu.runFor 3 = (3, step^[3] cpu) ∧ (step^[3] cpu).registers.x = 2 ∧
      cpu.run 3 = .finished (cpu.runFor 3).2 ∧ cpu.run 3 = .finished (cpu.runFor 5).2 := by
  intro cpu
  have idle : cpu.state = .idle ∨ cpu.isHalted = true := Or.inl rfl
  have halted : (step^[3] cpu).isHalted = true := by decide +kernel
  have counted : (cpu.runFor 3).1 = 3 := by decide +kernel
  obtain ⟨count, steps, -, ran, -, -, -, runs⟩ := runFor_iterates_step idle 3
  obtain ⟨-, -, -, -, -, -, -, runsOn⟩ := runFor_iterates_step idle 5
  rw [ran] at counted
  subst counted
  exact ⟨steps, ran, by decide +kernel, runs 3 (Nat.le_refl 3) halted 3 (Nat.le_refl 3),
    runsOn 3 (by decide) halted 3 (Nat.le_refl 3)⟩

end Run

end EightBit.Cpu
