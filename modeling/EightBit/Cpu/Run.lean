import EightBit.Cpu.Execute

namespace EightBit

inductive Ran (α : Type) where
  | finished (result : α)
  | outOfFuel (sofar : α)

def Ran.value {α : Type} : Ran α → α
  | finished result | outOfFuel result => result

/-- Something that follows a run, with a state of its own. It sees the machine before every
instruction, and may change it after every instruction that does not halt it. -/
structure Hook (σ : Type) where
  before : σ → Cpu → σ
  after : σ → Cpu → σ × Cpu

namespace Cpu

def stop (cpu : Cpu) : Cpu :=
  if cpu.state = .running then { cpu with state := .idle } else cpu

def loop {σ : Type} (hook : Hook σ) : Nat → σ → Cpu → Ran (σ × Cpu)
  | 0, own, cpu => if cpu.state = .running then .outOfFuel (own, cpu) else .finished (own, cpu)
  | fuel + 1, own, cpu =>
    if cpu.state = .running then
      let own := hook.before own cpu
      let cpu := cpu.step
      if cpu.state = .running then
        let (own, cpu) := hook.after own cpu
        loop hook fuel own cpu
      else .finished (own, cpu)
    else .finished (own, cpu)

def runWith {σ : Type} (hook : Hook σ) (fuel : Nat) (own : σ) (cpu : Cpu) : Ran (σ × Cpu) :=
  if cpu.isHalted then .finished (own, cpu)
  else loop hook fuel own { cpu with state := .running }

def run (fuel : Nat) (cpu : Cpu) : Ran Cpu :=
  match runWith ⟨fun _ _ => (), fun _ cpu => ((), cpu)⟩ fuel () cpu with
  | .finished (_, cpu) => .finished cpu
  | .outOfFuel (_, cpu) => .outOfFuel cpu

def countingHook {σ : Type} (watch : σ → Cpu → σ) (limit : Nat) : Hook (σ × Nat) where
  before := fun (own, count) cpu => (watch own cpu, count)
  after := fun (own, count) cpu =>
    ((own, count + 1), if limit ≤ count + 1 then cpu.stop else cpu)

/-- Runs for at most `limit` instructions and gives their number; the one that halts the machine
counts too. -/
def runForWatching {σ : Type} (watch : σ → Cpu → σ) (own : σ) (limit : Nat) (cpu : Cpu) :
    σ × Nat × Cpu :=
  if limit = 0 ∨ cpu.isHalted then (own, 0, cpu)
  else
    let ((own, count), cpu) := (runWith (countingHook watch limit) limit (own, 0) cpu).value
    (own, if cpu.isHalted then count + 1 else count, cpu)

def runFor (limit : Nat) (cpu : Cpu) : Nat × Cpu :=
  (runForWatching (fun _ _ => ()) () limit cpu).2

end Cpu

end EightBit
