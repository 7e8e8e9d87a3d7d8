import EightBit.Proofs.Cpu.Operations
import EightBit.Proofs.Memory.Cells
import EightBit.Proofs.Outcome

/-!
What holds of a machine whatever is done with it: its memory has its full size, the character set
stands where it belongs, and the unused bit of the status byte is set.
-/
namespace EightBit

namespace Registers

def UnusedSet (registers : Registers) : Prop := registers.status.toNat.testBit 5 = true

theorem unusedSet_initial : initial.UnusedSet := rfl

theorem unusedSet_setStatus (registers : Registers) (status : UInt8) :
    (registers.setStatus status).UnusedSet := by
  have mask : Flag.unused.mask.toNat.testBit 5 = true := by decide
  rw [UnusedSet, setStatus, UInt8.toNat_or, Nat.testBit_or, mask, Bool.or_true]

theorem unusedSet_setFlag (registers : Registers) (name : Flag) (value : Bool) :
    (registers.setFlag name value).UnusedSet :=
  unusedSet_setStatus _ _

theorem unusedSet_setResult (registers : Registers) (result : UInt8) :
    (registers.setResult result).UnusedSet :=
  unusedSet_setFlag _ _ _

theorem unusedSet_apply {registers : Registers} (unused : registers.UnusedSet)
    (change : RegisterWrite) : (change.apply registers).UnusedSet := by
  cases change with
  | a | x | y | sp | pc => exact unused
  | status value => exact unusedSet_setStatus _ _
  | flag name value => exact unusedSet_setFlag _ _ _
  | result value => exact unusedSet_setResult _ _
  | reset => exact unusedSet_initial

end Registers

namespace Cpu

/-- No instruction clears the unused bit: flags are only changed together with it. -/
theorem unusedSet_perform {registers : Registers} (unused : registers.UnusedSet)
    (instruction : Instruction) (memory : Memory) (place : Place) :
    (perform instruction registers memory place).registers.UnusedSet := by
  have next : { registers with
      pc := registers.pc + UInt16.ofNat instruction.mode.size }.UnusedSet := unused
  unfold perform
  cases instruction.mnemonic with
  | bcc | bcs | beq | bmi | bne | bpl | bvc | bvs =>
      dsimp only
      split
      · exact unused
      · exact next
  | jmp | jsr | nop | pha | rts | sta | stx | sty => exact unused
  | clc | sec | cmp | cpx | cpy => exact Registers.unusedSet_setFlag _ _ _
  | adc | dex | dey | inc | inx | iny | lda | ldx | ldy | pla | tax | tay | txa | tya =>
      exact Registers.unusedSet_setResult _ _

end Cpu

/-- Memory of the full size, with the character set in its place. -/
structure Memory.Intact (memory : Memory) : Prop where
  size : memory.size = MemoryMap.memorySize
  font {address : Nat} (inside : MemoryMap.isFont address = true) :
    memory.byte address = Font.bytes.getD (address - MemoryMap.fontStart) 0

theorem MemoryMap.fontLast_succ : fontLast + 1 = fontStart + Font.bytes.length := by
  rw [Font.length_bytes]
  rfl

theorem MemoryMap.isFont_iff {address : Nat} :
    isFont address = true ↔ fontStart ≤ address ∧ address < fontStart + Font.bytes.length := by
  rw [isFont, Bool.and_eq_true, decide_eq_true_iff, decide_eq_true_iff, ← fontLast_succ]
  exact and_congr_right fun _ => Nat.lt_succ_iff.symm

theorem MemoryMap.isFont_of_lt {address : Nat} (below : address < fontStart) :
    isFont address = false :=
  eq_false_of_ne_true fun inside => Nat.not_lt.mpr (isFont_iff.mp inside).1 below

namespace Memory

variable {memory after : Memory}

theorem Intact.of_eq (intact : memory.Intact) (size : after.size = memory.size)
    (same : ∀ address, MemoryMap.isFont address = true →
      after.byte address = memory.byte address) : after.Intact where
  size := size.trans intact.size
  font inside := (same _ inside).trans (intact.font inside)

theorem Intact.store (intact : memory.Intact) {place : Nat}
    (outside : MemoryMap.isFont place = false) (value : UInt8) :
    (memory.store place value).Intact := by
  refine intact.of_eq (memory.size_store place value) fun address inside => ?_
  apply memory.byte_store_of_ne
  rintro rfl
  exact Bool.false_ne_true (outside.symm.trans inside)

theorem Intact.commit (intact : memory.Intact) (stores : List (UInt16 × UInt8)) :
    (Cpu.commit memory stores).Intact := by
  induction stores generalizing memory with
  | nil => exact intact
  | cons first rest ih =>
      obtain ⟨address, value⟩ := first
      unfold Cpu.commit
      split
      · exact ih intact
      · rename_i outside
        exact ih (intact.store (eq_false_of_ne_true outside) value)

theorem Intact.load (intact : memory.Intact) {program : List UInt8} {start : UInt16}
    (apart : Cpu.touchesFont program start = false)
    (loaded : memory.load program start.toNat = .ok after) : after.Intact := by
  refine intact.of_eq (memory.size_of_load loaded) fun address inside => ?_
  apply memory.byte_of_load loaded
  have within := MemoryMap.isFont_iff.mp inside
  have last := MemoryMap.fontLast_succ
  rcases Nat.lt_or_ge address start.toNat with before | behind
  · exact Or.inl before
  · refine Or.inr (Nat.le_of_not_lt fun covered => ?_)
    have some : program ≠ [] := by
      intro empty
      rw [empty, List.length_nil] at covered
      omega
    have touches : Cpu.touchesFont program start = true := by
      simp only [Cpu.touchesFont, Bool.and_eq_true, Bool.not_eq_true', List.isEmpty_eq_false_iff,
        decide_eq_true_eq]
      exact ⟨⟨some, by omega⟩, by omega⟩
    exact Bool.false_ne_true (apart.symm.trans touches)

theorem intact_load_font (memory : Memory) (size : memory.size = MemoryMap.memorySize) :
    ∃ after, memory.load Font.bytes MemoryMap.fontStart = .ok after ∧ after.Intact := by
  have fits : MemoryMap.fontStart + Font.bytes.length ≤ memory.size := by
    rw [size, Font.length_bytes]
    decide
  refine ⟨_, memory.load_of_fits fits, (memory.size_storeAll _ _).trans size, ?_⟩
  intro address inside
  rw [memory.byte_storeAll fits, if_pos (MemoryMap.isFont_iff.mp inside)]

end Memory

namespace Cpu

structure Intact (cpu : Cpu) : Prop where
  memory : cpu.memory.Intact
  unused : cpu.registers.UnusedSet

variable {cpu after : Cpu}

theorem intact_reset (size : cpu.memory.size = MemoryMap.memorySize) : cpu.reset.Intact := by
  obtain ⟨memory, loaded, intact⟩ := Memory.intact_load_font cpu.memory.reset size
  refine ⟨?_, Registers.unusedSet_initial⟩
  rw [reset, loaded]
  exact intact

theorem intact_new : new.Intact := intact_reset rfl

theorem Intact.load (intact : cpu.Intact) {program : List UInt8} {start : UInt16}
    (loaded : cpu.load program start = .ok after) : after.Intact := by
  unfold Cpu.load at loaded
  split at loaded
  · cases loaded
  · rename_i apart
    obtain ⟨memory, stored, rfl⟩ := ok_of_map loaded
    exact ⟨intact.memory.load (eq_false_of_ne_true apart) stored, intact.unused⟩

theorem Intact.poke (intact : cpu.Intact) {address : UInt16} {value : UInt8}
    (poked : cpu.poke address value = .ok after) : after.Intact := by
  unfold Cpu.poke at poked
  split at poked
  · cases poked
  · rename_i outside
    obtain ⟨memory, written, rfl⟩ := ok_of_map poked
    unfold Memory.write at written
    split at written
    · cases written
      exact ⟨intact.memory.store (eq_false_of_ne_true outside) _, intact.unused⟩
    · cases written

theorem Intact.attempt (intact : cpu.Intact) {result : Except MemoryError Cpu}
    (success : ∀ after, result = .ok after → after.Intact) : (cpu.attempt result).Intact := by
  cases result with
  | ok after => exact success after rfl
  | error reason => exact intact

theorem Intact.step (intact : cpu.Intact) : cpu.step.Intact := by
  unfold Cpu.step
  split
  · exact intact
  · dsimp only
    split
    · exact ⟨intact.memory, intact.unused⟩
    · exact ⟨intact.memory.commit _, unusedSet_perform intact.unused _ _ _⟩

theorem Intact.stop (intact : cpu.Intact) : cpu.stop.Intact := by
  unfold Cpu.stop
  split
  · exact ⟨intact.memory, intact.unused⟩
  · exact intact

theorem intact_kept {σ : Type} (hook : Hook σ)
    (calls : ∀ own cpu, Intact cpu → (hook.after own cpu).2.Intact) : Kept hook Intact where
  state _ intact := ⟨intact.memory, intact.unused⟩
  step intact := intact.step
  hook own intact := calls own _ intact

theorem Intact.runFor (intact : cpu.Intact) (limit : Nat) : (cpu.runFor limit).2.Intact := by
  unfold Cpu.runFor runForWatching
  split
  · exact intact
  · refine (intact_kept _ ?_).runWith limit _ intact
    intro own cpu intact
    unfold countingHook
    dsimp only
    split
    · exact intact.stop
    · exact intact

theorem Intact.run (intact : cpu.Intact) {fuel : Nat} (ended : cpu.run fuel = .finished after) :
    after.Intact := by
  have kept := (intact_kept ⟨fun _ _ => (), fun _ cpu => ((), cpu)⟩
    fun _ _ intact => intact).runWith fuel () intact
  unfold Cpu.run at ended
  split at ended
  · rename_i same
    rw [same] at kept
    cases ended
    exact kept
  · cases ended

theorem Leads.intact (leads : Leads cpu after) (intact : cpu.Intact) : after.Intact := by
  induction leads with
  | none => exact intact
  | andThen early late ihEarly ihLate => exact ihLate (ihEarly intact)
  | reset => exact intact_reset intact.memory.size
  | load program start => exact intact.attempt fun _ => intact.load
  | poke address value => exact intact.attempt fun _ => intact.poke
  | write change => exact ⟨intact.memory, Registers.unusedSet_apply intact.unused change⟩
  | setTracing tracing => exact ⟨intact.memory, intact.unused⟩
  | stop => exact intact.stop
  | step => exact intact.step
  | runFor limit => exact intact.runFor limit
  | run ended => exact intact.run ended
  | runWith calls ended ih =>
      rename_i hook cpu after fuel own left
      have kept := (intact_kept hook ih).runWith fuel own intact
      rw [ended] at kept
      exact kept

theorem font_of_intact (intact : cpu.memory.Intact) : cpu.font = Font.bytes := by
  have inside (index : Nat) (below : index < Font.bytes.length) :
      cpu.memory.byte (MemoryMap.fontStart + index) = Font.bytes[index] := by
    have covered : MemoryMap.isFont (MemoryMap.fontStart + index) = true :=
      MemoryMap.isFont_iff.mpr ⟨Nat.le_add_right _ _, Nat.add_lt_add_left below _⟩
    rw [intact.font covered, Nat.add_sub_cancel_left, List.getD_eq_getElem?_getD,
      List.getElem?_eq_getElem below, Option.getD_some]
  have slice : cpu.font =
      (List.range' MemoryMap.fontStart Font.bytes.length).map cpu.memory.byte := by
    rw [font, Memory.slice, intact.size, Font.length_bytes]
    rfl
  rw [slice]
  apply List.ext_getElem
  · simp
  · intro index _ below
    simp only [List.getElem_map, List.getElem_range', Nat.one_mul]
    exact inside index below

/-- Whatever is done with a machine, its memory keeps its size, the character set stays as it is
and the unused bit of the status byte stays set. -/
theorem machine_stays_intact {cpu : Cpu} (leads : Leads new cpu) :
    cpu.memory.size = 0x10000 ∧ cpu.memory.slice 0xF000 0x400 = Font.bytes ∧
      cpu.registers.status.toNat.testBit 5 = true := by
  have intact := leads.intact intact_new
  exact ⟨intact.memory.size, font_of_intact intact.memory, intact.unused⟩

theorem machine_stays_intact_under_attack :
    let hook : Hook Unit := ⟨fun _ _ => (), fun _ cpu =>
      let cleared := cpu.write (.flag .unused false)
      ((), (cleared.attempt (cleared.poke 0xF001 1)).stop)⟩
    let loaded := new.attempt (new.load [0xA9, 0xFF, 0x8D, 0x00, 0xF0] 0x0200)
    let ready := ((loaded.write (.pc 0x0200)).runFor 1).2
    ∃ after, ready.runWith hook 1 () = .finished ((), after) ∧ after.memory.size = 0x10000 ∧
      after.memory.slice 0xF000 0x400 = Font.bytes ∧
      after.registers.status.toNat.testBit 5 = true := by
  intro hook loaded ready
  have calls (own : Unit) (cpu : Cpu) : Leads cpu (hook.after own cpu).2 :=
    .andThen (.write (.flag .unused false)) (.andThen (.poke 0xF001 1) .stop)
  have start : Leads new ready :=
    .andThen (.load _ 0x0200) (.andThen (.write (.pc 0x0200)) (.runFor 1))
  have stops (own : Unit) (cpu : Cpu) : (hook.after own cpu).2.state ≠ .running := by
    dsimp only [hook, stop]
    split
    · exact nofun
    · assumption
  obtain ⟨⟨own, after⟩, ended⟩ := exists_finished_of_stops stops () ready
  exact ⟨after, ended, machine_stays_intact (.andThen start (.runWith calls ended))⟩

end Cpu

end EightBit
