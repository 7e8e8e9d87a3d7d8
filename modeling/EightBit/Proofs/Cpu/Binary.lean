import EightBit.Proofs.Cpu.Loader
import EightBit.Proofs.Cpu.Operations
import EightBit.Proofs.Cpu.Same
import EightBit.Session

namespace EightBit

namespace Cpu

variable {program : Program} {cpu : Cpu}

theorem loadable_of_lt {address : Nat} (below : address < MemoryMap.fontStart) :
    Loadable address :=
  ⟨Nat.lt_trans below (by decide), MemoryMap.isFont_of_lt below⟩

theorem load_toBinary (size : cpu.memory.size = 0x10000)
    (below : program.image.stop ≤ MemoryMap.fontStart) :
    cpu.load program.image.toBinary 0 =
      .ok { cpu with memory := cpu.memory.storeAll 0 program.image.toBinary } := by
  apply load_eq_ok size
  intro address _ high
  rw [Nat.zero_add, Image.length_toBinary] at high
  exact loadable_of_lt (Nat.lt_of_lt_of_le high below)

theorem same_storeCells_storeAll {image : Image} {memory : Memory}
    (fits : image.stop ≤ memory.size) (zeros : ∀ address < image.stop, memory.byte address = 0) :
    (memory.storeCells (spread image.segments)).Same (memory.storeAll 0 image.toBinary) where
  size := by rw [Memory.size_storeCells, Memory.size_storeAll]
  byte address := by
    have below (address : Nat) (written : (image.get? address).isSome) : address < memory.size :=
      Nat.lt_of_lt_of_le (Image.lt_stop_of_isSome written) fits
    have length : 0 + image.toBinary.length ≤ memory.size := by
      rwa [Nat.zero_add, Image.length_toBinary]
    rw [byte_storeCells_segments below, memory.byte_storeAll length, Nat.zero_add,
      Image.length_toBinary]
    by_cases inside : address < image.stop
    · rw [zeros address inside, if_pos ⟨Nat.zero_le _, inside⟩, Nat.sub_zero,
        List.getD_eq_getElem?_getD, Image.getElem?_toBinary inside, Option.getD_some]
    · have absent : image.get? address = none := by
        rw [← Option.not_isSome_iff_eq_none]
        exact fun written => inside (Image.lt_stop_of_isSome written)
      rw [absent, if_neg fun both => inside both.2, Option.getD_none]

theorem Same.write {other : Cpu} (same : cpu.Same other) (change : RegisterWrite) :
    (cpu.write change).Same (other.write change) where
  memory := same.memory
  registers := by rw [Cpu.write, Cpu.write, same.registers]
  state := same.state
  cycles := same.cycles
  totalCycles := same.totalCycles
  tracing := same.tracing

end Cpu

theorem Report.registers_of_same {cpu other : Cpu} (same : cpu.Same other) (minimal : Bool) :
    Report.registers cpu minimal = Report.registers other minimal := by
  have plain : Report.plainRegisters cpu = Report.plainRegisters other := by
    unfold Report.plainRegisters
    rw [same.registers, same.totalCycles]
  have boxed : Report.boxedRegisters cpu = Report.boxedRegisters other := by
    unfold Report.boxedRegisters
    rw [same.registers]
  rw [Report.registers, Report.registers, plain, boxed]

theorem Session.runMachine_of_same {cpu other : Cpu} (same : cpu.Same other) (settings : Settings)
    (options : RunOptions) (origin : UInt16) :
    Session.runMachine settings options cpu origin =
      Session.runMachine settings options other origin := by
  have ready := same.write (.pc (options.start.getD origin))
  obtain ⟨seen, counted, ended⟩ := ready.runForWatching
    (fun events _ _ same => congrArg (· ++ events) same.stepEvents) ([] : List Event)
    (options.maxSteps.getD settings.maxSteps)
  unfold Session.runMachine
  unfold Cpu.write RegisterWrite.apply at seen counted ended
  dsimp only at seen counted ended ⊢
  rw [seen, counted, Report.registers_of_same ended, ended.state, ended.cycles, ended.totalCycles,
    ended.video]

theorem Session.runMachine_start (settings : Settings) (options : RunOptions) (cpu : Cpu)
    (start place : UInt16) :
    Session.runMachine settings { options with start := some start } cpu place =
      Session.runMachine settings { options with start := none } cpu start := rfl

/-- A program that ends below the character set and its binary, loaded at address zero into new
machines, are both loaded, and run alike from the origin of the program for any number of
instructions, with all that is shown of the run. -/
theorem binary_runs_like_program {program : Program} (written : program.image.isEmpty = false)
    (below : program.image.stop ≤ 0xF000) (settings : Settings) :
    let fresh := Cpu.new.setTracing settings.tracing
    ∃ sparse filled origin, fresh.loadProgram program = .ok (sparse, origin) ∧
      fresh.load program.image.toBinary 0 = .ok filled ∧
      program.image.origin? = some origin.toNat ∧
      (∀ limit,
        ((sparse.write (.pc origin)).runFor limit).1 =
          ((filled.write (.pc origin)).runFor limit).1 ∧
        ((sparse.write (.pc origin)).runFor limit).2.Same
          ((filled.write (.pc origin)).runFor limit).2) ∧
      ∀ options : RunOptions,
        Session.runMachine settings { options with start := none } sparse origin =
          Session.runMachine settings { options with start := some origin } filled 0 := by
  intro fresh
  have size : fresh.memory.size = 0x10000 := Cpu.size_new
  have loadable (address : Nat) (member : (program.image.get? address).isSome) :
      Cpu.Loadable address :=
    Cpu.loadable_of_lt (Nat.lt_of_lt_of_le (Image.lt_stop_of_isSome member) below)
  obtain ⟨origin, first⟩ := Cpu.exists_origin written
  have lowest := (Image.origin?_eq_some_iff.mp first).1
  have place : (UInt16.ofNat origin).toNat = origin :=
    UInt16.toNat_ofNat_of_lt' (loadable origin lowest).1
  have zeros (address : Nat) (inside : address < program.image.stop) :
      fresh.memory.byte address = 0 := by
    have outside := MemoryMap.isFont_of_lt (Nat.lt_of_lt_of_le inside below)
    rw [Cpu.memory_setTracing, Cpu.byte_new, Cpu.freshByte, outside]
    exact if_neg Bool.false_ne_true
  have fits : program.image.stop ≤ fresh.memory.size := by
    rw [size]
    exact Nat.le_trans below (by decide)
  have same : ({ fresh with memory := fresh.memory.storeCells (spread program.image.segments) } :
      Cpu).Same { fresh with memory := fresh.memory.storeAll 0 program.image.toBinary } :=
    ⟨Cpu.same_storeCells_storeAll fits zeros, rfl, rfl, rfl, rfl, rfl⟩
  refine ⟨_, _, UInt16.ofNat origin, Cpu.loadProgram_eq_ok size loadable first,
    Cpu.load_toBinary size below, by rw [place, first], ?_, ?_⟩
  · intro limit
    exact (same.write (.pc (.ofNat origin))).runFor limit
  · intro options
    rw [Session.runMachine_start, Session.runMachine_of_same same]

/-- The origin is set back, so that the jump leads over a gap and into the byte behind it. -/
theorem binary_runs_like_program_over_gap :
    let source := ".ORG $0200\nINX\n.ORG $0100\nJMP $0200".toList
    ∃ program sparse filled origin, assemble source = .ok program ∧
      (Cpu.new.setTracing true).loadProgram program = .ok (sparse, origin) ∧
      (Cpu.new.setTracing true).load program.image.toBinary 0 = .ok filled ∧
      ((sparse.write (.pc origin)).runFor 3).2.Same ((filled.write (.pc origin)).runFor 3).2 := by
  intro source
  have cells : (assemble source).map (·.image.cells.toList) =
      .ok [(0x0100, 0x4C), (0x0101, 0), (0x0102, 2), (0x0200, 0xE8)] := by decide +kernel
  obtain ⟨program, assembled, stands⟩ := exists_assemble_of_cells cells
  have first : program.image.get? 0x0100 = some 0x4C :=
    (stands 0x0100 0x4C).mpr List.mem_cons_self
  have written : program.image.isEmpty = false :=
    Image.isEmpty_eq_false_iff.mpr ⟨0x0100, by rw [first]; rfl⟩
  have below : program.image.stop ≤ 0xF000 := by
    rcases program.image.stop_eq_zero_or with zero | ⟨last, stop, ending⟩
    · rw [zero]
      exact Nat.zero_le _
    · obtain ⟨byte, found⟩ := Option.isSome_iff_exists.mp ending
      have among := (stands last byte).mp found
      simp only [List.mem_cons, Prod.mk.injEq, List.not_mem_nil, or_false] at among
      omega
  obtain ⟨sparse, filled, origin, loaded, loadedToo, -, same, -⟩ :=
    binary_runs_like_program written below { maxSteps := 0, tracing := true }
  exact ⟨program, sparse, filled, origin, assembled, loaded, loadedToo, (same 3).2⟩

end EightBit
