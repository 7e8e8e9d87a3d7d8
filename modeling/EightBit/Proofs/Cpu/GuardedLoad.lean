import EightBit.Proofs.Cpu.Loader
import EightBit.Proofs.Memory.History

/-!
Loads from outside into a machine. Whether there is room, and whether the character set is in the
way, is checked before the first byte is stored: a load puts all its bytes into memory or none, and
the address of its first byte and their number tell which.
-/
namespace EightBit

namespace Memory

/-- Writes bytes one behind the other, each with a check of its own. What stands in memory when a
write fails stays there. -/
def writeEach (memory : Memory) (start : Nat) : List UInt8 → Memory × Option MemoryError
  | [] => (memory, none)
  | byte :: rest =>
    match memory.write start byte.toUInt16 with
    | .ok after => after.writeEach (start + 1) rest
    | .error error => (memory, some error)

theorem write_of_lt {memory : Memory} {address : Nat} (inside : address < memory.size)
    (byte : UInt8) : memory.write address byte.toUInt16 = .ok (memory.store address byte) := by
  rw [write, if_pos inside, UInt8.toUInt8_toUInt16]

theorem writeEach_of_fits {memory : Memory} {start : Nat} {bytes : List UInt8}
    (fits : start + bytes.length ≤ memory.size) :
    memory.writeEach start bytes = (memory.storeAll start bytes, none) := by
  induction bytes generalizing memory start with
  | nil => rfl
  | cons byte rest ih =>
      rw [List.length_cons] at fits
      have inside : start < memory.size := by omega
      have later : start + 1 + rest.length ≤ (memory.store start byte).size := by
        rw [size_store]
        omega
      rw [writeEach, write_of_lt inside]
      exact ih later

example :
    let left := (ofSize 4).writeEach 3 [1, 2]
    left.1.read 3 = .ok 1 ∧ left.2 = some (.outOfRange 4 4) := by decide +kernel

theorem read_storeAll {memory : Memory} {start : Nat} {bytes : List UInt8}
    (fits : start + bytes.length ≤ memory.size) (address : Nat) :
    (memory.storeAll start bytes).read address =
      if start ≤ address ∧ address < start + bytes.length then
        .ok (bytes.getD (address - start) 0)
      else memory.read address := by
  rw [read, read, size_storeAll, byte_storeAll memory fits]
  by_cases covered : start ≤ address ∧ address < start + bytes.length
  · rw [if_pos covered, if_pos covered, if_pos (by omega)]
  · rw [if_neg covered, if_neg covered]

end Memory

namespace Cpu

/-- A machine that a caller can have before it: a new one, what operations make of one, and one
that was started, as a hook sees it. -/
inductive Reachable : Cpu → Prop
  | fresh : Reachable new
  | leads {cpu after : Cpu} (reachable : Reachable cpu) (leads : Leads cpu after) : Reachable after
  | started {cpu : Cpu} (reachable : Reachable cpu) : Reachable { cpu with state := .running }

theorem Reachable.intact {cpu : Cpu} (reachable : Reachable cpu) : cpu.Intact := by
  induction reachable with
  | fresh => exact intact_new
  | leads _ leads ih => exact leads.intact ih
  | started _ ih => exact ⟨ih.memory, ih.unused⟩

/-- A load into the machine as it stands: what it leaves of the machine, and the error that ends
it. -/
def loadInPlace (cpu : Cpu) (program : List UInt8) (start : UInt16) : Cpu × Option MemoryError :=
  let size := cpu.memory.size
  if touchesFont program start then (cpu, some (.romOverlap start.toNat program.length))
  else if program ≠ [] ∧ size < start.toNat + program.length then
    (cpu, some (.capacityExceeded start.toNat program.length size))
  else
    let (memory, error) := cpu.memory.writeEach start.toNat program
    ({ cpu with memory }, error)

def left (cpu : Cpu) : Except MemoryError Cpu → Cpu × Option MemoryError
  | .ok after => (after, none)
  | .error error => (cpu, some error)

variable {cpu : Cpu} {program : List UInt8} {start : UInt16}

theorem touchesFont_iff_covered : touchesFont program start = true ↔
    ∃ address, (start.toNat ≤ address ∧ address < start.toNat + program.length) ∧
      0xF000 ≤ address ∧ address ≤ 0xF3FF := by
  have found : touchesFont program (UInt16.ofNat start.toNat) = true ↔ _ :=
    touchesFont_iff start.toNat_lt
  rw [UInt16.ofNat_toNat] at found
  rw [found]
  refine exists_congr fun address => ?_
  rw [← and_assoc, MemoryMap.isFont, Bool.and_eq_true, decide_eq_true_iff, decide_eq_true_iff]
  exact Iff.rfl

theorem touchesFont_eq_false_iff : touchesFont program start = false ↔
    ∀ address, (start.toNat ≤ address ∧ address < start.toNat + program.length) →
      ¬ (0xF000 ≤ address ∧ address ≤ 0xF3FF) := by
  rw [← Bool.not_eq_true, touchesFont_iff_covered, not_exists]
  exact forall_congr' fun _ => not_and

theorem loadInPlace_eq (cpu : Cpu) (program : List UInt8) (start : UInt16) :
    cpu.loadInPlace program start = cpu.left (cpu.load program start) := by
  rw [loadInPlace, load]
  cases touchesFont program start with
  | true => rfl
  | false =>
      by_cases beyond : program ≠ [] ∧ cpu.memory.size < start.toNat + program.length
      · have failed := Memory.load_eq_error_iff.mpr ⟨beyond.1, beyond.2, rfl⟩
        rw [if_pos beyond, failed]
        rfl
      · rw [if_neg beyond]
        cases program with
        | nil => rfl
        | cons byte rest =>
            have fits := Nat.le_of_not_lt fun more => beyond ⟨List.cons_ne_nil byte rest, more⟩
            rw [cpu.memory.load_of_fits fits, Memory.writeEach_of_fits fits]
            rfl

theorem load_cases (size : cpu.memory.size = 0x10000) (program : List UInt8) (start : UInt16) :
    (touchesFont program start = true ∧
      cpu.load program start = .error (.romOverlap start.toNat program.length)) ∨
    (touchesFont program start = false ∧ 0x10000 < start.toNat + program.length ∧
      cpu.load program start = .error (.capacityExceeded start.toNat program.length 0x10000)) ∨
    (touchesFont program start = false ∧ start.toNat + program.length ≤ 0x10000 ∧
      cpu.load program start =
        .ok { cpu with memory := cpu.memory.storeAll start.toNat program }) := by
  cases touches : touchesFont program start with
  | true => exact Or.inl ⟨rfl, if_pos touches⟩
  | false =>
      have unguarded : cpu.load program start =
          (cpu.memory.load program start.toNat).map fun memory => { cpu with memory } :=
        if_neg (ne_true_of_eq_false touches)
      rw [unguarded]
      rcases Nat.lt_or_ge 0x10000 (start.toNat + program.length) with beyond | fits
      · have some : program ≠ [] := by
          rintro rfl
          exact Nat.lt_irrefl _ (Nat.lt_trans beyond start.toNat_lt)
        have failed := Memory.load_eq_error_iff.mpr ⟨some, size ▸ beyond, rfl⟩
        rw [failed, size]
        exact Or.inr (Or.inl ⟨rfl, beyond, rfl⟩)
      · rw [cpu.memory.load_of_fits (size ▸ fits)]
        exact Or.inr (Or.inr ⟨rfl, fits, rfl⟩)

theorem load_eq_ok_iff (size : cpu.memory.size = 0x10000) {after : Cpu} :
    cpu.load program start = .ok after ↔
      touchesFont program start = false ∧ start.toNat + program.length ≤ 0x10000 ∧
        { cpu with memory := cpu.memory.storeAll start.toNat program } = after := by
  rcases load_cases size program start with
    ⟨touches, failed⟩ | ⟨apart, beyond, failed⟩ | ⟨apart, fits, loaded⟩
  · rw [failed, touches]
    exact iff_of_false nofun nofun
  · rw [failed]
    exact iff_of_false nofun fun ⟨_, fits, _⟩ => Nat.not_lt_of_le fits beyond
  · rw [loaded, Except.ok.injEq]
    exact ⟨fun same => ⟨apart, fits, same⟩, fun ⟨_, _, same⟩ => same⟩

theorem load_eq_error_iff (size : cpu.memory.size = 0x10000) {error : MemoryError} :
    cpu.load program start = .error error ↔
      error = .romOverlap start.toNat program.length ∧ touchesFont program start = true ∨
      error = .capacityExceeded start.toNat program.length 0x10000 ∧
        touchesFont program start = false ∧ 0x10000 < start.toNat + program.length := by
  rcases load_cases size program start with
    ⟨touches, failed⟩ | ⟨apart, beyond, failed⟩ | ⟨apart, fits, loaded⟩
  · rw [failed, touches, Except.error.injEq, eq_comm]
    simp
  · rw [failed, apart, Except.error.injEq, eq_comm]
    simp [beyond]
  · rw [loaded, apart]
    simp [fits]

/-- A load succeeds exactly if it has no bytes, or if they all lie in memory and none of them where
the character set is. Then they are the bytes of memory there, and nothing else is changed. A load
that fails leaves the machine as it was. It tells of the character set if a byte would lie there,
and otherwise of the end of memory. -/
theorem load_stores_all_or_nothing (reachable : Reachable cpu) (bytes : List UInt8)
    (start : UInt16) :
    let covered (address : Nat) := start.toNat ≤ address ∧ address < start.toNat + bytes.length
    let inFont (address : Nat) := 0xF000 ≤ address ∧ address ≤ 0xF3FF
    ((∃ after, cpu.load bytes start = .ok after) ↔ bytes = [] ∨
      start.toNat + bytes.length ≤ 0x10000 ∧ ∀ address, covered address → ¬ inFont address) ∧
    (∀ after, cpu.load bytes start = .ok after →
      cpu.loadInPlace bytes start = (after, none) ∧
      after = { cpu with memory := after.memory } ∧
      ∀ address, after.memory.read address =
        if start.toNat ≤ address ∧ address < start.toNat + bytes.length then
          .ok (bytes.getD (address - start.toNat) 0)
        else cpu.memory.read address) ∧
    (∀ error, cpu.load bytes start = .error error →
      cpu.loadInPlace bytes start = (cpu, some error)) ∧
    ∀ error, cpu.load bytes start = .error error ↔
      error = .romOverlap start.toNat bytes.length ∧
        (∃ address, covered address ∧ inFont address) ∨
      error = .capacityExceeded start.toNat bytes.length 0x10000 ∧
        (∀ address, covered address → ¬ inFont address) ∧
        0x10000 < start.toNat + bytes.length := by
  intro covered inFont
  have size : cpu.memory.size = 0x10000 := reachable.intact.memory.size
  refine ⟨⟨?_, ?_⟩, fun after loaded => ?_, fun error failed => ?_, fun error => ?_⟩
  · rintro ⟨after, loaded⟩
    obtain ⟨apart, fits, -⟩ := (load_eq_ok_iff size).mp loaded
    exact Or.inr ⟨fits, touchesFont_eq_false_iff.mp apart⟩
  · rintro (rfl | ⟨fits, free⟩)
    · have free : touchesFont [] start = false :=
        touchesFont_eq_false_iff.mpr fun _ inside => absurd inside.1 (Nat.not_le_of_lt inside.2)
      exact ⟨_, (load_eq_ok_iff size).mpr ⟨free, Nat.le_of_lt start.toNat_lt, rfl⟩⟩
    · exact ⟨_, (load_eq_ok_iff size).mpr ⟨touchesFont_eq_false_iff.mpr free, fits, rfl⟩⟩
  · rw [loadInPlace_eq, loaded]
    obtain ⟨-, fits, rfl⟩ := (load_eq_ok_iff size).mp loaded
    exact ⟨rfl, rfl, Memory.read_storeAll (size ▸ fits)⟩
  · rw [loadInPlace_eq, failed]
    rfl
  · rw [load_eq_error_iff size, touchesFont_iff_covered, touchesFont_eq_false_iff]

theorem load_stores_all_or_nothing_at_bounds :
    let cpu : Cpu := { new with state := .running }
    let long := List.replicate 0x1C01 7
    Reachable cpu ∧
      (∃ after, cpu.load [1, 2] 0xEFFE = .ok after ∧ after.state = .running ∧
        after.memory.read 0xEFFF = .ok 2 ∧
        after.memory.read 0xF000 = cpu.memory.read 0xF000) ∧
      cpu.loadInPlace [1, 2] 0xEFFF = (cpu, some (.romOverlap 0xEFFF 2)) ∧
      cpu.loadInPlace long 0xE400 = (cpu, some (.romOverlap 0xE400 0x1C01)) ∧
      cpu.loadInPlace [1, 2] 0xFFFF = (cpu, some (.capacityExceeded 0xFFFF 2 0x10000)) := by
  intro cpu long
  have reachable : Reachable cpu := .started .fresh
  have length : long.length = 0x1C01 := List.length_replicate
  refine ⟨reachable, ?_, ?_, ?_, ?_⟩
  · obtain ⟨succeeds, holds, -⟩ := load_stores_all_or_nothing reachable [1, 2] 0xEFFE
    have free (address : Nat) (covered : 0xEFFE ≤ address ∧ address < 0xEFFE + 2) :
        ¬ (0xF000 ≤ address ∧ address ≤ 0xF3FF) := by omega
    obtain ⟨after, loaded⟩ := succeeds.mpr (Or.inr ⟨by decide, free⟩)
    obtain ⟨-, same, bytes⟩ := holds after loaded
    exact ⟨after, loaded, congrArg Cpu.state same, (bytes 0xEFFF).trans (if_pos (by decide)),
      (bytes 0xF000).trans (if_neg (by decide))⟩
  · obtain ⟨-, -, kept, fails⟩ := load_stores_all_or_nothing reachable [1, 2] 0xEFFF
    exact kept _ ((fails _).mpr (Or.inl ⟨rfl, 0xF000, by decide, by decide⟩))
  · obtain ⟨-, -, kept, fails⟩ := load_stores_all_or_nothing reachable long 0xE400
    rw [length] at fails
    exact kept _ ((fails _).mpr (Or.inl ⟨rfl, 0xF3FF, by decide, by decide⟩))
  · obtain ⟨-, -, kept, fails⟩ := load_stores_all_or_nothing reachable [1, 2] 0xFFFF
    have free (address : Nat) (covered : 0xFFFF ≤ address ∧ address < 0xFFFF + 2) :
        ¬ (0xF000 ≤ address ∧ address ≤ 0xF3FF) := by omega
    exact kept _ ((fails _).mpr (Or.inr ⟨rfl, free, by decide⟩))

end Cpu

end EightBit
