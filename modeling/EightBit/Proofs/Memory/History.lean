import Mathlib.Data.List.Induction
import EightBit.Proofs.Memory.Cells

/-!
Memory is told by its history: a byte is the one that the last successful operation put there, and
an operation that fails changes nothing. Bounds are the sums of whole numbers, also where they are
computed in 64 bits.
-/
namespace EightBit

inductive MemoryOperation where
  | reset
  | write (address : Nat) (value : UInt16)
  | load (program : List UInt8) (start : Nat)
  deriving DecidableEq

/-- The byte that was put at an address last, in a history with the newest operation first: by a
write of its low eight bits or by a load, if they succeeded. Behind a reset nothing counts. -/
def lastStored (size address : Nat) : List MemoryOperation → UInt8
  | [] => 0
  | .reset :: _ => 0
  | .write place value :: earlier =>
    if place < size ∧ address = place then .ofNat (value.toNat % 0x100)
    else lastStored size address earlier
  | .load program start :: earlier =>
    if start + program.length ≤ size ∧ start ≤ address ∧ address < start + program.length then
      program.getD (address - start) 0
    else lastStored size address earlier

/-- The sum of two numbers, unless it leaves 64 bits: then it comes out smaller. -/
def checkedSum (first second : UInt64) : Option UInt64 :=
  if first + second < first then none else some (first + second)

def saturatedSum (first second : UInt64) : UInt64 :=
  (checkedSum first second).getD 0xFFFFFFFFFFFFFFFF

theorem checkedSum_eq (first second : UInt64) :
    checkedSum first second =
      if first.toNat + second.toNat < 0x10000000000000000 then some (first + second) else none := by
  have sum := UInt64.toNat_add first second
  have low := first.toNat_lt
  have high := second.toNat_lt
  rw [checkedSum]
  by_cases fits : first.toNat + second.toNat < 0x10000000000000000
  · rw [if_pos fits, if_neg]
    rw [UInt64.lt_iff_toNat_lt]
    omega
  · rw [if_neg fits, if_pos]
    rw [UInt64.lt_iff_toNat_lt]
    omega

/-- A sum below a bound of 64 bits is found by adding first and comparing then. -/
theorem filter_checkedSum {first second : UInt64} {bound : Nat}
    (small : bound < 0x10000000000000000) :
    (checkedSum first second).filter (·.toNat ≤ bound) =
      if first.toNat + second.toNat ≤ bound then some (first + second) else none := by
  rw [checkedSum_eq]
  by_cases fits : first.toNat + second.toNat < 0x10000000000000000
  · have sum : (first + second).toNat = first.toNat + second.toNat := by
      rw [UInt64.toNat_add]
      omega
    rw [if_pos fits, Option.filter_some, sum]
    simp only [decide_eq_true_eq]
  · rw [if_neg fits, Option.filter_none, if_neg (by omega)]

theorem toNat_saturatedSum (first second : UInt64) :
    (saturatedSum first second).toNat = min (first.toNat + second.toNat) 0xFFFFFFFFFFFFFFFF := by
  rw [saturatedSum, checkedSum_eq]
  by_cases fits : first.toNat + second.toNat < 0x10000000000000000
  · rw [if_pos fits, Option.getD_some, UInt64.toNat_add]
    omega
  · rw [if_neg fits, Option.getD_none]
    have most : (0xFFFFFFFFFFFFFFFF : UInt64).toNat = 0xFFFFFFFFFFFFFFFF := rfl
    omega

theorem toNat_min (first second : UInt64) :
    (min first second).toNat = min first.toNat second.toNat := by
  have least : min first second = if first ≤ second then first else second := rfl
  rw [least]
  by_cases order : first ≤ second
  · rw [if_pos order, Nat.min_eq_left (UInt64.le_iff_toNat_le.mp order)]
  · have other := UInt64.le_iff_toNat_le.not.mp order
    rw [if_neg order, Nat.min_eq_right (Nat.le_of_not_le other)]

namespace Memory

def attempt (memory : Memory) : MemoryOperation → Except MemoryError Memory
  | .reset => .ok memory.reset
  | .write address value => memory.write address value
  | .load program start => memory.load program start

def after (memory : Memory) (operation : MemoryOperation) : Memory :=
  match memory.attempt operation with
  | .ok changed => changed
  | .error _ => memory

def replay (memory : Memory) (operations : List MemoryOperation) : Memory :=
  operations.foldl after memory

def load64 (memory : Memory) (program : List UInt8) (start : UInt64) : Except MemoryError Memory :=
  if program.isEmpty then .ok memory
  else match (checkedSum start (.ofNat program.length)).filter (·.toNat ≤ memory.size) with
    | some _ => .ok (memory.storeAll start.toNat program)
    | none => .error (.capacityExceeded start.toNat program.length memory.size)

def slice64 (memory : Memory) (start length : UInt64) : List UInt8 :=
  let first := min start (.ofNat memory.size)
  let stop := min (saturatedSum start length) (.ofNat memory.size)
  (List.range' first.toNat (stop.toNat - first.toNat)).map memory.byte

variable {memory : Memory}

theorem write_eq_error_iff {address : Nat} {value : UInt16} {error : MemoryError} :
    memory.write address value = .error error ↔
      memory.size ≤ address ∧ error = .outOfRange address memory.size := by
  rw [write]
  by_cases inside : address < memory.size
  · rw [if_pos inside]
    exact iff_of_false nofun fun outside => Nat.not_lt_of_le outside.1 inside
  · rw [if_neg inside]
    constructor
    · rintro ⟨⟩
      exact ⟨Nat.le_of_not_lt inside, rfl⟩
    · rintro ⟨-, rfl⟩
      rfl

theorem load_eq_error_iff {program : List UInt8} {start : Nat} {error : MemoryError} :
    memory.load program start = .error error ↔
      program ≠ [] ∧ memory.size < start + program.length ∧
        error = .capacityExceeded start program.length memory.size := by
  cases program with
  | nil => exact iff_of_false nofun fun some => some.1 rfl
  | cons byte rest =>
      by_cases fits : start + (byte :: rest).length ≤ memory.size
      · rw [memory.load_of_fits fits]
        exact iff_of_false nofun fun beyond => Nat.not_lt_of_le fits beyond.2.1
      · have refused : memory.load (byte :: rest) start =
            .error (.capacityExceeded start (byte :: rest).length memory.size) := if_neg fits
        rw [refused]
        constructor
        · rintro ⟨⟩
          exact ⟨nofun, Nat.lt_of_not_le fits, rfl⟩
        · rintro ⟨-, -, rfl⟩
          rfl

theorem after_of_error {operation : MemoryOperation} {error : MemoryError}
    (failed : memory.attempt operation = .error error) : memory.after operation = memory := by
  rw [after, failed]

theorem after_write (memory : Memory) (address : Nat) (value : UInt16) :
    memory.after (.write address value) = memory.store address value.toUInt8 := by
  by_cases inside : address < memory.size
  · rw [after, attempt, write, if_pos inside]
  · rw [after, attempt, write, if_neg inside, store, if_neg inside]

theorem after_load_of_fits {program : List UInt8} {start : Nat}
    (fits : start + program.length ≤ memory.size) :
    memory.after (.load program start) = memory.storeAll start program := by
  rw [after, attempt, memory.load_of_fits fits]

theorem after_load_of_long {program : List UInt8} {start : Nat}
    (long : ¬ start + program.length ≤ memory.size) :
    memory.after (.load program start) = memory := by
  cases program with
  | nil => rfl
  | cons byte rest =>
      exact after_of_error (load_eq_error_iff.mpr ⟨nofun, Nat.lt_of_not_le long, rfl⟩)

theorem size_after (memory : Memory) (operation : MemoryOperation) :
    (memory.after operation).size = memory.size := by
  cases operation with
  | reset => rfl
  | write address value => rw [after_write, size_store]
  | load program start =>
      by_cases fits : start + program.length ≤ memory.size
      · rw [after_load_of_fits fits, size_storeAll]
      · rw [after_load_of_long fits]

theorem size_replay (memory : Memory) (operations : List MemoryOperation) :
    (memory.replay operations).size = memory.size := by
  induction operations generalizing memory with
  | nil => rfl
  | cons operation rest ih =>
      exact (ih (memory.after operation)).trans (memory.size_after operation)

theorem toUInt8_eq_ofNat (value : UInt16) : value.toUInt8 = .ofNat (value.toNat % 0x100) := by
  apply UInt8.toNat_inj.mp
  rw [UInt16.toNat_toUInt8, UInt8.toNat_ofNat']
  omega

theorem byte_after {address : Nat} {earlier : List MemoryOperation}
    (told : memory.byte address = lastStored memory.size address earlier)
    (operation : MemoryOperation) :
    (memory.after operation).byte address =
      lastStored memory.size address (operation :: earlier) := by
  cases operation with
  | reset => exact Std.TreeMap.getD_emptyc
  | write place value =>
      rw [after_write, byte_store, lastStored, told, toUInt8_eq_ofNat]
      simp only [And.comm]
  | load program start =>
      rw [lastStored]
      by_cases fits : start + program.length ≤ memory.size
      · rw [after_load_of_fits fits, byte_storeAll memory fits, told]
        simp only [fits, true_and]
      · rw [after_load_of_long fits, if_neg (fun loaded => fits loaded.1), told]

theorem byte_replay (size address : Nat) (operations : List MemoryOperation) :
    ((ofSize size).replay operations).byte address =
      lastStored size address operations.reverse := by
  induction operations using List.reverseRecOn with
  | nil => exact Std.TreeMap.getD_emptyc
  | append_singleton operations operation ih =>
      have same : ((ofSize size).replay operations).size = size := size_replay _ operations
      rw [replay, List.foldl_append, List.reverse_append]
      have next := byte_after (by rw [same, ih]) operation
      rwa [same] at next

theorem map_ok_slice (memory : Memory) (start length : Nat) :
    (memory.slice start length).map .ok =
      (List.range' start (min (start + length) memory.size - start)).map memory.read := by
  rw [slice, List.map_map]
  by_cases inside : start < memory.size
  · rw [Nat.min_eq_left (Nat.le_of_lt inside)]
    refine List.map_congr_left fun address member => ?_
    have place := List.mem_range'_1.mp member
    rw [read, if_pos (by omega)]
    rfl
  · have beyond : memory.size ≤ start := Nat.le_of_not_lt inside
    have none : min (start + length) memory.size - start = 0 := by omega
    have nothing : min (start + length) memory.size - min start memory.size = 0 := by omega
    rw [none, nothing]
    rfl

theorem load64_eq {program : List UInt8} (small : memory.size < 0x10000000000000000)
    (short : program.length < 0x10000000000000000) (start : UInt64) :
    memory.load64 program start = memory.load program start.toNat := by
  have length : (UInt64.ofNat program.length).toNat = program.length :=
    UInt64.toNat_ofNat_of_lt' short
  rw [load64, load, filter_checkedSum small, length]
  by_cases fits : start.toNat + program.length ≤ memory.size
  · rw [if_pos fits, if_pos fits]
  · rw [if_neg fits, if_neg fits]

theorem slice64_eq (small : memory.size < 0x10000000000000000) (start length : UInt64) :
    memory.slice64 start length = memory.slice start.toNat length.toNat := by
  have size : (UInt64.ofNat memory.size).toNat = memory.size := UInt64.toNat_ofNat_of_lt' small
  have stop : min (min (start.toNat + length.toNat) 0xFFFFFFFFFFFFFFFF) memory.size =
      min (start.toNat + length.toNat) memory.size := by omega
  rw [slice64, slice, toNat_min, toNat_min, toNat_saturatedSum, size, stop]

/-- Memory of any size, behind any operations: a write fails exactly beyond its end, a load exactly
if it has bytes that go beyond it, and neither changes anything then. A byte can be read below the
end, and is the one that was stored last since the last reset. A slice is what can be read up to the
end. The sums that this takes never go around in 64 bits. -/
theorem memory_keeps_last_stored (size : Nat) (operations : List MemoryOperation) :
    let memory := (ofSize size).replay operations
    (∀ address value error, memory.write address value = .error error ↔
      size ≤ address ∧ error = .outOfRange address size) ∧
    (∀ program start error, memory.load program start = .error error ↔
      program ≠ [] ∧ size < start + program.length ∧
        error = .capacityExceeded start program.length size) ∧
    (∀ operation error, memory.attempt operation = .error error →
      memory.after operation = memory) ∧
    (∀ address, memory.read address =
      if address < size then .ok (lastStored size address operations.reverse)
      else .error (.outOfRange address size)) ∧
    (∀ start length, (memory.slice start length).map .ok =
      (List.range' start (min (start + length) size - start)).map memory.read) ∧
    (size < 0x10000000000000000 → ∀ start : UInt64,
      (∀ program : List UInt8, program.length < 0x10000000000000000 →
        memory.load64 program start = memory.load program start.toNat) ∧
      ∀ length : UInt64, memory.slice64 start length = memory.slice start.toNat length.toNat) := by
  intro memory
  have same : memory.size = size := size_replay _ operations
  refine ⟨?_, ?_, fun _ _ failed => after_of_error failed, ?_, ?_, ?_⟩
  · intro address value error
    rw [write_eq_error_iff, same]
  · intro program start error
    rw [load_eq_error_iff, same]
  · intro address
    rw [read, same, byte_replay]
  · intro start length
    rw [map_ok_slice, same]
  · intro small start
    rw [← same] at small
    exact ⟨fun program short => load64_eq small short start, slice64_eq small start⟩

theorem memory_keeps_last_stored_behind_failures :
    let operations : List MemoryOperation :=
      [.write 0 7, .reset, .write 1 0x1AB, .load [1, 2, 3] 2, .write 4 9, .load [7, 8] 2,
        .write 3 5]
    let memory := (ofSize 4).replay operations
    let last : UInt64 := 0xFFFFFFFFFFFFFFFF
    (List.range 5).map memory.read =
        [.ok 0, .ok 0xAB, .ok 7, .ok 5, .error (.outOfRange 4 4)] ∧
      memory.write 4 9 = .error (.outOfRange 4 4) ∧ memory.after (.write 4 9) = memory ∧
      (memory.slice 3 last.toNat).map .ok = [memory.read 3] ∧
      memory.load64 [1, 2] last = .error (.capacityExceeded 0xFFFFFFFFFFFFFFFF 2 4) ∧
      memory.slice64 3 last = memory.slice 3 last.toNat := by
  intro operations memory last
  obtain ⟨write, load, failed, read, slice, words⟩ := memory_keeps_last_stored 4 operations
  have refused := (write 4 9 _).mpr ⟨Nat.le_refl 4, rfl⟩
  have narrow := words (by decide)
  refine ⟨?_, refused, failed (.write 4 9) _ refused, slice 3 last.toNat, ?_,
    (narrow 3).2 last⟩
  · rw [List.map_congr_left fun address _ => read address]
    decide
  · rw [(narrow last).1 [1, 2] (by decide)]
    exact (load [1, 2] last.toNat _).mpr ⟨nofun, by decide, rfl⟩

end Memory

end EightBit
