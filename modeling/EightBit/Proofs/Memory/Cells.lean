import EightBit.Memory
import Std.Data.TreeMap.Lemmas

namespace EightBit.Memory

variable (memory : Memory)

@[simp]
theorem size_store (place : Nat) (value : UInt8) :
    (memory.store place value).size = memory.size := by
  unfold store
  split <;> rfl

theorem byte_store (place address : Nat) (value : UInt8) :
    (memory.store place value).byte address =
      if address = place ∧ place < memory.size then value else memory.byte address := by
  by_cases inside : place < memory.size
  · have asked : (memory.store place value).byte address =
        if compare place address = .eq then value else memory.byte address := by
      rw [store, if_pos inside]
      exact Std.TreeMap.getD_insert
    rw [asked]
    by_cases same : address = place
    · rw [if_pos (Std.LawfulEqCmp.compare_eq_iff_eq.mpr same.symm), if_pos ⟨same, inside⟩]
    · have apart : compare place address ≠ .eq :=
        fun equal => same (Std.LawfulEqCmp.compare_eq_iff_eq.mp equal).symm
      rw [if_neg apart, if_neg (fun both => same both.1)]
  · rw [store, if_neg inside, if_neg (fun both => inside both.2)]

theorem byte_store_of_ne {place address : Nat} (apart : address ≠ place) (value : UInt8) :
    (memory.store place value).byte address = memory.byte address := by
  rw [byte_store, if_neg (fun both => apart both.1)]

theorem size_storeAll (start : Nat) (bytes : List UInt8) :
    (memory.storeAll start bytes).size = memory.size := by
  induction bytes generalizing memory start with
  | nil => rfl
  | cons byte rest ih => rw [storeAll, ih, size_store]

theorem byte_storeAll {start : Nat} {bytes : List UInt8}
    (fits : start + bytes.length ≤ memory.size) (address : Nat) :
    (memory.storeAll start bytes).byte address =
      if start ≤ address ∧ address < start + bytes.length then bytes.getD (address - start) 0
      else memory.byte address := by
  induction bytes generalizing memory start with
  | nil =>
      have outside : ¬ (start ≤ address ∧ address < start + 0) := by omega
      rw [storeAll, List.length_nil, if_neg outside]
  | cons byte rest ih =>
      rw [List.length_cons] at fits ⊢
      have later : start + 1 + rest.length ≤ (memory.store start byte).size := by
        rw [size_store]
        omega
      rw [storeAll, ih _ later, byte_store]
      by_cases first : address = start
      · subst first
        rw [if_neg (by omega), if_pos (by omega), if_pos (by omega), Nat.sub_self]
        rfl
      · by_cases covered : start + 1 ≤ address ∧ address < start + 1 + rest.length
        · have shifted : address - start = address - (start + 1) + 1 := by omega
          rw [if_pos covered, if_pos (by omega), shifted, List.getD_cons_succ]
        · rw [if_neg covered, if_neg (fun both => first both.1), if_neg (by omega)]

theorem map_byte_storeAll {start : Nat} {bytes : List UInt8}
    (fits : start + bytes.length ≤ memory.size) :
    (List.range' start bytes.length).map (memory.storeAll start bytes).byte = bytes := by
  apply List.ext_getElem
  · rw [List.length_map, List.length_range']
  · intro index _ inside
    rw [List.getElem_map, List.getElem_range', Nat.one_mul, byte_storeAll memory fits,
      if_pos (by omega), Nat.add_sub_cancel_left, List.getD_eq_getElem?_getD,
      List.getElem?_eq_getElem inside, Option.getD_some]

theorem load_eq_ok {program : List UInt8} {start : Nat} {after : Memory}
    (loaded : memory.load program start = .ok after) :
    program = [] ∧ after = memory ∨
      start + program.length ≤ memory.size ∧ after = memory.storeAll start program := by
  unfold load at loaded
  split at loaded
  · rename_i empty
    cases loaded
    exact Or.inl ⟨List.isEmpty_iff.mp empty, rfl⟩
  · split at loaded
    · rename_i fits
      cases loaded
      exact Or.inr ⟨fits, rfl⟩
    · cases loaded

theorem load_of_fits {program : List UInt8} {start : Nat}
    (fits : start + program.length ≤ memory.size) :
    memory.load program start = .ok (memory.storeAll start program) := by
  cases program with
  | nil => rfl
  | cons byte rest => exact if_pos fits

theorem size_of_load {program : List UInt8} {start : Nat} {after : Memory}
    (loaded : memory.load program start = .ok after) : after.size = memory.size := by
  rcases memory.load_eq_ok loaded with ⟨-, same⟩ | ⟨-, same⟩
  · rw [same]
  · rw [same, size_storeAll]

theorem byte_of_load {program : List UInt8} {start address : Nat} {after : Memory}
    (loaded : memory.load program start = .ok after)
    (outside : address < start ∨ start + program.length ≤ address) :
    after.byte address = memory.byte address := by
  rcases memory.load_eq_ok loaded with ⟨-, same⟩ | ⟨fits, same⟩
  · rw [same]
  · rw [same, byte_storeAll memory fits, if_neg (by omega)]

end EightBit.Memory
