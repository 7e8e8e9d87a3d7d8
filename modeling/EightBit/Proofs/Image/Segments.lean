import EightBit.Image
import Std.Data.TreeMap.Lemmas

namespace EightBit

def spread (segments : List (Nat × List UInt8)) : List (Nat × UInt8) :=
  segments.flatMap fun segment => (List.range' segment.1 segment.2.length).zip segment.2

theorem spread_cons (start : Nat) (bytes : List UInt8) (rest : List (Nat × List UInt8)) :
    spread ((start, bytes) :: rest) = (List.range' start bytes.length).zip bytes ++ spread rest :=
  List.flatMap_cons

theorem spread_cons_cons (start : Nat) (byte : UInt8) (bytes : List UInt8)
    (rest : List (Nat × List UInt8)) :
    spread ((start, byte :: bytes) :: rest) =
      (start, byte) :: spread ((start + 1, bytes) :: rest) := by
  simp only [spread_cons, List.length_cons, List.range'_succ, List.zip_cons_cons, List.cons_append]

theorem exists_mem_zip_range' {start address : Nat} {bytes : List UInt8} (low : start ≤ address)
    (high : address < start + bytes.length) :
    ∃ byte, (address, byte) ∈ (List.range' start bytes.length).zip bytes := by
  have inside : address - start < bytes.length := by omega
  refine ⟨bytes[address - start], List.mem_iff_getElem.mpr ⟨address - start, by simpa, ?_⟩⟩
  simp only [List.getElem_zip, List.getElem_range', Nat.one_mul]
  rw [Nat.add_sub_cancel' low]

theorem spread_joinCells (cells : List (Nat × UInt8)) : spread (joinCells cells) = cells := by
  fun_induction joinCells cells with
  | case1 => rfl
  | case2 address byte rest none ih =>
      rw [none] at ih
      rw [← ih]
      rfl
  | case3 address byte rest bytes more joined ih =>
      rw [joined] at ih
      rw [spread_cons_cons, ih]
  | case4 address byte rest start bytes more joined apart ih =>
      rw [joined] at ih
      rw [spread_cons_cons, spread_cons, ih]
      rfl

namespace Image

variable {image : Image}

theorem spread_segments : spread image.segments = image.cells.toList := spread_joinCells _

theorem mem_spread_segments_iff {address : Nat} {byte : UInt8} :
    (address, byte) ∈ spread image.segments ↔ image.get? address = some byte := by
  rw [spread_segments]
  exact Std.TreeMap.mem_toList_iff_getElem?_eq_some

theorem pairwise_spread_segments (image : Image) :
    (spread image.segments).Pairwise fun first second => first.1 ≠ second.1 := by
  rw [spread_segments]
  apply Std.TreeMap.distinct_keys_toList.imp
  intro first second apart same
  exact apart (Std.LawfulEqCmp.compare_eq_iff_eq.mpr same)

end Image

end EightBit
