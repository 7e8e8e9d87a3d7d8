import EightBit.Image
import Std.Data.TreeMap.Lemmas

namespace EightBit.Image

variable (image : Image)

theorem get?_empty (address : Nat) : empty.get? address = none := Std.TreeMap.getElem?_emptyc

theorem get?_write (place address : Nat) (byte : UInt8) :
    (image.write place byte).get? address =
      if address = place then some byte else image.get? address := by
  have asked : (image.write place byte).get? address =
      if compare place address = .eq then some byte else image.get? address :=
    Std.TreeMap.getElem?_insert
  rw [asked]
  by_cases same : address = place
  · rw [if_pos same, if_pos (Std.LawfulEqCmp.compare_eq_iff_eq.mpr same.symm)]
  · have apart : compare place address ≠ .eq :=
      fun equal => same (Std.LawfulEqCmp.compare_eq_iff_eq.mp equal).symm
    rw [if_neg same, if_neg apart]

theorem writeAll_cons_fst (line start : Nat) (byte : UInt8) (rest : List UInt8) :
    (image.writeAll line start (byte :: rest)).1 =
      ((image.write (start % 0x10000) byte).writeAll line (start + 1) rest).1 := by
  cases found : image.get? (start % 0x10000) with
  | none => simp only [writeAll, found]
  | some old => simp only [writeAll, found]

theorem writeAll_cons_snd (line start : Nat) (byte : UInt8) (rest : List UInt8) :
    ((image.writeAll line start (byte :: rest)).2).map (·.address) =
      (if (image.get? (start % 0x10000)).isSome then [start % 0x10000] else []) ++
        ((image.write (start % 0x10000) byte).writeAll line (start + 1) rest).2.map
          (·.address) := by
  cases found : image.get? (start % 0x10000) with
  | none => simp [writeAll, found]
  | some old => simp [writeAll, found]

variable {image} {line start : Nat} {bytes : List UInt8}

theorem get?_writeAll (fits : start + bytes.length ≤ 0x10000) (address : Nat) :
    (image.writeAll line start bytes).1.get? address =
      if start ≤ address ∧ address < start + bytes.length then bytes[address - start]?
      else image.get? address := by
  induction bytes generalizing image start with
  | nil =>
      have outside : ¬ (start ≤ address ∧ address < start + 0) := by omega
      rw [writeAll, List.length_nil, if_neg outside]
  | cons byte rest ih =>
      rw [List.length_cons] at fits ⊢
      have place : start % 0x10000 = start := Nat.mod_eq_of_lt (by omega)
      rw [writeAll_cons_fst, place, ih (by omega), get?_write]
      by_cases first : address = start
      · subst first
        rw [if_neg (by omega), if_pos rfl, if_pos (by omega), Nat.sub_self, List.getElem?_cons_zero]
      · rw [if_neg first]
        by_cases covered : start + 1 ≤ address ∧ address < start + 1 + rest.length
        · have later : address - start = address - (start + 1) + 1 := by omega
          rw [if_pos covered, if_pos (by omega), later, List.getElem?_cons_succ]
        · rw [if_neg covered, if_neg (by omega)]

theorem overwrites_writeAll (fits : start + bytes.length ≤ 0x10000) :
    (image.writeAll line start bytes).2.map (·.address) =
      (List.range' start bytes.length).filter fun address => (image.get? address).isSome := by
  induction bytes generalizing image start with
  | nil => rfl
  | cons byte rest ih =>
      rw [List.length_cons] at fits
      have place : start % 0x10000 = start := Nat.mod_eq_of_lt (by omega)
      -- the bytes behind the first are not where it was written
      have apart : (List.range' (start + 1) rest.length).filter
            (fun address => ((image.write start byte).get? address).isSome) =
          (List.range' (start + 1) rest.length).filter
            (fun address => (image.get? address).isSome) := by
        refine List.filter_congr fun address member => ?_
        rw [get?_write, if_neg]
        rw [List.mem_range'_1] at member
        omega
      rw [writeAll_cons_snd, place, ih (by omega), apart, List.length_cons, List.range'_succ,
        List.filter_cons]
      split
      · rfl
      · rfl

theorem get?_writeAll_of_free (line : Nat) (fits : start + bytes.length ≤ 0x10000)
    (free : ∀ address, start ≤ address → image.get? address = none) (address : Nat) :
    (image.writeAll line start bytes).1.get? address =
      if address < start then image.get? address else bytes[address - start]? := by
  rw [get?_writeAll fits]
  by_cases before : address < start
  · rw [if_neg (by omega), if_pos before]
  · by_cases within : address < start + bytes.length
    · rw [if_pos (by omega), if_neg before]
    · rw [if_neg (by omega), if_neg before, free address (by omega),
        List.getElem?_eq_none (by omega)]

theorem overwrites_writeAll_of_free (line : Nat) (fits : start + bytes.length ≤ 0x10000)
    (free : ∀ address, start ≤ address → image.get? address = none) :
    (image.writeAll line start bytes).2.map (·.address) = [] := by
  rw [overwrites_writeAll fits]
  apply List.filter_eq_nil_iff.mpr
  intro address member
  rw [free address (List.mem_range'_1.mp member).1]
  nofun

theorem get?_eq_none_of_no_overwrites
    (clean : (image.writeAll line start bytes).2.map (·.address) = []) {index : Nat}
    (below : index < bytes.length) : image.get? ((start + index) % 0x10000) = none := by
  induction bytes generalizing image start index with
  | nil => exact absurd below (Nat.not_lt_zero _)
  | cons byte rest ih =>
      rw [writeAll_cons_snd, List.append_eq_nil_iff] at clean
      obtain ⟨first, later⟩ := clean
      cases index with
      | zero =>
          cases found : image.get? (start % 0x10000) with
          | none => rfl
          | some old => simp [found] at first
      | succ index =>
          have next := ih later (Nat.lt_of_succ_lt_succ below)
          rw [Nat.add_right_comm, get?_write] at next
          split at next
          · cases next
          · exact next

/-- More bytes than there are addresses overwrite each other. -/
theorem length_le_of_no_overwrites
    (clean : (image.writeAll line start bytes).2.map (·.address) = []) :
    bytes.length ≤ 0x10000 := by
  cases bytes with
  | nil => exact Nat.zero_le _
  | cons byte rest =>
      rw [writeAll_cons_snd, List.append_eq_nil_iff] at clean
      apply Nat.le_of_not_lt
      intro long
      rw [List.length_cons] at long
      have again : 0xFFFF < rest.length := by omega
      have around : (start + 1 + 0xFFFF) % 0x10000 = start % 0x10000 := by omega
      have absent := get?_eq_none_of_no_overwrites clean.2 again
      rw [around, get?_write, if_pos rfl] at absent
      cases absent

theorem isSome_get?_iff {address : Nat} :
    (image.get? address).isSome ↔ address ∈ image.cells :=
  Std.TreeMap.mem_iff_isSome_getElem?.symm

theorem lt_stop_of_isSome {address : Nat} (written : (image.get? address).isSome) :
    address < image.stop := by
  have member := isSome_get?_iff.mp written
  cases greatest : image.cells.maxKey? with
  | none =>
      have empty := Std.TreeMap.maxKey?_eq_none_iff.mp greatest
      exact absurd member (Std.TreeMap.isEmpty_iff_forall_not_mem.mp empty address)
  | some last =>
      have bound := (Std.TreeMap.maxKey?_eq_some_iff_mem_and_forall.mp greatest).2 address member
      rw [stop, greatest, Option.elim_some]
      exact Nat.lt_succ_of_le (Nat.isLE_compare.mp bound)

theorem stop_eq_zero_or (image : Image) :
    image.stop = 0 ∨ ∃ last, image.stop = last + 1 ∧ (image.get? last).isSome := by
  cases greatest : image.cells.maxKey? with
  | none =>
      left
      rw [stop, greatest]
      rfl
  | some last =>
      have member := (Std.TreeMap.maxKey?_eq_some_iff_mem_and_forall.mp greatest).1
      refine Or.inr ⟨last, ?_, isSome_get?_iff.mpr member⟩
      rw [stop, greatest]
      rfl

def fill (cells : List (Nat × UInt8)) (bytes : Array UInt8) : Array UInt8 :=
  cells.foldl (fun bytes cell => bytes.setIfInBounds cell.1 cell.2) bytes

theorem size_fill (cells : List (Nat × UInt8)) (bytes : Array UInt8) :
    (fill cells bytes).size = bytes.size := by
  induction cells generalizing bytes with
  | nil => rfl
  | cons cell rest ih => exact (ih _).trans Array.size_setIfInBounds

theorem getElem?_fill_of_absent {cells : List (Nat × UInt8)} {address : Nat}
    (absent : ∀ cell ∈ cells, cell.1 ≠ address) (bytes : Array UInt8) :
    (fill cells bytes)[address]? = bytes[address]? := by
  induction cells generalizing bytes with
  | nil => rfl
  | cons cell rest ih =>
      have later := ih (fun other member => absent other (List.mem_cons_of_mem _ member))
        (bytes.setIfInBounds cell.1 cell.2)
      exact later.trans (Array.getElem?_setIfInBounds_ne (absent cell List.mem_cons_self))

theorem getElem?_fill_of_mem {cells : List (Nat × UInt8)} {address : Nat} {byte : UInt8}
    (distinct : cells.Pairwise fun first second => first.1 ≠ second.1)
    (member : (address, byte) ∈ cells) {bytes : Array UInt8} (inside : address < bytes.size) :
    (fill cells bytes)[address]? = some byte := by
  induction distinct generalizing bytes with
  | nil => cases member
  | cons apart _ ih =>
      rcases List.mem_cons.mp member with rfl | later
      · have rest := getElem?_fill_of_absent (fun other known => (apart other known).symm)
          (bytes.setIfInBounds address byte)
        exact rest.trans (Array.getElem?_setIfInBounds_self_of_lt inside)
      · exact ih later (by rwa [Array.size_setIfInBounds])

theorem toBinary_eq_fill (image : Image) :
    image.toBinary = (fill image.cells.toList (Array.replicate image.stop 0)).toList := by
  rw [toBinary, Std.TreeMap.foldl_eq_foldl_toList]
  rfl

theorem length_toBinary (image : Image) : image.toBinary.length = image.stop := by
  rw [toBinary_eq_fill, Array.length_toList, size_fill, Array.size_replicate]

theorem getElem?_toBinary {address : Nat} (inside : address < image.stop) :
    image.toBinary[address]? = some ((image.get? address).getD 0) := by
  rw [toBinary_eq_fill, Array.getElem?_toList]
  cases found : image.get? address with
  | none =>
      have absent : ∀ cell ∈ image.cells.toList, cell.1 ≠ address := by
        rintro ⟨place, byte⟩ member rfl
        have present := Std.TreeMap.mem_toList_iff_getElem?_eq_some.mp member
        rw [get?, present] at found
        cases found
      rw [getElem?_fill_of_absent absent, Array.getElem?_replicate, if_pos inside]
      rfl
  | some byte =>
      have member := Std.TreeMap.mem_toList_iff_getElem?_eq_some.mpr found
      have distinct : image.cells.toList.Pairwise fun first second => first.1 ≠ second.1 :=
        Std.TreeMap.distinct_keys_toList.imp
          fun apart same => apart (Std.LawfulEqCmp.compare_eq_iff_eq.mpr same)
      exact getElem?_fill_of_mem distinct member (by rwa [Array.size_replicate])

theorem toBinary_of_get? {bytes : List UInt8}
    (stands : ∀ address, image.get? address = bytes[address]?) : image.toBinary = bytes := by
  have stop : image.stop = bytes.length := by
    apply Nat.le_antisymm
    · rcases image.stop_eq_zero_or with zero | ⟨last, stop, written⟩
      · rw [zero]
        exact Nat.zero_le _
      · rw [stop]
        apply Nat.lt_of_not_le
        intro outside
        rw [stands, List.getElem?_eq_none outside] at written
        cases written
    · cases bytes with
      | nil => exact Nat.zero_le _
      | cons byte rest =>
          have last : (image.get? rest.length).isSome = true := by
            rw [stands, List.getElem?_eq_getElem (Nat.lt_succ_self _)]
            rfl
          exact lt_stop_of_isSome last
  apply List.ext_getElem?
  intro address
  by_cases inside : address < image.stop
  · have below : address < bytes.length := stop ▸ inside
    rw [getElem?_toBinary inside, stands, List.getElem?_eq_getElem below]
    rfl
  · have outside : bytes.length ≤ address := stop ▸ Nat.le_of_not_lt inside
    rw [List.getElem?_eq_none outside, List.getElem?_eq_none]
    rw [length_toBinary]
    exact Nat.le_of_not_lt inside

end EightBit.Image
