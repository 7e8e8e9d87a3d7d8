import EightBit.Loader
import EightBit.Proofs.Image.Segments
import EightBit.Proofs.Memory.Cells

namespace EightBit

namespace Memory

def storeCells (memory : Memory) (cells : List (Nat × UInt8)) : Memory :=
  cells.foldl (fun memory cell => memory.store cell.1 cell.2) memory

theorem storeCells_cons (memory : Memory) (cell : Nat × UInt8) (rest : List (Nat × UInt8)) :
    memory.storeCells (cell :: rest) = (memory.store cell.1 cell.2).storeCells rest := rfl

theorem size_storeCells (memory : Memory) (cells : List (Nat × UInt8)) :
    (memory.storeCells cells).size = memory.size := by
  induction cells generalizing memory with
  | nil => rfl
  | cons cell rest ih => rw [storeCells_cons, ih, size_store]

theorem storeCells_append (memory : Memory) (front back : List (Nat × UInt8)) :
    memory.storeCells (front ++ back) = (memory.storeCells front).storeCells back :=
  List.foldl_append

theorem storeAll_eq_storeCells (memory : Memory) (start : Nat) (bytes : List UInt8) :
    memory.storeAll start bytes =
      memory.storeCells ((List.range' start bytes.length).zip bytes) := by
  induction bytes generalizing memory start with
  | nil => rfl
  | cons byte rest ih =>
      rw [storeAll, ih, List.length_cons, List.range'_succ, List.zip_cons_cons, storeCells_cons]

theorem byte_storeCells_of_absent {cells : List (Nat × UInt8)} {address : Nat}
    (absent : ∀ cell ∈ cells, cell.1 ≠ address) (memory : Memory) :
    (memory.storeCells cells).byte address = memory.byte address := by
  induction cells generalizing memory with
  | nil => rfl
  | cons cell rest ih =>
      have later := ih fun other member => absent other (List.mem_cons_of_mem _ member)
      rw [storeCells_cons, later, byte_store_of_ne]
      exact (absent cell List.mem_cons_self).symm

theorem byte_storeCells_of_mem {cells : List (Nat × UInt8)} {address : Nat} {byte : UInt8}
    (distinct : cells.Pairwise fun first second => first.1 ≠ second.1)
    (member : (address, byte) ∈ cells) {memory : Memory} (inside : address < memory.size) :
    (memory.storeCells cells).byte address = byte := by
  induction distinct generalizing memory with
  | nil => cases member
  | cons apart _ ih =>
      rw [storeCells_cons]
      rcases List.mem_cons.mp member with rfl | later
      · rw [byte_storeCells_of_absent fun other known => (apart other known).symm, byte_store,
          if_pos ⟨rfl, inside⟩]
      · exact ih later (by rwa [size_store])

end Memory

namespace Cpu

def Loadable (address : Nat) : Prop := address < 0x10000 ∧ MemoryMap.isFont address = false

theorem load_eq_ok {cpu : Cpu} {bytes : List UInt8} {start : Nat}
    (size : cpu.memory.size = 0x10000)
    (loadable : ∀ address, start ≤ address → address < start + bytes.length → Loadable address) :
    cpu.load bytes (UInt16.ofNat start) =
      .ok { cpu with memory := cpu.memory.storeAll start bytes } := by
  cases bytes with
  | nil => rfl
  | cons byte rest =>
      have first := loadable start (Nat.le_refl _) (Nat.lt_add_of_pos_right (Nat.succ_pos _))
      have last := loadable (start + rest.length) (Nat.le_add_right _ _) (Nat.lt_succ_self _)
      have place : (UInt16.ofNat start).toNat = start := UInt16.toNat_ofNat_of_lt' first.1
      have apart : touchesFont (byte :: rest) (UInt16.ofNat start) = false := by
        apply eq_false_of_ne_true
        intro touches
        simp only [touchesFont, place, Bool.and_eq_true, decide_eq_true_eq] at touches
        obtain ⟨⟨-, low⟩, high⟩ := touches
        have some : 0 < (byte :: rest).length := Nat.succ_pos _
        -- the first byte that lies in the character set
        have inside : MemoryMap.isFont (max start MemoryMap.fontStart) = true := by
          have order : MemoryMap.fontStart ≤ MemoryMap.fontLast := by decide
          simp only [MemoryMap.isFont, Bool.and_eq_true, decide_eq_true_eq]
          omega
        have outside := loadable (max start MemoryMap.fontStart) (Nat.le_max_left _ _) (by omega)
        exact Bool.false_ne_true (outside.2.symm.trans inside)
      have fits : start + (byte :: rest).length ≤ cpu.memory.size := by
        rw [size]
        exact last.1
      rw [load, apart, place, cpu.memory.load_of_fits fits]
      rfl

theorem loadSegments_eq_ok {segments : List (Nat × List UInt8)} {cpu : Cpu}
    (size : cpu.memory.size = 0x10000) (loadable : ∀ cell ∈ spread segments, Loadable cell.1) :
    cpu.loadSegments segments =
      .ok { cpu with memory := cpu.memory.storeCells (spread segments) } := by
  induction segments generalizing cpu with
  | nil => rfl
  | cons segment rest ih =>
      obtain ⟨start, bytes⟩ := segment
      rw [spread_cons] at loadable ⊢
      have loaded : cpu.load bytes (UInt16.ofNat start) =
          .ok { cpu with memory := cpu.memory.storeAll start bytes } := by
        apply load_eq_ok size
        intro address low high
        have inside : address - start < bytes.length := by omega
        apply loadable (address, bytes[address - start])
        apply List.mem_append_left
        rw [List.mem_iff_getElem]
        refine ⟨address - start, by simpa using inside, ?_⟩
        simp only [List.getElem_zip, List.getElem_range', Nat.one_mul]
        rw [Nat.add_sub_cancel' low]
      rw [loadSegments, loaded]
      refine (ih ?_ fun cell member => loadable cell (List.mem_append_right _ member)).trans ?_
      · rw [Memory.size_storeAll, size]
      · rw [Memory.storeAll_eq_storeCells, Memory.storeCells_append]

theorem loadSegments_holds {image : Image} {cpu : Cpu} (size : cpu.memory.size = 0x10000)
    (loadable : ∀ address, (image.get? address).isSome → Loadable address) :
    ∃ loaded, cpu.loadSegments image.segments = .ok loaded ∧ loaded.memory.size = 0x10000 ∧
      ∀ address byte, image.get? address = some byte → loaded.memory.byte address = byte := by
  have written (cell : Nat × UInt8) (member : cell ∈ spread image.segments) :
      Loadable cell.1 := by
    apply loadable
    rw [Image.mem_spread_segments_iff.mp member]
    rfl
  refine ⟨_, loadSegments_eq_ok size written, ?_, fun address byte found => ?_⟩
  · rw [Memory.size_storeCells, size]
  have member := Image.mem_spread_segments_iff.mpr found
  apply Memory.byte_storeCells_of_mem image.pairwise_spread_segments member
  rw [size]
  exact (written _ member).1

end Cpu

end EightBit
