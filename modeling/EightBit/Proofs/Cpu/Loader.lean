import EightBit.Proofs.Assembly.Log
import EightBit.Proofs.Cpu.Invariant
import EightBit.Proofs.Cpu.Loading

namespace EightBit

namespace Image

variable {image : Image}

theorem get?_eq_some_iff_mem {address : Nat} {byte : UInt8} :
    image.get? address = some byte ↔ (address, byte) ∈ image.cells.toList :=
  Std.TreeMap.mem_toList_iff_getElem?_eq_some.symm

theorem isEmpty_iff : image.isEmpty = true ↔ ∀ address, image.get? address = none := by
  rw [isEmpty, Std.TreeMap.isEmpty_iff_forall_not_mem]
  refine forall_congr' fun address => ?_
  rw [← isSome_get?_iff, Bool.not_eq_true, Option.isSome_eq_false_iff, Option.isNone_iff_eq_none]

theorem isEmpty_eq_false_iff :
    image.isEmpty = false ↔ ∃ address, (image.get? address).isSome := by
  rw [← Bool.not_eq_true, isEmpty_iff, not_forall]
  exact exists_congr fun address => Option.ne_none_iff_isSome

theorem origin?_eq_none_iff : image.origin? = none ↔ image.isEmpty = true :=
  Std.TreeMap.minKey?_eq_none_iff

theorem origin?_eq_some_iff {origin : Nat} : image.origin? = some origin ↔
    (image.get? origin).isSome ∧ ∀ address, (image.get? address).isSome → origin ≤ address := by
  rw [origin?, Std.TreeMap.minKey?_eq_some_iff_mem_and_forall, isSome_get?_iff]
  refine and_congr_right fun _ => forall_congr' fun address => ?_
  rw [isSome_get?_iff, Nat.isLE_compare]

theorem forall_mem_spread_segments {p : Nat → Prop}
    (all : ∀ address, (image.get? address).isSome → p address) :
    ∀ cell ∈ spread image.segments, p cell.1 := by
  intro cell member
  apply all
  rw [mem_spread_segments_iff.mp member]
  rfl

end Image

theorem exists_assemble_of_cells {source : List Char} {cells : List (Nat × UInt8)}
    (made : (assemble source).map (·.image.cells.toList) = .ok cells) :
    ∃ program, assemble source = .ok program ∧
      ∀ address byte, program.image.get? address = some byte ↔ (address, byte) ∈ cells := by
  obtain ⟨program, assembled, rfl⟩ := ok_of_map made
  exact ⟨program, assembled, fun _ _ => Image.get?_eq_some_iff_mem⟩

theorem lt_of_isSome_get? {source : List Char} {program : Program}
    (assembled : assemble source = .ok program) {address : Nat}
    (written : (program.image.get? address).isSome) : address < 0x10000 := by
  obtain ⟨layout, cells, -, logged, rfl⟩ := Program.assemble_eq_ok_iff.mp assembled
  obtain ⟨byte, found⟩ := Option.isSome_iff_exists.mp written
  rcases Image.mem_of_get?_writeCells found with member | before
  · exact Program.lt_of_mem_log logged member
  · rw [Image.get?_empty] at before
    cases before

namespace Cpu

def freshByte (address : Nat) : UInt8 :=
  if MemoryMap.isFont address then Font.bytes.getD (address - MemoryMap.fontStart) 0 else 0

theorem byte_load_font {memory after : Memory} (size : memory.size = MemoryMap.memorySize)
    (zeros : ∀ address, memory.byte address = 0)
    (loaded : memory.load Font.bytes MemoryMap.fontStart = .ok after) (address : Nat) :
    after.byte address = freshByte address := by
  have fits : MemoryMap.fontStart + Font.bytes.length ≤ memory.size := by
    rw [size, Font.length_bytes]
    decide
  have stored := Except.ok.inj ((memory.load_of_fits fits).symm.trans loaded)
  rw [← stored, memory.byte_storeAll fits, zeros, freshByte]
  simp only [MemoryMap.isFont_iff]

theorem byte_new (address : Nat) : new.memory.byte address = freshByte address := by
  have zeros (address : Nat) : blank.memory.reset.byte address = 0 := Std.TreeMap.getD_emptyc
  obtain ⟨memory, loaded, -⟩ := Memory.intact_load_font blank.memory.reset rfl
  rw [new, reset, loaded]
  exact byte_load_font rfl zeros loaded address

variable {cpu : Cpu}

theorem touchesFont_iff {bytes : List UInt8} {start : Nat} (inside : start < 0x10000) :
    touchesFont bytes (UInt16.ofNat start) = true ↔
      ∃ address, start ≤ address ∧ address < start + bytes.length ∧
        MemoryMap.isFont address = true := by
  have place : (UInt16.ofNat start).toNat = start := UInt16.toNat_ofNat_of_lt' inside
  have order : MemoryMap.fontStart ≤ MemoryMap.fontLast := by decide
  simp only [touchesFont, place, Bool.and_eq_true, decide_eq_true_eq, Bool.not_eq_true',
    List.isEmpty_eq_false_iff, MemoryMap.isFont]
  constructor
  · rintro ⟨⟨some, low⟩, high⟩
    have long := List.length_pos_iff.mpr some
    exact ⟨max start MemoryMap.fontStart, by omega, by omega, by omega, by omega⟩
  · rintro ⟨address, low, high, first, last⟩
    refine ⟨⟨?_, by omega⟩, by omega⟩
    rintro rfl
    rw [List.length_nil] at high
    omega

/-- Among segments below the end of memory, the loader stops at one with a byte in the character
set. -/
theorem loadSegments_of_font {segments : List (Nat × List UInt8)}
    (size : cpu.memory.size = 0x10000) (below : ∀ cell ∈ spread segments, cell.1 < 0x10000)
    (touching : ∃ cell ∈ spread segments, MemoryMap.isFont cell.1 = true) :
    ∃ segment ∈ segments, cpu.loadSegments segments =
      .error (.romOverlap segment.1 segment.2.length) := by
  induction segments generalizing cpu with
  | nil =>
      obtain ⟨cell, member, -⟩ := touching
      cases member
  | cons segment rest ih =>
      obtain ⟨start, bytes⟩ := segment
      rw [spread_cons] at below touching
      by_cases now : ∃ address, start ≤ address ∧ address < start + bytes.length ∧
          MemoryMap.isFont address = true
      · obtain ⟨address, low, high, font⟩ := now
        obtain ⟨byte, member⟩ := exists_mem_zip_range' low high
        have inside := below _ (List.mem_append_left _ member)
        have start_below : start < 0x10000 := by omega
        have place : (UInt16.ofNat start).toNat = start := UInt16.toNat_ofNat_of_lt' start_below
        have touches := (touchesFont_iff start_below).mpr ⟨address, low, high, font⟩
        refine ⟨_, List.mem_cons_self, ?_⟩
        rw [loadSegments, load, touches, place]
        rfl
      · have loadable (address : Nat) (low : start ≤ address)
            (high : address < start + bytes.length) : Loadable address := by
          obtain ⟨byte, member⟩ := exists_mem_zip_range' low high
          exact ⟨below _ (List.mem_append_left _ member),
            eq_false_of_ne_true fun font => now ⟨address, low, high, font⟩⟩
        have later : ∃ cell ∈ spread rest, MemoryMap.isFont cell.1 = true := by
          obtain ⟨cell, member, font⟩ := touching
          rcases List.mem_append.mp member with here | among
          · have within := List.mem_range'_1.mp (List.of_mem_zip here).1
            exact absurd ⟨cell.1, within.1, within.2, font⟩ now
          · exact ⟨cell, among, font⟩
        let loaded : Cpu := { cpu with memory := cpu.memory.storeAll start bytes }
        have kept : loaded.memory.size = 0x10000 := (cpu.memory.size_storeAll _ _).trans size
        obtain ⟨failing, among, failed⟩ := ih kept
          (fun cell member => below cell (List.mem_append_right _ member)) later
        refine ⟨failing, List.mem_cons_of_mem _ among, ?_⟩
        rw [loadSegments, load_eq_ok size loadable]
        exact failed

theorem byte_storeCells_segments {image : Image} {memory : Memory}
    (below : ∀ address, (image.get? address).isSome → address < memory.size) (address : Nat) :
    (memory.storeCells (spread image.segments)).byte address =
      (image.get? address).getD (memory.byte address) := by
  cases found : image.get? address with
  | some byte =>
      exact Memory.byte_storeCells_of_mem image.pairwise_spread_segments
        (Image.mem_spread_segments_iff.mpr found) (below address (by rw [found]; rfl))
  | none =>
      apply Memory.byte_storeCells_of_absent
      rintro ⟨place, byte⟩ member rfl
      rw [Image.mem_spread_segments_iff.mp member] at found
      cases found

section Program

variable {program : Program} {tracing : Bool}

theorem size_new : new.memory.size = 0x10000 := intact_new.memory.size

theorem memory_setTracing (tracing : Bool) : (cpu.setTracing tracing).memory = cpu.memory := rfl

theorem loadProgram_of_isEmpty (empty : program.image.isEmpty = true) :
    cpu.loadProgram program = .error .emptyProgram := by
  rw [loadProgram, Image.origin?_eq_none_iff.mpr empty]

theorem exists_origin (written : program.image.isEmpty = false) :
    ∃ origin, program.image.origin? = some origin := by
  cases first : program.image.origin? with
  | some origin => exact ⟨origin, rfl⟩
  | none =>
      rw [Image.origin?_eq_none_iff, written] at first
      cases first

theorem loadProgram_eq_ok (size : cpu.memory.size = 0x10000)
    (loadable : ∀ address, (program.image.get? address).isSome → Loadable address)
    {origin : Nat} (first : program.image.origin? = some origin) :
    cpu.loadProgram program = .ok
      ({ cpu with memory := cpu.memory.storeCells (spread program.image.segments) },
        UInt16.ofNat origin) := by
  have written := program.image.forall_mem_spread_segments loadable
  simp only [loadProgram, first, loadSegments_eq_ok size written]

theorem loadProgram_of_font (size : cpu.memory.size = 0x10000)
    (below : ∀ address, (program.image.get? address).isSome → address < 0x10000) {address : Nat}
    (written : (program.image.get? address).isSome)
    (font : MemoryMap.isFont address = true) :
    ∃ segment ∈ program.image.segments,
      cpu.loadProgram program = .error (.memory (.romOverlap segment.1 segment.2.length)) := by
  obtain ⟨byte, found⟩ := Option.isSome_iff_exists.mp written
  have inside := program.image.forall_mem_spread_segments below
  obtain ⟨segment, among, failed⟩ := loadSegments_of_font size inside
    ⟨(address, byte), Image.mem_spread_segments_iff.mpr found, font⟩
  obtain ⟨origin, first⟩ := exists_origin (Image.isEmpty_eq_false_iff.mpr ⟨address, written⟩)
  refine ⟨segment, among, ?_⟩
  simp only [loadProgram, first, failed]

theorem loadProgram_cases (size : cpu.memory.size = 0x10000)
    (below : ∀ address, (program.image.get? address).isSome → address < 0x10000) :
    (program.image.isEmpty = true ∧ cpu.loadProgram program = .error .emptyProgram) ∨
    ((∃ address, (program.image.get? address).isSome ∧ MemoryMap.isFont address = true) ∧
      ∃ segment ∈ program.image.segments, cpu.loadProgram program =
        .error (.memory (.romOverlap segment.1 segment.2.length))) ∨
    (∀ address, (program.image.get? address).isSome → Loadable address) ∧
      ∃ origin, program.image.origin? = some origin ∧ cpu.loadProgram program = .ok
        ({ cpu with memory := cpu.memory.storeCells (spread program.image.segments) },
          UInt16.ofNat origin) := by
  cases empty : program.image.isEmpty with
  | true => exact Or.inl ⟨rfl, loadProgram_of_isEmpty empty⟩
  | false =>
      by_cases font : ∃ address, (program.image.get? address).isSome ∧
          MemoryMap.isFont address = true
      · obtain ⟨address, written, inside⟩ := font
        exact Or.inr (Or.inl ⟨⟨address, written, inside⟩,
          loadProgram_of_font size below written inside⟩)
      · have loadable (address : Nat) (written : (program.image.get? address).isSome) :
            Loadable address :=
          ⟨below address written, eq_false_of_ne_true fun inside => font ⟨address, written, inside⟩⟩
        obtain ⟨origin, first⟩ := exists_origin empty
        exact Or.inr (Or.inr ⟨loadable, origin, first, loadProgram_eq_ok size loadable first⟩)

/-- A new machine loads an assembled program if it has a byte, and none in the character set, and
rejects it otherwise. It starts at the lowest byte, and memory holds the bytes of the program, the
character set, and zeros. -/
theorem new_loads_assembled {source : List Char} (assembled : assemble source = .ok program)
    (tracing : Bool) :
    let fresh := new.setTracing tracing
    ((∃ result, fresh.loadProgram program = .ok result) ↔ program.image.isEmpty = false ∧
      ∀ address, (program.image.get? address).isSome → ¬ (0xF000 ≤ address ∧ address ≤ 0xF3FF)) ∧
    (∀ error, fresh.loadProgram program = .error error →
      (error = .emptyProgram ∧ program.image.isEmpty = true) ∨
      ∃ segment ∈ program.image.segments,
        error = .memory (.romOverlap segment.1 segment.2.length)) ∧
    ∀ loaded origin, fresh.loadProgram program = .ok (loaded, origin) →
      (program.image.get? origin.toNat).isSome ∧
      (∀ address, (program.image.get? address).isSome → origin.toNat ≤ address) ∧
      ∀ address < 0x10000, loaded.memory.read address =
        .ok ((program.image.get? address).getD
          (if 0xF000 ≤ address ∧ address ≤ 0xF3FF then Font.bytes.getD (address - 0xF000) 0
            else 0)) := by
  intro fresh
  have size : fresh.memory.size = 0x10000 := size_new
  have font (address : Nat) :
      MemoryMap.isFont address = true ↔ 0xF000 ≤ address ∧ address ≤ 0xF3FF := by
    simp only [MemoryMap.isFont, Bool.and_eq_true, decide_eq_true_eq]
    rfl
  rcases loadProgram_cases size fun address => lt_of_isSome_get? assembled with
    ⟨empty, failed⟩ | ⟨⟨address, written, inside⟩, segment, among, failed⟩ |
      ⟨loadable, origin, first, loaded⟩
  · rw [failed]
    refine ⟨⟨?_, fun both => ?_⟩, ?_, ?_⟩
    · rintro ⟨_, ⟨⟩⟩
    · rw [empty] at both
      cases both.1
    · rintro _ ⟨⟩
      exact Or.inl ⟨rfl, empty⟩
    · rintro _ _ ⟨⟩
  · rw [failed]
    refine ⟨⟨?_, fun both => ?_⟩, ?_, ?_⟩
    · rintro ⟨_, ⟨⟩⟩
    · exact absurd ((font address).mp inside) (both.2 address written)
    · rintro _ ⟨⟩
      exact Or.inr ⟨segment, among, rfl⟩
    · rintro _ _ ⟨⟩
  · rw [loaded]
    obtain ⟨lowest, least⟩ := Image.origin?_eq_some_iff.mp first
    refine ⟨iff_of_true ⟨_, rfl⟩ ⟨Image.isEmpty_eq_false_iff.mpr ⟨origin, lowest⟩, ?_⟩, ?_, ?_⟩
    · intro address written inside
      exact Bool.false_ne_true ((loadable address written).2.symm.trans ((font address).mpr inside))
    · rintro _ ⟨⟩
    · rintro _ _ ⟨⟩
      have place : (UInt16.ofNat origin).toNat = origin :=
        UInt16.toNat_ofNat_of_lt' (loadable origin lowest).1
      rw [place]
      refine ⟨lowest, least, fun address inside => ?_⟩
      have within : address < fresh.memory.size := size ▸ inside
      have below (address : Nat) (written : (program.image.get? address).isSome) :
          address < fresh.memory.size := size ▸ (loadable address written).1
      have blank : fresh.memory.byte address = freshByte address := by
        rw [memory_setTracing, byte_new]
      rw [Memory.read, Memory.size_storeCells, if_pos within, byte_storeCells_segments below, blank,
        freshByte, if_congr (font address) rfl rfl, MemoryMap.fontStart]

theorem new_loads_assembled_around_font :
    let source := ".ORG $F400\n.BYTE 2\n.ORG $EFFF\n.BYTE 1".toList
    ∃ program loaded origin, assemble source = .ok program ∧
      (new.setTracing true).loadProgram program = .ok (loaded, origin) ∧
      loaded.memory.read 0xEFFF = .ok 1 ∧ loaded.memory.read 0xF400 = .ok 2 ∧
      loaded.memory.read 0xF3FF = .ok (Font.bytes.getD 0x3FF 0) := by
  intro source
  have cells : (assemble source).map (·.image.cells.toList) = .ok [(0xEFFF, 1), (0xF400, 2)] := by
    decide +kernel
  obtain ⟨program, assembled, stands⟩ := exists_assemble_of_cells cells
  have low := (stands 0xEFFF 1).mpr (by decide)
  have high := (stands 0xF400 2).mpr (by decide)
  have apart (address : Nat) (written : (program.image.get? address).isSome) :
      ¬ (0xF000 ≤ address ∧ address ≤ 0xF3FF) := by
    obtain ⟨byte, found⟩ := Option.isSome_iff_exists.mp written
    have among := (stands address byte).mp found
    simp only [List.mem_cons, Prod.mk.injEq, List.not_mem_nil, or_false] at among
    omega
  have gap : program.image.get? 0xF3FF = none := by
    rw [Option.eq_none_iff_forall_ne_some]
    intro byte found
    exact apart 0xF3FF (by rw [found]; rfl) (by decide)
  have some : program.image.isEmpty = false :=
    Image.isEmpty_eq_false_iff.mpr ⟨0xEFFF, by rw [low]; rfl⟩
  obtain ⟨succeeds, -, holds⟩ := new_loads_assembled assembled true
  obtain ⟨⟨loaded, origin⟩, done⟩ := succeeds.mpr ⟨some, apart⟩
  obtain ⟨-, -, bytes⟩ := holds loaded origin done
  refine ⟨program, loaded, origin, assembled, done, ?_, ?_, ?_⟩
  · rw [bytes 0xEFFF (by decide), low, Option.getD_some]
  · rw [bytes 0xF400 (by decide), high, Option.getD_some]
  · rw [bytes 0xF3FF (by decide), gap, Option.getD_none, if_pos (by decide)]

end Program

end Cpu

end EightBit
