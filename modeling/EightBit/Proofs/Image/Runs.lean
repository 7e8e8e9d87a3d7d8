import EightBit.Assembly
import EightBit.Proofs.Image.Log
import EightBit.Proofs.Image.Segments

/-!
The segments of an image are its longest runs: in the order of their addresses, with an address
without a byte behind each of them, and together they have every byte once.
-/
namespace EightBit

abbrev Ascending (cells : List (Nat × UInt8)) : Prop :=
  cells.Pairwise fun first second => first.1 < second.1

abbrev Separated (segments : List (Nat × List UInt8)) : Prop :=
  segments.Pairwise fun first second => first.1 + first.2.length < second.1

theorem exists_of_joinCells_eq_cons {cells : List (Nat × UInt8)} {start : Nat}
    {bytes : List UInt8} {more : List (Nat × List UInt8)}
    (joined : joinCells cells = (start, bytes) :: more) :
    ∃ byte rest, cells = (start, byte) :: rest := by
  cases cells with
  | nil => cases joined
  | cons cell rest =>
      obtain ⟨address, byte⟩ := cell
      rw [joinCells] at joined
      split at joined
      · cases joined
        exact ⟨byte, rest, rfl⟩
      · split at joined
        · cases joined
          exact ⟨byte, rest, rfl⟩
        · cases joined
          exact ⟨byte, rest, rfl⟩

theorem ne_nil_of_mem_joinCells {cells : List (Nat × UInt8)} {segment : Nat × List UInt8}
    (member : segment ∈ joinCells cells) : segment.2 ≠ [] := by
  fun_induction joinCells cells with
  | case1 => cases member
  | case2 address byte rest none ih =>
      cases List.mem_singleton.mp member
      exact List.cons_ne_nil _ _
  | case3 address byte rest bytes more joined ih =>
      rw [joined] at ih
      rcases List.mem_cons.mp member with rfl | later
      · exact List.cons_ne_nil _ _
      · exact ih (List.mem_cons_of_mem _ later)
  | case4 address byte rest start bytes more joined apart ih =>
      rw [joined] at ih
      rcases List.mem_cons.mp member with rfl | later
      · exact List.cons_ne_nil _ _
      · exact ih later

theorem separated_joinCells {cells : List (Nat × UInt8)} (ascending : Ascending cells) :
    Separated (joinCells cells) := by
  fun_induction joinCells cells with
  | case1 => exact .nil
  | case2 address byte rest none ih => exact List.pairwise_singleton _ _
  | case3 address byte rest bytes more joined ih =>
      have later := ih ascending.of_cons
      rw [joined, Separated, List.pairwise_cons] at later
      refine List.pairwise_cons.mpr ⟨fun segment member => ?_, later.2⟩
      have gap := later.1 segment member
      dsimp only [List.length_cons] at gap ⊢
      omega
  | case4 address byte rest start bytes more joined apart ih =>
      have later := ih ascending.of_cons
      rw [joined] at later
      obtain ⟨first, others, rfl⟩ := exists_of_joinCells_eq_cons joined
      have below : address < start := List.rel_of_pairwise_cons ascending List.mem_cons_self
      have gap : address + 1 < start := by omega
      refine List.pairwise_cons.mpr ⟨fun segment member => ?_, later⟩
      rcases List.mem_cons.mp member with rfl | behind
      · exact gap
      · have next := List.rel_of_pairwise_cons later behind
        dsimp only at next
        rw [List.length_singleton]
        omega

theorem exists_of_mem_spread {segments : List (Nat × List UInt8)} {cell : Nat × UInt8}
    (member : cell ∈ spread segments) :
    ∃ segment ∈ segments, segment.1 ≤ cell.1 ∧ cell.1 < segment.1 + segment.2.length := by
  obtain ⟨segment, known, zipped⟩ := List.mem_flatMap.mp member
  have place := List.mem_range'_1.mp (List.of_mem_zip zipped).1
  exact ⟨segment, known, place⟩

theorem exists_mem_spread {segments : List (Nat × List UInt8)} {segment : Nat × List UInt8}
    (member : segment ∈ segments) {address : Nat} (low : segment.1 ≤ address)
    (high : address < segment.1 + segment.2.length) :
    ∃ byte, (address, byte) ∈ spread segments := by
  obtain ⟨byte, zipped⟩ := exists_mem_zip_range' low high
  exact ⟨byte, List.mem_flatMap.mpr ⟨segment, member, zipped⟩⟩

theorem length_spread (segments : List (Nat × List UInt8)) :
    (spread segments).length = segments.foldr (fun segment sum => segment.2.length + sum) 0 := by
  induction segments with
  | nil => rfl
  | cons segment rest ih =>
      rw [spread_cons, List.length_append, List.length_zip, List.length_range', Nat.min_self, ih,
        List.foldr_cons]

theorem Separated.apart {segments : List (Nat × List UInt8)} (separated : Separated segments) :
    ∀ ⦃first⦄, first ∈ segments → ∀ ⦃second⦄, second ∈ segments → first = second ∨
      first.1 + first.2.length < second.1 ∨ second.1 + second.2.length < first.1 := by
  apply List.Pairwise.forall_of_forall_of_flip
  · exact fun segment _ => Or.inl rfl
  · exact separated.imp fun before => Or.inr (Or.inl before)
  · exact separated.imp fun before => Or.inr (Or.inr before)

theorem Separated.not_mem_spread {segments : List (Nat × List UInt8)}
    (separated : Separated segments) {segment : Nat × List UInt8} (member : segment ∈ segments)
    {cell : Nat × UInt8}
    (around : cell.1 + 1 = segment.1 ∨ cell.1 = segment.1 + segment.2.length) :
    cell ∉ spread segments := by
  intro present
  obtain ⟨other, known, low, high⟩ := exists_of_mem_spread present
  rcases separated.apart known member with rfl | before | behind
  · omega
  · omega
  · omega

namespace Image

/-- The images that writes lead to, from the empty one, with the log of their single bytes. -/
inductive Reached : List (Nat × UInt8) → Image → Prop
  | empty : Reached [] .empty
  | write {log : List (Nat × UInt8)} {image : Image} (before : Reached log image)
      (line address : Nat) (bytes : List UInt8) :
      Reached (log ++ cellsFrom address bytes) (image.writeAll line address bytes).1

theorem get?_writeCells (image : Image) (cells : List (Nat × UInt8)) (address : Nat) :
    (image.writeCells cells).1.get? address =
      (cells.reverse.lookup address).or (image.get? address) := by
  induction cells generalizing image with
  | nil => rfl
  | cons cell rest ih =>
      obtain ⟨place, byte⟩ := cell
      rw [writeCells, ih, get?_write, List.reverse_cons, List.lookup_append, Option.or_assoc,
        List.lookup_cons]
      by_cases same : address = place
      · rw [if_pos same, same, beq_self_eq_true]
        rfl
      · rw [if_neg same, beq_false_of_ne same]
        rfl

namespace Reached

variable {log : List (Nat × UInt8)} {image : Image}

theorem eq_writeCells (reached : Reached log image) : image = (Image.empty.writeCells log).1 := by
  induction reached with
  | empty => rfl
  | @write log image before line start bytes ih =>
      have same := congrArg Prod.fst (image.writeAll_eq_writeCells line start bytes)
      dsimp only at same
      rw [same, writeCells_append, ← ih]

theorem lt_of_mem (reached : Reached log image) {cell : Nat × UInt8} (member : cell ∈ log) :
    cell.1 < 0x10000 := by
  induction reached with
  | empty => cases member
  | write before line start bytes ih =>
      rcases List.mem_append.mp member with early | written
      · exact ih early
      · exact lt_of_mem_cellsFrom written

theorem get?_eq (reached : Reached log image) (address : Nat) :
    image.get? address = log.reverse.lookup address := by
  rw [reached.eq_writeCells, get?_writeCells, get?_empty, Option.or_none]

theorem lt_of_get? (reached : Reached log image) {address : Nat} {byte : UInt8}
    (found : image.get? address = some byte) : address < 0x10000 := by
  rw [reached.eq_writeCells] at found
  rcases mem_of_get?_writeCells found with written | early
  · exact reached.lt_of_mem written
  · cases (get?_empty address).symm.trans early

end Reached

theorem ascending_spread_segments (image : Image) : Ascending (spread image.segments) := by
  rw [spread_segments]
  exact Std.TreeMap.ordered_keys_toList.imp fun before => Nat.compare_eq_lt.mp before

theorem separated_segments (image : Image) : Separated image.segments := by
  apply separated_joinCells
  exact Std.TreeMap.ordered_keys_toList.imp fun before => Nat.compare_eq_lt.mp before

variable {image : Image}

theorem longest_of_mem_segments {segment : Nat × List UInt8} (member : segment ∈ image.segments) :
    segment.2 ≠ [] ∧ image.get? (segment.1 + segment.2.length) = none ∧
      ∀ before, before + 1 = segment.1 → image.get? before = none := by
  have absent {address : Nat}
      (around : address + 1 = segment.1 ∨ address = segment.1 + segment.2.length) :
      image.get? address = none := by
    refine Option.eq_none_iff_forall_ne_some.mpr fun byte found => ?_
    have present := mem_spread_segments_iff.mpr found
    exact (separated_segments image).not_mem_spread member around present
  exact ⟨ne_nil_of_mem_joinCells member, absent (Or.inr rfl),
    fun before next => absent (Or.inl next)⟩

theorem Reached.le_of_mem_segments {log : List (Nat × UInt8)} (reached : Reached log image)
    {segment : Nat × List UInt8} (member : segment ∈ image.segments) :
    segment.1 + segment.2.length ≤ 0x10000 := by
  have long := List.length_pos_iff.mpr (longest_of_mem_segments member).1
  have last : segment.1 + segment.2.length - 1 < segment.1 + segment.2.length := by omega
  obtain ⟨byte, present⟩ := exists_mem_spread member (by omega) last
  have below := reached.lt_of_get? (mem_spread_segments_iff.mp present)
  omega

theorem length_segments (image : Image) :
    image.segments.foldr (fun segment sum => segment.2.length + sum) 0 = image.size := by
  rw [← length_spread, spread_segments, Std.TreeMap.length_toList, size]

theorem get?_of_segments {other : Image} (same : other.segments = image.segments) (address : Nat) :
    other.get? address = image.get? address := by
  refine Option.ext fun byte => ?_
  rw [← mem_spread_segments_iff, ← mem_spread_segments_iff, same]

end Image

namespace Program

theorem exists_reached_emit {log : List (Nat × UInt8)} {image : Image}
    (reached : Image.Reached log image) (symbols : SymbolTable) (statements : List Placed) :
    ∃ longer, Image.Reached longer (emit symbols image statements).image := by
  induction statements generalizing log image with
  | nil => exact ⟨log, reached⟩
  | cons placed rest ih =>
      rw [emit]
      cases placed.encode symbols with
      | error fault => exact ih reached
      | ok bytes => exact ih (reached.write placed.line placed.address bytes)

theorem exists_reached {layout : Layout} {program : Program}
    (made : (ofLayout layout).1 = .ok program) : ∃ log, Image.Reached log program.image := by
  rw [ofLayout] at made
  split at made
  · cases made
    exact exists_reached_emit .empty layout.symbols layout.statements
  · cases made

end Program

namespace Image

/-- Whatever was written, the segments of an image are the longest runs of its bytes, in the order
of their addresses, and they have each byte once: the one that was written last to its address. The
image of a program is such an image. -/
theorem segments_are_longest_runs :
    (∀ log image, Reached log image →
      (∀ segment ∈ image.segments, segment.2 ≠ [] ∧ segment.1 + segment.2.length ≤ 0x10000 ∧
        image.get? (segment.1 + segment.2.length) = none ∧
        ∀ before, before + 1 = segment.1 → image.get? before = none) ∧
      Separated image.segments ∧ Ascending (spread image.segments) ∧
      (∀ address byte, (address, byte) ∈ spread image.segments ↔ image.get? address = some byte) ∧
      (∀ address, image.get? address = log.reverse.lookup address) ∧
      image.segments.foldr (fun segment sum => segment.2.length + sum) 0 = image.size ∧
      ∀ others other, Reached others other → other.segments = image.segments →
        ∀ address, other.get? address = image.get? address) ∧
    ∀ layout program, (Program.ofLayout layout).1 = .ok program →
      ∃ log, Reached log program.image := by
  refine ⟨fun log image reached => ⟨?_, separated_segments image,
    ascending_spread_segments image, ?_, reached.get?_eq, length_segments image, ?_⟩,
    fun layout program made => Program.exists_reached made⟩
  · intro segment member
    obtain ⟨some, behind, before⟩ := longest_of_mem_segments member
    exact ⟨some, reached.le_of_mem_segments member, behind, before⟩
  · exact fun address byte => mem_spread_segments_iff
  · exact fun others other _ same address => get?_of_segments same address

theorem segments_are_longest_runs_at_both_ends :
    let around := (empty.writeAll 1 0xFFFE [1, 2, 3]).1
    let image := ((around.writeAll 2 5 [6]).1.writeAll 3 5 [7]).1
    let image := (image.writeAll 4 1 [4]).1
    image.segments = [(0, [3, 4]), (5, [7]), (0xFFFE, [1, 2])] ∧ Separated image.segments ∧
      image.get? 2 = none ∧ image.get? 5 = some 7 ∧ image.size = 5 ∧
      ∃ log, Reached log (empty.writeAll 1 0 [65]).1 := by
  intro around twice image
  let placed : Placed := ⟨1, 0, 0, ⟨0, 0⟩, .bytes [.string ['A']]⟩
  have made : (Program.ofLayout ⟨[placed], .empty⟩).1 =
      .ok ⟨(empty.writeAll 1 0 [65]).1, [], SymbolTable.empty.sort⟩ := by rfl
  have reached := (((Reached.empty.write 1 0xFFFE [1, 2, 3]).write 2 5 [6]).write 3 5 [7]).write
    4 1 [4]
  have segments : image.segments = [(0, [3, 4]), (5, [7]), (0xFFFE, [1, 2])] := by decide +kernel
  obtain ⟨longest, separated, -, -, written, total, -⟩ :=
    segments_are_longest_runs.1 _ image reached
  have gap := (longest (0, [3, 4]) (segments ▸ List.mem_cons_self)).2.2.1
  exact ⟨segments, separated, gap, written 5, total.symm.trans (by rw [segments]; rfl),
    segments_are_longest_runs.2 _ _ made⟩

end Image

end EightBit
