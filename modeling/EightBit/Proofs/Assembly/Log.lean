import EightBit.Proofs.Assembly.Emission
import EightBit.Proofs.Assembly.Values
import EightBit.Proofs.Image.Log

/-!
The log of the second pass: every byte that it writes, in order. A source is assembled exactly if
it has a layout and its statements have a log, and the program is what the log makes of an empty
image.
-/
namespace EightBit.Program

/-- The bytes that statements write, each at its address. There is no log if a statement cannot be
encoded. -/
def log? (symbols : SymbolTable) : List Placed → Option (List (Nat × UInt8))
  | [] => some []
  | placed :: rest =>
    match placed.encode symbols with
    | .ok bytes => (log? symbols rest).map (cellsFrom placed.address bytes ++ ·)
    | .error _ => none

variable {symbols : SymbolTable} {statements : List Placed} {cells : List (Nat × UInt8)}

theorem log?_cons_of_encode {placed : Placed} {bytes : List UInt8}
    (encoded : placed.encode symbols = .ok bytes) (rest : List Placed) :
    log? symbols (placed :: rest) =
      (log? symbols rest).map (cellsFrom placed.address bytes ++ ·) := by
  rw [log?, encoded]

theorem log?_cons_eq_some_iff {placed : Placed} {rest : List Placed} :
    log? symbols (placed :: rest) = some cells ↔
      ∃ bytes more, placed.encode symbols = .ok bytes ∧ log? symbols rest = some more ∧
        cells = cellsFrom placed.address bytes ++ more := by
  cases encoded : placed.encode symbols with
  | error reason => simp [log?, encoded]
  | ok bytes =>
      rw [log?_cons_of_encode encoded, Option.map_eq_some_iff]
      constructor
      · rintro ⟨more, later, rfl⟩
        exact ⟨bytes, more, rfl, later, rfl⟩
      · rintro ⟨_, more, ⟨⟩, later, rfl⟩
        exact ⟨more, later, rfl⟩

theorem log?_append_eq_some_iff {front back : List Placed} :
    log? symbols (front ++ back) = some cells ↔
      ∃ early late, log? symbols front = some early ∧ log? symbols back = some late ∧
        cells = early ++ late := by
  induction front generalizing cells with
  | nil => simp [log?]
  | cons placed rest ih =>
      rw [List.cons_append, log?_cons_eq_some_iff]
      constructor
      · rintro ⟨bytes, more, encoded, later, rfl⟩
        obtain ⟨early, late, first, second, rfl⟩ := ih.mp later
        refine ⟨_, late, log?_cons_eq_some_iff.mpr ⟨bytes, early, encoded, first, rfl⟩, second, ?_⟩
        rw [List.append_assoc]
      · rintro ⟨_, late, first, second, rfl⟩
        obtain ⟨bytes, early, encoded, later, rfl⟩ := log?_cons_eq_some_iff.mp first
        exact ⟨bytes, early ++ late, encoded, ih.mpr ⟨early, late, later, second, rfl⟩,
          List.append_assoc _ _ _⟩

theorem encode_of_log (logged : log? symbols statements = some cells) :
    ∀ placed ∈ statements, ∃ bytes, placed.encode symbols = .ok bytes ∧
      ∀ cell ∈ cellsFrom placed.address bytes, cell ∈ cells := by
  induction statements generalizing cells with
  | nil => exact List.forall_mem_nil _
  | cons first rest ih =>
      obtain ⟨bytes, more, encoded, later, rfl⟩ := log?_cons_eq_some_iff.mp logged
      intro placed member
      rcases List.mem_cons.mp member with rfl | other
      · exact ⟨bytes, encoded, fun cell => List.mem_append_left _⟩
      · obtain ⟨made, known, within⟩ := ih later placed other
        exact ⟨made, known, fun cell among => List.mem_append_right _ (within cell among)⟩

theorem exists_of_mem_log (logged : log? symbols statements = some cells) {cell : Nat × UInt8}
    (member : cell ∈ cells) : ∃ placed ∈ statements, ∃ bytes,
      placed.encode symbols = .ok bytes ∧ cell ∈ cellsFrom placed.address bytes := by
  induction statements generalizing cells with
  | nil =>
      cases logged
      cases member
  | cons first rest ih =>
      obtain ⟨bytes, more, encoded, later, rfl⟩ := log?_cons_eq_some_iff.mp logged
      rcases List.mem_append.mp member with now | among
      · exact ⟨first, List.mem_cons_self, bytes, encoded, now⟩
      · obtain ⟨placed, inside, made⟩ := ih later among
        exact ⟨placed, List.mem_cons_of_mem _ inside, made⟩

theorem lt_of_mem_log (logged : log? symbols statements = some cells) {cell : Nat × UInt8}
    (member : cell ∈ cells) : cell.1 < 0x10000 := by
  obtain ⟨placed, -, bytes, -, among⟩ := exists_of_mem_log logged member
  exact lt_of_mem_cellsFrom among

/-- Statements mean the same under tables with the same values, and on other lines. -/
theorem log?_of_values {few many : SymbolTable} {others : List Placed} (kept : few.ValuesIn many)
    (same : List.Forall₂ Placed.SameCode statements others)
    (logged : log? few statements = some cells) : log? many others = some cells := by
  induction same generalizing cells with
  | nil => exact logged
  | cons first rest ih =>
      obtain ⟨bytes, more, encoded, later, rfl⟩ := log?_cons_eq_some_iff.mp logged
      rw [first.address]
      exact log?_cons_eq_some_iff.mpr ⟨bytes, more, first.encode kept encoded, ih later, rfl⟩

theorem emit_of_log (logged : log? symbols statements = some cells) (image : Image) :
    (emit symbols image statements).errors = [] ∧
      ((emit symbols image statements).image,
        (emit symbols image statements).overwrites.map (·.address)) = image.writeCells cells := by
  induction statements generalizing image cells with
  | nil =>
      cases logged
      exact ⟨rfl, rfl⟩
  | cons placed rest ih =>
      obtain ⟨bytes, more, encoded, later, rfl⟩ := log?_cons_eq_some_iff.mp logged
      have written := image.writeAll_eq_writeCells placed.line placed.address bytes
      obtain ⟨clean, made⟩ := ih later (image.writeAll placed.line placed.address bytes).1
      rw [emit_cons encoded, Image.writeCells_append, ← written, ← made]
      exact ⟨clean, by rw [List.map_append]⟩

theorem exists_log_of_emit {image : Image} (clean : (emit symbols image statements).errors = []) :
    ∃ cells, log? symbols statements = some cells := by
  induction statements generalizing image with
  | nil => exact ⟨[], rfl⟩
  | cons placed rest ih =>
      obtain ⟨bytes, encoded⟩ := encode_of_emit clean placed List.mem_cons_self
      rw [emit_cons encoded] at clean
      obtain ⟨more, later⟩ := ih clean
      exact ⟨_, log?_cons_eq_some_iff.mpr ⟨bytes, more, encoded, later, rfl⟩⟩

def ofLog (symbols : SymbolTable) (cells : List (Nat × UInt8)) : Program :=
  ⟨(Image.empty.writeCells cells).1, (Image.empty.writeCells cells).2, symbols.sort⟩

theorem ofLayout_eq_ok_iff {layout : Layout} {program : Program} :
    (ofLayout layout).1 = .ok program ↔
      ∃ cells, log? layout.symbols layout.statements = some cells ∧
        program = ofLog layout.symbols cells := by
  constructor
  · intro made
    simp only [ofLayout] at made
    split at made
    · rename_i clean
      cases made
      obtain ⟨cells, logged⟩ := exists_log_of_emit (List.isEmpty_iff.mp clean)
      refine ⟨cells, logged, ?_⟩
      rw [ofLog, ← (emit_of_log logged .empty).2]
    · cases made
  · rintro ⟨cells, logged, rfl⟩
    obtain ⟨clean, made⟩ := emit_of_log logged .empty
    simp only [ofLayout, clean, List.isEmpty_nil, if_true, ofLog, ← made]

theorem assemble_eq_ok_iff {source : List Char} {program : Program} :
    assemble source = .ok program ↔
      ∃ layout cells, (Layout.ofSource source).1 = .ok layout ∧
        log? layout.symbols layout.statements = some cells ∧
        program = ofLog layout.symbols cells := by
  rw [assemble_eq]
  cases laid : (Layout.ofSource source).1 with
  | error errors =>
      constructor
      · nofun
      · rintro ⟨layout, cells, same, -⟩
        cases same
  | ok layout =>
      have made : ((Except.ok layout).mapError (AssemblyError.mk .symbols)).bind
          (fun layout => (ofLayout layout).1.mapError (AssemblyError.mk .codeGeneration)) =
            .ok program ↔ (ofLayout layout).1 = .ok program := by
        change (ofLayout layout).1.mapError _ = _ ↔ _
        cases (ofLayout layout).1 <;> simp [Except.mapError]
      rw [made, ofLayout_eq_ok_iff]
      constructor
      · rintro ⟨cells, logged, rfl⟩
        exact ⟨layout, cells, rfl, logged, rfl⟩
      · rintro ⟨_, cells, ⟨⟩, logged, rfl⟩
        exact ⟨cells, logged, rfl⟩

end EightBit.Program
