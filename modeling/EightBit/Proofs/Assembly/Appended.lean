import EightBit.Proofs.Assembly.Log
import EightBit.Proofs.Layout.Appended

namespace EightBit

def Placed.Writes (symbols : SymbolTable) (placed : Placed) (address : Nat) : Prop :=
  ∃ bytes, placed.encode symbols = .ok bytes ∧
    ∃ cell ∈ cellsFrom placed.address bytes, cell.1 = address

namespace Program

variable {symbols : SymbolTable}

theorem exists_writes_of_mem_log {statements : List Placed} {cells : List (Nat × UInt8)}
    (logged : log? symbols statements = some cells) {cell : Nat × UInt8} (member : cell ∈ cells) :
    ∃ placed ∈ statements, placed.Writes symbols cell.1 := by
  obtain ⟨placed, among, bytes, encoded, written⟩ := exists_of_mem_log logged member
  exact ⟨placed, among, bytes, encoded, cell, written, rfl⟩

end Program

theorem log_append {front : List Char} (back : List Char) {program longer : Program}
    (assembled : assemble front = .ok program)
    (later : assemble (front ++ '\n' :: back) = .ok longer) :
    ∃ layout final added cells more, (Layout.ofSource front).1 = .ok layout ∧
      (Layout.ofSource (front ++ '\n' :: back)).1 = .ok final ∧
      final.statements = layout.statements ++ added ∧
      layout.symbols.ValuesIn final.symbols ∧
      Program.log? layout.symbols layout.statements = some cells ∧
      Program.log? final.symbols added = some more ∧
      program = .ofLog layout.symbols cells ∧ longer = .ofLog final.symbols (cells ++ more) := by
  obtain ⟨layout, cells, laid, logged, rfl⟩ := Program.assemble_eq_ok_iff.mp assembled
  obtain ⟨final, all, laid', logged', rfl⟩ := Program.assemble_eq_ok_iff.mp later
  obtain ⟨added, statements, -, -, grows⟩ := Layout.ofSource_append_of_ok back laid laid'
  have kept : layout.symbols.ValuesIn final.symbols := grows.valuesIn
  rw [statements] at logged'
  obtain ⟨early, more, first, second, rfl⟩ := Program.log?_append_eq_some_iff.mp logged'
  have again := Program.log?_of_values kept
    (List.forall₂_same.mpr fun placed _ => Placed.SameCode.refl placed) logged
  cases first.symm.trans again
  exact ⟨layout, final, added, cells, more, laid, laid', statements, kept, logged, second, rfl, rfl⟩

/-- Lines behind a source do not disturb it. Its faults are reported before theirs. Its statements
and its symbols stay as they are, and no fault behind it is told of it. Its statements are encoded
as before, and what they write only changes where a statement behind them writes. -/
theorem append_disturbs_nothing (front back : List Char) :
    (∀ faults, (Layout.ofSource front).1 = .error faults →
      ∃ more, (Layout.ofSource (front ++ '\n' :: back)).1 = .error (faults ++ more)) ∧
    (∀ layout, (Layout.ofSource front).1 = .ok layout →
      (∀ longer, (Layout.ofSource (front ++ '\n' :: back)).1 = .ok longer →
        (∃ added, longer.statements = layout.statements ++ added ∧
          ∀ placed ∈ added, (Text.lines front).length < placed.line) ∧
        layout.symbols.entries <+: longer.symbols.entries) ∧
      ∀ faults, (Layout.ofSource (front ++ '\n' :: back)).1 = .error faults →
        ∀ fault ∈ faults, (Text.lines front).length < fault.line) ∧
    ∀ program longer, assemble front = .ok program →
      assemble (front ++ '\n' :: back) = .ok longer →
      ∃ layout final added, (Layout.ofSource front).1 = .ok layout ∧
        (Layout.ofSource (front ++ '\n' :: back)).1 = .ok final ∧
        final.statements = layout.statements ++ added ∧
        (∀ placed ∈ layout.statements, ∃ bytes, placed.encode layout.symbols = .ok bytes ∧
          placed.encode final.symbols = .ok bytes) ∧
        ∀ address, (∀ placed ∈ added, ¬ placed.Writes final.symbols address) →
          longer.image.get? address = program.image.get? address := by
  refine ⟨?_, ?_, ?_⟩
  · intro faults rejected
    exact Layout.ofSource_append_of_error back rejected
  · intro layout laid
    refine ⟨fun longer later => ?_, fun faults => Layout.line_of_mem_ofSource_append back laid⟩
    obtain ⟨added, statements, behind, symbols, -⟩ := Layout.ofSource_append_of_ok back laid later
    exact ⟨⟨added, statements, behind⟩, symbols⟩
  · intro program longer assembled later
    obtain ⟨layout, final, added, cells, more, laid, laid', statements, kept, logged, logged', rfl,
      rfl⟩ := log_append back assembled later
    refine ⟨layout, final, added, laid, laid', statements, ?_, ?_⟩
    · intro placed member
      obtain ⟨bytes, encoded, -⟩ := Program.encode_of_log logged placed member
      exact ⟨bytes, encoded, (Placed.SameCode.refl placed).encode kept encoded⟩
    · intro address untouched
      have absent : ∀ cell ∈ more, cell.1 ≠ address := by
        rintro cell member rfl
        obtain ⟨placed, among, writes⟩ := Program.exists_writes_of_mem_log logged' member
        exact untouched placed among writes
      rw [Program.ofLog, Program.ofLog, Image.writeCells_append,
        Image.get?_writeCells_of_absent absent]

theorem append_disturbs_nothing_overwritten :
    let front := "JMP end\nend: STA $10".toList
    let back := ".ORG 1\n.BYTE 9".toList
    ∃ program longer, assemble front = .ok program ∧
      assemble (front ++ '\n' :: back) = .ok longer ∧
      ∀ address, address ≠ 1 → longer.image.get? address = program.image.get? address := by
  intro front back
  let added : Placed := ⟨4, 28, 1, ⟨0, 5⟩, .bytes [.value (.number 9)]⟩
  have accepted : (assemble front).isOk = true := by decide +kernel
  have accepted' : (assemble (front ++ '\n' :: back)).isOk = true := by decide +kernel
  have laidOut : (Layout.ofSource (front ++ '\n' :: back)).1.map (·.statements) =
      (Layout.ofSource front).1.map (·.statements ++ [added]) := by decide +kernel
  cases assembled : assemble front with
  | error error =>
      rw [assembled] at accepted
      cases accepted
  | ok program =>
      cases later : assemble (front ++ '\n' :: back) with
      | error error =>
          rw [later] at accepted'
          cases accepted'
      | ok longer =>
          obtain ⟨layout, final, behind, laid, laid', statements, -, kept⟩ :=
            (append_disturbs_nothing front back).2.2 program longer assembled later
          rw [laid, laid'] at laidOut
          cases List.append_cancel_left (statements.symm.trans (Except.ok.inj laidOut))
          refine ⟨program, longer, rfl, rfl, fun address other => kept address ?_⟩
          rintro placed member ⟨bytes, encoded, cell, written, rfl⟩
          cases List.mem_singleton.mp member
          cases encoded
          rw [cellsFrom, cellsFrom, List.mem_singleton] at written
          cases written
          exact other rfl

end EightBit
