import EightBit.Proofs.Assembly.Log
import EightBit.Proofs.Layout.Definitions

namespace EightBit.Layout

def faults (source : List Char) : List Diagnostic :=
  match (ofSource source).1 with
  | .ok _ => []
  | .error errors => errors

def duplicates (source : List Char) (here : SourceLine) : List Diagnostic :=
  (faults source).filter fun fault => fault.fault.isDuplicate && fault.line = here.number

/-- The entry of the table comes from the definition on the line: it has the name in capitals, and
the symbol with the value, the kind and the line of the definition. -/
def Enters (source : List Char) (here : SourceLine) (entry : String × Symbol) : Prop :=
  ∃ front back name, SourceLine.ofSource source = front ++ here :: back ∧
    (stateAfter front).defines? here = some (name, entry.2) ∧
    entry.1 = SymbolTable.key name.name

variable {source : List Char} {front back : List SourceLine} {here : SourceLine}

theorem faults_eq (source : List Char) :
    faults source = (run (SourceLine.ofSource source) .initial).2.errors := by
  rw [faults, ofSource_fst]
  split
  · rename_i clean
    split at clean
    · rename_i none
      exact (List.isEmpty_iff.mp none).symm
    · cases clean
  · rename_i found
    split at found
    · cases found
    · cases found
      rfl

theorem filter_line_of_run (state : State) {lines : List SourceLine} {number : Nat}
    (apart : ∀ other ∈ lines, other.number ≠ number) :
    (run lines state).2.errors.filter
      (fun fault => fault.fault.isDuplicate && fault.line = number) = [] := by
  rw [List.filter_eq_nil_iff]
  intro fault member
  obtain ⟨other, among, points⟩ := (exists_pointsInto_run lines state).1 fault member
  simpa [points.line] using fun _ => apart other among

theorem duplicates_of_split (split : SourceLine.ofSource source = front ++ here :: back) :
    duplicates source here = (enter here (stateAfter front).symbols
      ((stateAfter front).defines? here)).2 := by
  obtain ⟨below, above⟩ := number_around split
  have early := filter_line_of_run .initial fun other member =>
    Nat.ne_of_lt (below other member)
  have late (state : State) := filter_line_of_run state fun other member =>
    Nat.ne_of_gt (above other member)
  have now : (step here (stateAfter front)).2.errors.filter
      (fun fault => fault.fault.isDuplicate && fault.line = here.number) =
      (step here (stateAfter front)).2.errors.filter (·.fault.isDuplicate) := by
    apply List.filter_congr
    intro fault member
    simp [((pointsInto_step here (stateAfter front)).errors fault member).line]
  rw [← tally_step, duplicates, faults_eq, split, run_append]
  simp only [Action.then, run, Effect.append, List.filter_append]
  rw [early, late, List.nil_append, List.append_nil]
  exact now

theorem enters_stateAfter {layout : Layout} (laid : (ofSource source).1 = .ok layout)
    (split : SourceLine.ofSource source = front ++ back) :
    List.Forall₂ (Enters source) (front.filter (·.definition?.isSome))
      (stateAfter front).symbols.entries := by
  induction front using List.reverseRecOn generalizing back with
  | nil => exact .nil
  | append_singleton front here ih =>
      have split' : SourceLine.ofSource source = front ++ here :: back := by
        rw [split, List.append_assoc, List.singleton_append]
      obtain ⟨placed, advance, -⟩ := advance_of_split laid split'
      have clean : (enter here (stateAfter front).symbols
          ((stateAfter front).defines? here)).2 = [] := by
        rw [← duplicates_of_split split', duplicates, faults, laid]
        rfl
      rw [List.filter_append, List.filter_singleton, symbols_concat]
      cases written : here.definition? with
      | none =>
          have nothing : (stateAfter front).defines? here = none := by simp [State.defines?, written]
          simpa [nothing, enter] using ih split'
      | some definition =>
          have valued := advance.isSome_defines? (by simp [written])
          obtain ⟨⟨name, symbol⟩, defines⟩ := Option.isSome_iff_exists.mp valued
          cases found : (stateAfter front).symbols.lookup name.name with
          | some existing =>
              rw [defines, enter_of_taken found] at clean
              cases clean
          | none =>
              rw [defines, enter_of_free found]
              exact List.rel_append (ih split')
                (.cons ⟨front, back, name, split', defines, rfl⟩ .nil)

/-- The first definition of a name wins. Behind any lines, a definition that has a value is added
if none of its name was, and is otherwise the one thing that is reported as defined again on its
line, and leaves the table; without a value, it does neither. The table of a source without faults
has the definitions of its lines, one entry for each, under distinct names in capitals; the table
of the program has the same entries, by value and then by name. -/
theorem first_definition_wins (source : List Char) :
    (∀ front here back, SourceLine.ofSource source = front ++ here :: back →
      let before := (stateAfter front).symbols
      let after := (stateAfter (front ++ [here])).symbols
      (∀ name symbol, (stateAfter front).defines? here = some (name, symbol) →
        (¬ AddedIn front name.name →
          after.entries = before.entries ++ [(SymbolTable.key name.name, symbol)] ∧
            duplicates source here = []) ∧
        (AddedIn front name.name → after = before ∧
          duplicates source here = [here.duplicate name])) ∧
      ((stateAfter front).defines? here = none → after = before ∧ duplicates source here = [])) ∧
    (∀ layout, (ofSource source).1 = .ok layout →
      List.Forall₂ (Enters source)
        ((SourceLine.ofSource source).filter (·.definition?.isSome)) layout.symbols.entries ∧
      (layout.symbols.entries.map Prod.fst).Nodup ∧
      ∀ entry ∈ layout.symbols.entries, ∀ c ∈ entry.1.toList, c.isLower = false) ∧
    ∀ program, assemble source = .ok program →
      ∃ layout, (ofSource source).1 = .ok layout ∧
        program.symbols.entries.Perm layout.symbols.entries ∧
        program.symbols.entries.Pairwise fun first second => first.2.value < second.2.value ∨
          first.2.value = second.2.value ∧ first.1 < second.1 := by
  refine ⟨?_, ?_, ?_⟩
  · intro front here back split
    dsimp only
    rw [symbols_concat, duplicates_of_split split]
    refine ⟨?_, ?_⟩
    · intro name symbol defines
      rw [defines]
      constructor
      · intro first
        rw [enter_of_free (lookup_eq_none_iff_not_addedIn.mpr first)]
        exact ⟨rfl, rfl⟩
      · intro again
        have taken : (stateAfter front).symbols.lookup name.name ≠ none :=
          fun free => lookup_eq_none_iff_not_addedIn.mp free again
        obtain ⟨existing, found⟩ := Option.ne_none_iff_exists'.mp taken
        rw [enter_of_taken found]
        exact ⟨rfl, rfl⟩
    · intro nothing
      rw [nothing]
      exact ⟨rfl, rfl⟩
  · intro layout laid
    obtain ⟨final, advances, symbols⟩ := ofSource_eq_ok_iff.mp laid
    have enters := enters_stateAfter laid (List.append_nil _).symm
    have keyed := keyed_stateAfter (SourceLine.ofSource source)
    rw [advances.stateAfter_eq, ← symbols] at enters keyed
    refine ⟨enters, keyed.distinct, fun entry member => ?_⟩
    exact keyed.capitals entry.1 (List.mem_map_of_mem member)
  · intro program assembled
    obtain ⟨layout, cells, laid, -, rfl⟩ := Program.assemble_eq_ok_iff.mp assembled
    obtain ⟨final, advances, symbols⟩ := ofSource_eq_ok_iff.mp laid
    have keyed := keyed_stateAfter (SourceLine.ofSource source)
    rw [advances.stateAfter_eq, ← symbols] at keyed
    exact ⟨layout, laid, layout.symbols.perm_sort, keyed.pairwise_sort⟩

theorem first_definition_wins_shared :
    let source := "Screen = 5\nSCREEN: NOP".toList
    let first : SourceLine := ⟨1, 0, "Screen = 5".toList⟩
    let second : SourceLine := ⟨2, 11, "SCREEN: NOP".toList⟩
    (stateAfter [first, second]).symbols = (stateAfter [first]).symbols ∧
      (stateAfter [first]).symbols.entries = [("SCREEN", ⟨5, .constant, 1⟩)] ∧
      duplicates source second = [⟨.duplicateSymbol "SCREEN", 2, ⟨11, 6⟩⟩] := by
  intro source first second
  have entries : (stateAfter [first]).symbols.entries = [("SCREEN", ⟨5, .constant, 1⟩)] := by
    decide +kernel
  have defines : (stateAfter [first]).defines? second =
      some (⟨"SCREEN", ⟨0, 6⟩⟩, ⟨0, .label, 2⟩) := by decide +kernel
  have added : AddedIn [first] "SCREEN" :=
    ⟨[], first, [], ⟨"SCREEN", ⟨0, 6⟩⟩, ⟨5, .constant, 1⟩, rfl, ⟨by decide +kernel, entries⟩, rfl⟩
  obtain ⟨along, -, -⟩ := first_definition_wins source
  obtain ⟨kept, reported⟩ := ((along [first] second [] rfl).1 _ _ defines).2 added
  exact ⟨kept, entries, reported⟩

end EightBit.Layout
