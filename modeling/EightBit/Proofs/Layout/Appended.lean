import EightBit.Proofs.Layout.Growth
import EightBit.Proofs.Layout.Places

namespace EightBit

namespace Text

theorem lines_append (front back : List Char) :
    lines (front ++ '\n' :: back) = lines front ++ lines back := by
  rcases lines_cases front with ⟨absent, single⟩ | ⟨first, rest, absent, same, split⟩
  · rw [lines_append_newline absent, single, List.singleton_append]
  · have later := lines_append rest back
    rw [same, List.append_assoc, List.cons_append, lines_append_newline absent, later, ← same,
      split, List.cons_append]
termination_by front.length
decreasing_by
  rw [same, List.length_append, List.length_cons]
  omega

end Text

namespace SourceLine

theorem listFrom_append (number offset : Nat) (front back : List (List Char)) :
    ∃ behind, listFrom number offset (front ++ back) =
      listFrom number offset front ++ listFrom (number + front.length) behind back := by
  induction front generalizing number offset with
  | nil => exact ⟨offset, rfl⟩
  | cons text rest ih =>
      obtain ⟨behind, split⟩ := ih (number + 1) (offset + Text.byteLength text + 1)
      have place : number + 1 + rest.length = number + (text :: rest).length := by
        rw [List.length_cons]
        omega
      refine ⟨behind, ?_⟩
      rw [List.cons_append, listFrom, split, listFrom, place, List.cons_append]

theorem ofSource_append (front back : List Char) :
    ∃ behind, ofSource (front ++ '\n' :: back) =
        ofSource front ++ listFrom (1 + (Text.lines front).length) behind (Text.lines back) := by
  obtain ⟨behind, split⟩ := listFrom_append 1 0 (Text.lines front) (Text.lines back)
  exact ⟨behind, by rw [ofSource, Text.lines_append, split, ofSource]⟩

end SourceLine

namespace Layout

theorem Action.then_assoc (first second third : Action) :
    (first.then second).then third = first.then (second.then third) := by
  funext state
  simp only [Action.then, Effect.append, List.append_assoc]

theorem Action.none_then (action : Action) :
    Action.then (fun state => (state, .none)) action = action := by
  funext state
  simp only [Action.then, Effect.append, Effect.none, List.nil_append]

theorem run_append (front back : List SourceLine) :
    run (front ++ back) = (run front).then (run back) := by
  induction front with
  | nil => rw [List.nil_append, run, Action.none_then]
  | cons here rest ih => rw [List.cons_append, run, ih, run, Action.then_assoc]

theorem ofSource_fst (source : List Char) :
    (ofSource source).1 =
      if (run (SourceLine.ofSource source) .initial).2.errors.isEmpty then
        .ok ⟨(run (SourceLine.ofSource source) .initial).2.statements,
          (run (SourceLine.ofSource source) .initial).1.symbols⟩
      else .error (run (SourceLine.ofSource source) .initial).2.errors := by
  simp only [ofSource]
  split <;> rfl

section Symbols

variable {here : SourceLine} {lines : List SourceLine} {before after : State} {placed : List Placed}

theorem prefix_of_add {small large : SymbolTable} {name : String} {symbol : Symbol}
    (added : small.add name symbol = .ok large) : small.entries <+: large.entries := by
  unfold SymbolTable.add at added
  split at added
  · cases added
  · cases added
    exact List.prefix_append _ _

theorem Binds.entries {label : Option Ident} (bound : Binds here label before after) :
    before.symbols.entries <+: after.symbols.entries := by
  cases bound with
  | unlabelled => exact List.prefix_rfl
  | labelled below added => exact prefix_of_add added

theorem Advance.entries (advance : Advance here before after placed) :
    before.symbols.entries <+: after.symbols.entries := by
  cases advance with
  | bare read bound => exact bound.entries
  | constant read known added => exact prefix_of_add added
  | origin read named known inside bound => exact bound.entries
  | statement read bound decided fits => exact bound.entries

theorem Advances.entries (advances : Advances lines before after placed) :
    before.symbols.entries <+: after.symbols.entries := by
  induction advances with
  | done => exact List.prefix_rfl
  | line now later ih => exact now.entries.trans ih

theorem Advances.unique {after' : State} {placed' : List Placed}
    (advances : Advances lines before after placed)
    (advances' : Advances lines before after' placed') : after = after' ∧ placed = placed' := by
  obtain ⟨events, ran⟩ := succeeds_run_iff.mpr advances
  obtain ⟨events', ran'⟩ := succeeds_run_iff.mpr advances'
  cases ran.symm.trans ran'
  exact ⟨rfl, rfl⟩

end Symbols

section Appended

variable {front : List Char} (back : List Char)

theorem ofSource_append_of_error {faults : List Diagnostic}
    (rejected : (ofSource front).1 = .error faults) :
    ∃ more, (ofSource (front ++ '\n' :: back)).1 = .error (faults ++ more) := by
  obtain ⟨behind, split⟩ := SourceLine.ofSource_append front back
  rw [ofSource_fst] at rejected
  split at rejected
  · cases rejected
  · rename_i faulty
    cases rejected
    rw [ofSource_fst, split, run_append]
    refine ⟨_, if_neg ?_⟩
    intro clean
    exact faulty (List.isEmpty_iff.mpr (List.append_eq_nil_iff.mp (List.isEmpty_iff.mp clean)).1)

theorem ofSource_append_of_ok {layout longer : Layout} (laid : (ofSource front).1 = .ok layout)
    (later : (ofSource (front ++ '\n' :: back)).1 = .ok longer) :
    ∃ added, longer.statements = layout.statements ++ added ∧
      (∀ placed ∈ added, (Text.lines front).length < placed.line) ∧
      layout.symbols.entries <+: longer.symbols.entries ∧
      SymbolTable.Grows ((Text.lines front).length < ·) layout.symbols longer.symbols := by
  obtain ⟨behind, split⟩ := SourceLine.ofSource_append front back
  obtain ⟨state, first, symbols⟩ := ofSource_eq_ok_iff.mp laid
  obtain ⟨final, whole, last⟩ := ofSource_eq_ok_iff.mp later
  rw [split] at whole
  obtain ⟨middle, early, added, before, rest, statements⟩ := advances_append whole
  obtain ⟨rfl, rfl⟩ := first.unique before
  rw [symbols, last]
  refine ⟨added, statements, ?_, rest.entries, rest.grows.mono ?_⟩
  · intro placed member
    obtain ⟨here, among, same⟩ := rest.line_mem placed member
    have above := SourceLine.number_ge_of_mem_listFrom among
    omega
  · rintro number ⟨here, among, rfl⟩
    have above := SourceLine.number_ge_of_mem_listFrom among
    omega

theorem line_of_mem_ofSource_append {layout : Layout} {faults : List Diagnostic}
    (laid : (ofSource front).1 = .ok layout)
    (rejected : (ofSource (front ++ '\n' :: back)).1 = .error faults) :
    ∀ fault ∈ faults, (Text.lines front).length < fault.line := by
  obtain ⟨behind, split⟩ := SourceLine.ofSource_append front back
  obtain ⟨state, first, -⟩ := ofSource_eq_ok_iff.mp laid
  obtain ⟨events, ran⟩ := succeeds_run_iff.mpr first
  rw [ofSource_fst, split, run_append] at rejected
  split at rejected
  · cases rejected
  · cases rejected
    intro fault member
    simp only [Action.then, ran, Effect.append, List.nil_append] at member
    obtain ⟨here, among, points⟩ := (exists_pointsInto_run _ state).1 fault member
    have above := SourceLine.number_ge_of_mem_listFrom among
    rw [points.line]
    omega

end Appended

end Layout

end EightBit
