import EightBit.Proofs.Layout.Advance

namespace EightBit.Layout

open SymbolTable

variable {here : SourceLine} {lines : List SourceLine} {before after : State} {placed : List Placed}

theorem Binds.grows {label : Option Ident} (bound : Binds here label before after) :
    Grows (· = here.number) before.symbols after.symbols := by
  cases bound with
  | unlabelled => exact .refl _
  | labelled below added => exact grows_add rfl added

theorem Advance.grows (advance : Advance here before after placed) :
    Grows (· = here.number) before.symbols after.symbols := by
  cases advance with
  | bare read bound => exact bound.grows
  | constant read known added => exact grows_add rfl added
  | origin read named known inside bound => exact bound.grows
  | statement read bound decided fits => exact bound.grows

theorem Advances.grows (advances : Advances lines before after placed) :
    Grows (fun number => ∃ here ∈ lines, here.number = number) before.symbols after.symbols := by
  induction advances with
  | done => exact .refl _
  | line now later ih =>
      refine (now.grows.mono ?_).trans (ih.mono ?_)
      · intro number same
        exact ⟨_, List.mem_cons_self, same.symm⟩
      · rintro number ⟨here, member, same⟩
        exact ⟨here, List.mem_cons_of_mem _ member, same⟩

theorem Advance.line_eq (advance : Advance here before after placed) :
    ∀ statement ∈ placed, statement.line = here.number := by
  cases advance with
  | bare | constant | origin =>
      intro statement member
      cases member
  | statement read bound decided fits =>
      intro statement member
      rw [List.mem_singleton] at member
      rw [member, State.put]

theorem Advances.line_mem (advances : Advances lines before after placed) :
    ∀ statement ∈ placed, ∃ here ∈ lines, here.number = statement.line := by
  induction advances with
  | done =>
      intro statement member
      cases member
  | line now later ih =>
      intro statement member
      rcases List.mem_append.mp member with first | rest
      · exact ⟨_, List.mem_cons_self, (now.line_eq statement first).symm⟩
      · obtain ⟨here, among, same⟩ := ih statement rest
        exact ⟨here, List.mem_cons_of_mem _ among, same⟩

theorem Advances.pairwise_line (advances : Advances lines before after placed)
    (ordered : lines.Pairwise (·.number < ·.number)) : placed.Pairwise (·.line < ·.line) := by
  induction advances with
  | done => exact .nil
  | line now later ih =>
      rw [List.pairwise_cons] at ordered
      refine List.pairwise_append.mpr ⟨?_, ih ordered.2, ?_⟩
      · cases now with
        | bare | constant | origin => exact .nil
        | statement => exact List.pairwise_singleton _ _
      · intro first early second late
        obtain ⟨other, member, same⟩ := later.line_mem second late
        rw [now.line_eq first early, ← same]
        exact ordered.1 other member

theorem Advances.exists_line {statement : Placed} (advances : Advances lines before after placed)
    (member : statement ∈ placed) :
    ∃ front here back middle early next now, lines = front ++ here :: back ∧
      Advances front before middle early ∧ Advance here middle next now ∧ statement ∈ now := by
  induction advances with
  | done => cases member
  | line now later ih =>
      rename_i first rest start middle final placed more
      rcases List.mem_append.mp member with head | tail
      · exact ⟨[], first, rest, start, [], middle, placed, rfl, .done, now, head⟩
      · rcases ih tail with ⟨front, here, back, state, early, next, made, rfl, past, present, among⟩
        exact ⟨first :: front, here, back, state, placed ++ early, next, made, rfl,
          .line now past, present, among⟩

theorem exists_line_of_mem {source : List Char} {layout : Layout} {statement : Placed}
    (laid : (ofSource source).1 = .ok layout) (member : statement ∈ layout.statements) :
    ∃ front here back next now, SourceLine.ofSource source = front ++ here :: back ∧
      Advance here (stateAfter front) next now ∧ statement ∈ now := by
  rcases ofSource_eq_ok_iff.mp laid with ⟨final, advances, -⟩
  obtain ⟨front, here, back, middle, early, next, now, split, past, present, among⟩ :=
    advances.exists_line member
  rw [← past.stateAfter_eq] at present
  exact ⟨front, here, back, next, now, split, present, among⟩

theorem pairwise_line {source : List Char} {layout : Layout}
    (laid : (ofSource source).1 = .ok layout) : layout.statements.Pairwise (·.line < ·.line) := by
  obtain ⟨final, advances, -⟩ := ofSource_eq_ok_iff.mp laid
  exact advances.pairwise_line (SourceLine.pairwise_number_listFrom 1 0 (Text.lines source))

theorem number_around {source : List Char} {front back : List SourceLine} {here : SourceLine}
    (split : SourceLine.ofSource source = front ++ here :: back) :
    (∀ other ∈ front, other.number < here.number) ∧
      ∀ other ∈ back, here.number < other.number := by
  have ordered := SourceLine.pairwise_number_listFrom 1 0 (Text.lines source)
  have same : SourceLine.listFrom 1 0 (Text.lines source) = front ++ here :: back := split
  rw [same, List.pairwise_append] at ordered
  rcases ordered with ⟨-, tail, across⟩
  exact ⟨fun other member => across other member here List.mem_cons_self,
    (List.pairwise_cons.mp tail).1⟩

theorem Advances.filter_line_eq_nil {number : Nat} (advances : Advances lines before after placed)
    (apart : ∀ here ∈ lines, here.number ≠ number) :
    placed.filter (·.line = number) = [] := by
  rw [List.filter_eq_nil_iff]
  intro statement member same
  obtain ⟨here, among, number_eq⟩ := advances.line_mem statement member
  apply apart here among
  rw [number_eq]
  exact of_decide_eq_true same

theorem Advances.concat {front : List SourceLine} {middle : State} {early : List Placed}
    (advances : Advances front before middle early) (advance : Advance here middle after placed) :
    Advances (front ++ [here]) before after (early ++ placed) := by
  induction advances with
  | done =>
      have single := Advances.line advance .done
      rwa [List.append_nil] at single
  | line now later ih =>
      rw [List.append_assoc]
      exact .line now (ih advance)

theorem advance_of_split {source : List Char} {layout : Layout} {front back : List SourceLine}
    (laid : (ofSource source).1 = .ok layout)
    (split : SourceLine.ofSource source = front ++ here :: back) :
    ∃ placed, Advance here (stateAfter front) (stateAfter (front ++ [here])) placed ∧
      Grows (here.number < ·) (stateAfter (front ++ [here])).symbols layout.symbols ∧
      layout.statements.filter (·.line = here.number) = placed := by
  rcases advances_around laid split with
    ⟨next, final, early, placed, late, first, advance, rest, statements, last⟩
  obtain ⟨below, above⟩ := number_around split
  have done := first.concat advance
  rw [done.stateAfter_eq]
  refine ⟨placed, advance, ?_, ?_⟩
  · rw [last]
    refine rest.grows.mono ?_
    rintro number ⟨other, member, rfl⟩
    exact above other member
  · have none_early := first.filter_line_eq_nil fun other member =>
      Nat.ne_of_lt (below other member)
    have none_late := rest.filter_line_eq_nil fun other member =>
      Nat.ne_of_gt (above other member)
    have all_now : placed.filter (·.line = here.number) = placed := by
      rw [List.filter_eq_self]
      intro statement member
      exact decide_eq_true (advance.line_eq statement member)
    rw [statements, List.filter_append, List.filter_append, none_early, none_late, all_now,
      List.nil_append, List.append_nil]

end EightBit.Layout
