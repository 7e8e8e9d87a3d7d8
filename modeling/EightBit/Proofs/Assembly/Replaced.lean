import EightBit.Proofs.Assembly.Log
import EightBit.Proofs.Layout.Sizes
import EightBit.Proofs.SymbolTable.Meanings

/-!
Lines of a source with other lines in their place. The lines behind them may get other numbers, and
do the same there: no address, no value and no byte depends on the number of a line.
-/
namespace EightBit

namespace Program

def SameLog (statements others : List Placed) : Prop :=
  ∀ ⦃table other : SymbolTable⦄, table.meanings = other.meanings →
    log? table statements = log? other others

theorem SameLog.append {front front' back back' : List Placed} (first : SameLog front front')
    (second : SameLog back back') : SameLog (front ++ back) (front' ++ back') := by
  intro table other meanings
  refine Option.ext fun cells => ?_
  rw [log?_append_eq_some_iff, log?_append_eq_some_iff, first meanings, second meanings]

theorem sameLog_of_sameCode {statements others : List Placed}
    (same : List.Forall₂ Placed.SameCode statements others) : SameLog statements others := by
  have kept {table other : SymbolTable} (meanings : table.meanings = other.meanings) :
      table.ValuesIn other := fun expr value known => by
    rwa [← SymbolTable.evaluate_of_meanings meanings]
  have back : List.Forall₂ Placed.SameCode others statements :=
    same.flip.imp fun _ _ code => ⟨code.address.symm, code.content.symm⟩
  intro table other meanings
  exact Option.ext fun cells =>
    ⟨log?_of_values (kept meanings) same, log?_of_values (kept meanings.symm) back⟩

end Program

namespace Layout

/-- The cursor is the same, and so are the symbols but for the lines that define them. -/
structure State.SameAs (state other : State) : Prop where
  cursor : state.cursor = other.cursor
  meanings : state.symbols.meanings = other.symbols.meanings

section Same

variable {state other : State} (same : state.SameAs other)

include same

theorem State.SameAs.eval : state.eval = other.eval :=
  funext fun expr => SymbolTable.evaluate_of_meanings same.meanings expr

theorem shape?_of_sameAs : shape? state = shape? other := by
  unfold shape? directMode
  rw [same.eval]

theorem Decides.of_sameAs {statement : Statement} {span : Span} {content : Content}
    (decided : Decides state statement span content) : Decides other statement span content := by
  cases decided with
  | data named places read => exact .data named places read
  | instruction named shaped supported =>
      rw [shape?_of_sameAs same] at shaped
      exact .instruction named shaped supported

theorem Binds.of_sameAs {here : SourceLine} (there : SourceLine) {label : Option Ident}
    {after : State} (bound : Binds here label state after) :
    ∃ after', Binds there label other after' ∧ after.SameAs after' := by
  cases bound with
  | unlabelled => exact ⟨other, .unlabelled, same⟩
  | @labelled label _ symbols below added =>
      have alike : Symbol.meaning ⟨.ofNat state.cursor.toNat, .label, here.number⟩ =
          Symbol.meaning ⟨.ofNat other.cursor.toNat, .label, there.number⟩ := by
        rw [Symbol.meaning, Symbol.meaning, same.cursor]
      obtain ⟨symbols', added', meanings⟩ :=
        SymbolTable.add_of_meanings same.meanings alike added
      rw [same.cursor] at below
      exact ⟨_, .labelled below added', same.cursor, meanings⟩

theorem Advance.of_sameAs {here there : SourceLine} (text : here.text = there.text)
    {after : State} {placed : List Placed} (advance : Advance here state after placed) :
    ∃ after' placed', Advance there other after' placed' ∧ after.SameAs after' ∧
      List.Forall₂ Placed.SameCode placed placed' := by
  cases advance with
  | bare read bound =>
      rw [text] at read
      obtain ⟨after', bound', same'⟩ := bound.of_sameAs same there
      exact ⟨after', [], .bare read bound', same', .nil⟩
  | @constant label name expr value _ symbols read known added =>
      rw [text] at read
      have constants : (fun ident : Ident => state.symbols.constant? ident.name) =
          fun ident => other.symbols.constant? ident.name :=
        funext fun ident => SymbolTable.constant?_of_meanings same.meanings ident.name
      rw [constants] at known
      have alike : Symbol.meaning ⟨value, .constant, here.number⟩ =
          Symbol.meaning ⟨value, .constant, there.number⟩ := rfl
      obtain ⟨symbols', added', meanings⟩ :=
        SymbolTable.add_of_meanings same.meanings alike added
      exact ⟨_, [], .constant read known added', ⟨same.cursor, meanings⟩, .nil⟩
  | @origin label name expr span origin _ _ read named known inside bound =>
      rw [text] at read
      rw [same.eval] at known
      have moved : State.SameAs { state with cursor := origin.toUInt64.toUInt32 }
          { other with cursor := origin.toUInt64.toUInt32 } := ⟨rfl, same.meanings⟩
      obtain ⟨after', bound', same'⟩ := bound.of_sameAs moved there
      exact ⟨after', [], .origin read named known inside bound', same', .nil⟩
  | @statement label statement span content _ middle read bound decided fits =>
      rw [text] at read
      obtain ⟨middle', bound', same'⟩ := bound.of_sameAs same there
      have decided' := decided.of_sameAs same'
      rw [same'.cursor] at fits
      refine ⟨_, _, .statement read bound' decided' fits, ⟨?_, same'.meanings⟩,
        .cons ⟨?_, rfl⟩ .nil⟩
      · dsimp only
        rw [same'.cursor]
      · simp only [State.put, same'.cursor]

end Same

theorem Advances.append {front back : List SourceLine} {before middle after : State}
    {early late : List Placed} (first : Advances front before middle early)
    (second : Advances back middle after late) :
    Advances (front ++ back) before after (early ++ late) := by
  induction first with
  | done => exact second
  | line now later ih =>
      rw [List.append_assoc]
      exact .line now (ih second)

/-- Whatever lines with the first texts do, lines with the other texts can do. -/
def Refines (texts others : List (List Char)) : Prop :=
  ∀ ⦃lines lines' : List SourceLine⦄, lines.map (·.text) = texts → lines'.map (·.text) = others →
    ∀ ⦃before before' after : State⦄ ⦃placed : List Placed⦄, before.SameAs before' →
      before.cursor.toNat ≤ 0x10000 → Advances lines before after placed →
      ∃ after' placed', Advances lines' before' after' placed' ∧ after.SameAs after' ∧
        Program.SameLog placed placed'

namespace Refines

theorem refl (texts : List (List Char)) : Refines texts texts := by
  intro lines lines' written written'
  -- the lines have the same texts, but numbers of their own
  induction texts generalizing lines lines' with
  | nil =>
      cases List.map_eq_nil_iff.mp written
      cases List.map_eq_nil_iff.mp written'
      intro before before' after placed same _ advances
      cases advances
      exact ⟨before', [], .done, same, fun _ _ _ => rfl⟩
  | cons text rest ih =>
      obtain ⟨here, later, rfl, hereText, laterTexts⟩ := List.map_eq_cons_iff.mp written
      obtain ⟨there, later', rfl, thereText, laterTexts'⟩ := List.map_eq_cons_iff.mp written'
      intro before before' after placed same low advances
      cases advances with
      | line now advances =>
          obtain ⟨middle', early', now', middle, code⟩ :=
            now.of_sameAs same (hereText.trans thereText.symm)
          obtain ⟨after', late', advances', final, log⟩ :=
            ih laterTexts laterTexts' middle (now.cursor_le low) advances
          exact ⟨after', _, .line now' advances', final,
            (Program.sameLog_of_sameCode code).append log⟩

theorem append {front front' back back' : List (List Char)} (first : Refines front front')
    (second : Refines back back') : Refines (front ++ back) (front' ++ back') := by
  intro lines lines' written written' before before' after placed same low advances
  obtain ⟨early, late, rfl, earlyTexts, lateTexts⟩ := List.map_eq_append_iff.mp written
  obtain ⟨early', late', rfl, earlyTexts', lateTexts'⟩ := List.map_eq_append_iff.mp written'
  obtain ⟨middle, now, later, start, rest, rfl⟩ := advances_append advances
  obtain ⟨middle', now', start', between, log⟩ := first earlyTexts earlyTexts' same low start
  obtain ⟨after', later', rest', final, log'⟩ :=
    second lateTexts lateTexts' between (start.cursor_le low) rest
  exact ⟨after', now' ++ later', start'.append rest', final, log.append log'⟩

end Refines

end Layout

theorem SourceLine.map_text_listFrom (number offset : Nat) (texts : List (List Char)) :
    (listFrom number offset texts).map (·.text) = texts := by
  induction texts generalizing number offset with
  | nil => rfl
  | cons text rest ih => rw [listFrom, List.map_cons, ih]

structure Program.SameOutput (program other : Program) : Prop where
  image : program.image = other.image
  overlaps : program.overlaps = other.overlaps
  meanings : program.symbols.meanings = other.symbols.meanings

section Sources

variable {source other : List Char}

theorem exists_assemble_of_refines (refines : Layout.Refines (Text.lines source) (Text.lines other))
    {program : Program} (assembled : assemble source = .ok program) :
    ∃ program', assemble other = .ok program' ∧ program.SameOutput program' := by
  obtain ⟨layout, cells, laid, logged, rfl⟩ := Program.assemble_eq_ok_iff.mp assembled
  obtain ⟨final, advances, symbols⟩ := Layout.ofSource_eq_ok_iff.mp laid
  obtain ⟨final', placed', advances', same, log⟩ :=
    refines (SourceLine.map_text_listFrom 1 0 _) (SourceLine.map_text_listFrom 1 0 _)
      (⟨rfl, rfl⟩ : Layout.State.initial.SameAs .initial) (Nat.zero_le _) advances
  rw [symbols, log same.meanings] at logged
  have laid' : (Layout.ofSource other).1 = .ok ⟨placed', final'.symbols⟩ :=
    Layout.ofSource_eq_ok_iff.mpr ⟨final', advances', rfl⟩
  refine ⟨_, Program.assemble_eq_ok_iff.mpr ⟨_, cells, laid', logged, rfl⟩, rfl, rfl, ?_⟩
  rw [Program.ofLog, Program.ofLog, SymbolTable.meanings_sort, SymbolTable.meanings_sort, symbols,
    same.meanings]

theorem agree_assemble_of_refines (there : Layout.Refines (Text.lines source) (Text.lines other))
    (back : Layout.Refines (Text.lines other) (Text.lines source)) :
    Agree (fun _ _ => True) Program.SameOutput (assemble source) (assemble other) := by
  cases assembled : assemble source with
  | ok program =>
      obtain ⟨program', made, same⟩ := exists_assemble_of_refines there assembled
      rw [made]
      exact .ok same
  | error error =>
      cases assembled' : assemble other with
      | error error' => exact .error trivial
      | ok program' =>
          obtain ⟨program, made, -⟩ := exists_assemble_of_refines back assembled'
          cases assembled.symm.trans made

end Sources

end EightBit
