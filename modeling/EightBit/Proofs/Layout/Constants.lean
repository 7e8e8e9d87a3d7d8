import EightBit.Proofs.Layout.Definitions
import EightBit.Proofs.Line.Words

/-!
The constants of a source without its other lines. A constant is made of constants alone, so the
lines that define none may be blank: the table then has the constants it had, and no labels.
-/
namespace EightBit

namespace SymbolTable

def constants (table : SymbolTable) : SymbolTable :=
  ⟨table.entries.filter (·.2.kind = .constant)⟩

variable {table larger : SymbolTable}

theorem lookup_filter_of_nodup {entries : List (String × Symbol)}
    (distinct : (entries.map Prod.fst).Nodup) (keep : Symbol → Bool) (name : String) :
    (entries.filter (keep ·.2)).lookup name = (entries.lookup name).filter keep := by
  induction entries with
  | nil => rfl
  | cons entry rest ih =>
      obtain ⟨taken, symbol⟩ := entry
      obtain ⟨absent, others⟩ := List.nodup_cons.mp distinct
      have later := ih others
      by_cases same : name = taken
      · subst same
        have nothing : rest.lookup name = none := by
          rw [List.lookup_eq_none_iff]
          intro other member
          rw [bne_iff_ne]
          intro equal
          exact absent (List.mem_map.mpr ⟨other, member, equal.symm⟩)
        rw [nothing, Option.filter_none] at later
        by_cases kept : keep symbol <;> simp [kept, later, Option.filter_some]
      · have other : (name == taken) = false := beq_false_of_ne same
        by_cases kept : keep symbol <;> simp [List.lookup_cons, kept, other, later]

theorem Keyed.lookup_constants (keyed : table.Keyed) (name : String) :
    table.constants.lookup name = (table.lookup name).filter (·.kind = .constant) :=
  lookup_filter_of_nodup keyed.distinct (·.kind = .constant) (key name)

theorem Keyed.constant?_constants (keyed : table.Keyed) (name : String) :
    table.constants.constant? name = table.constant? name := by
  simp only [constant?, keyed.lookup_constants, Option.filter_filter, Bool.and_self]

theorem constants_of_add_label {name : String} {symbol : Symbol} (label : symbol.kind = .label)
    (added : table.add name symbol = .ok larger) : larger.constants = table.constants := by
  obtain ⟨-, rfl⟩ := add_eq_ok_iff.mp added
  simp [constants, label]

theorem Keyed.add_constants {name : String} {symbol : Symbol} (keyed : table.Keyed)
    (constant : symbol.kind = .constant) (added : table.add name symbol = .ok larger) :
    table.constants.add name symbol = .ok larger.constants := by
  obtain ⟨free, rfl⟩ := add_eq_ok_iff.mp added
  rw [add_eq_ok_iff, keyed.lookup_constants, free]
  exact ⟨rfl, by simp [constants, constant]⟩

end SymbolTable

def Line.definesConstant (text : List Char) : Bool :=
  match parse text with
  | .ok ⟨_, some (.constant ..)⟩ => true
  | _ => false

def Line.constantOnly (text : List Char) : List Char := if definesConstant text then text else []

def Text.constantsOnly (source : List Char) : List Char :=
  List.intercalate ['\n'] ((lines source).map Line.constantOnly)

theorem Text.lines_constantsOnly (source : List Char) :
    lines (constantsOnly source) = (lines source).map Line.constantOnly := by
  apply lines_intercalate_of_ne_nil
  · simpa using lines_ne_nil source
  · intro text member
    obtain ⟨line, among, rfl⟩ := List.mem_map.mp member
    unfold Line.constantOnly
    split
    · exact newline_not_mem_of_mem_lines among
    · exact List.not_mem_nil

namespace Layout

variable {here there : SourceLine} {before after alone : State} {placed : List Placed}

theorem Advance.keyed (advance : Advance here before after placed)
    (keyed : before.symbols.Keyed) : after.symbols.Keyed := by
  obtain ⟨events, ran⟩ := succeeds_step_of_advance advance
  have entered : after.symbols = (enter here before.symbols (before.defines? here)).1 := by
    rw [← tally_step, ran, tally]
  rw [entered]
  exact keyed_enter keyed _

theorem Binds.constants {label : Option Ident} (bound : Binds here label before after) :
    after.symbols.constants = before.symbols.constants := by
  cases bound with
  | unlabelled => rfl
  | labelled below added => exact SymbolTable.constants_of_add_label rfl added

structure Isolates (here there : SourceLine) : Prop where
  number : there.number = here.number
  text : there.text = Line.constantOnly here.text

/-- Without its labels, the table is the same behind the isolated line. -/
theorem Advance.isolated (advance : Advance here before after placed)
    (isolates : Isolates here there) (keyed : before.symbols.Keyed)
    (same : alone.symbols = before.symbols.constants) :
    ∃ next, Advance there alone next [] ∧ next.symbols = after.symbols.constants := by
  -- a line without a constant is blank, and what it did to the table is gone with the labels
  have blank (other : Line.definesConstant here.text = false)
      (kept : after.symbols.constants = before.symbols.constants) :
      ∃ next, Advance there alone next [] ∧ next.symbols = after.symbols.constants := by
    have read : Line.parse there.text = .ok ⟨none, none⟩ := by
      rw [isolates.text, Line.constantOnly, other]
      exact Line.parse_nil
    exact ⟨alone, .bare read .unlabelled, same.trans kept.symm⟩
  cases advance with
  | bare read bound => exact blank (by simp [Line.definesConstant, read]) bound.constants
  | origin read named known inside bound =>
      exact blank (by simp [Line.definesConstant, read]) bound.constants
  | statement read bound decided fits =>
      refine blank ?_ bound.constants
      cases decided <;> simp [Line.definesConstant, read]
  | constant read known added =>
      have text : there.text = here.text := by
        rw [isolates.text, Line.constantOnly, if_pos (by simp [Line.definesConstant, read])]
      have lookup : (fun ident : Ident => alone.symbols.constant? ident.name) =
          fun ident => before.symbols.constant? ident.name := by
        funext ident
        rw [same, keyed.constant?_constants]
      have entered := keyed.add_constants rfl added
      rw [← text] at read
      rw [← lookup] at known
      rw [← same, ← isolates.number] at entered
      exact ⟨_, .constant read known entered, rfl⟩

theorem Advances.isolated {lines others : List SourceLine}
    (advances : Advances lines before after placed)
    (isolates : List.Forall₂ Isolates lines others) (keyed : before.symbols.Keyed)
    (same : alone.symbols = before.symbols.constants) :
    ∃ final, Advances others alone final [] ∧ final.symbols = after.symbols.constants := by
  induction advances generalizing others alone with
  | done =>
      cases isolates
      exact ⟨alone, .done, same⟩
  | line now later ih =>
      cases isolates with
      | cons first rest =>
          obtain ⟨next, advance, symbols⟩ := now.isolated first keyed same
          obtain ⟨final, others, last⟩ := ih rest (now.keyed keyed) symbols
          exact ⟨final, .line advance others, last⟩

theorem isolates_listFrom (texts : List (List Char)) (number offset offset' : Nat) :
    List.Forall₂ Isolates (SourceLine.listFrom number offset texts)
      (SourceLine.listFrom number offset' (texts.map Line.constantOnly)) := by
  induction texts generalizing number offset offset' with
  | nil => exact .nil
  | cons text rest ih => exact .cons ⟨rfl, rfl⟩ (ih _ _ _)

/-- Constants do not depend on the rest of a source: with blank lines for all others it still has a
layout, which holds no statement and just the constants, with their values, lines and order. -/
theorem constants_stand_alone {source : List Char} {layout : Layout}
    (laid : (ofSource source).1 = .ok layout) :
    Text.lines (Text.constantsOnly source) = (Text.lines source).map Line.constantOnly ∧
    ∃ alone, (ofSource (Text.constantsOnly source)).1 = .ok alone ∧ alone.statements = [] ∧
      alone.symbols.entries = layout.symbols.entries.filter (·.2.kind = .constant) := by
  have lines := Text.lines_constantsOnly source
  obtain ⟨final, advances, symbols⟩ := ofSource_eq_ok_iff.mp laid
  have isolates := isolates_listFrom (Text.lines source) 1 0 0
  have start : State.initial.symbols = State.initial.symbols.constants := rfl
  obtain ⟨last, others, same⟩ := advances.isolated isolates SymbolTable.keyed_empty start
  refine ⟨lines, ⟨[], last.symbols⟩, ?_, rfl, ?_⟩
  · rw [ofSource_eq_ok_iff, SourceLine.ofSource, lines]
    exact ⟨last, others, rfl⟩
  · rw [symbols, same]
    rfl

theorem constants_stand_alone_between :
    let source := "A = 2\n.ORG A\nL: NOP\nB = a + 1\nM: .WORD L".toList
    let entry (name : String) (value : Int64) (line : Nat) : String × Symbol :=
      (name, ⟨value, .constant, line⟩)
    Text.constantsOnly source = "A = 2\n\n\nB = a + 1\n".toList ∧
      ∃ alone, (ofSource (Text.constantsOnly source)).1 = .ok alone ∧
        alone.symbols.entries = [entry "A" 2 1, entry "B" 3 4] := by
  intro source entry
  let layout : Layout :=
    ⟨[⟨3, 13, 2, ⟨3, 3⟩, .instruction .nop .implied none⟩,
        ⟨5, 30, 3, ⟨3, 5⟩, .words [.symbol ⟨"L", ⟨9, 1⟩⟩]⟩],
      ⟨[entry "A" 2 1, ("L", ⟨2, .label, 3⟩), entry "B" 3 4, ("M", ⟨3, .label, 5⟩)]⟩⟩
  have laid : (ofSource source).1 = .ok layout := by decide +kernel
  obtain ⟨-, alone, again, -, entries⟩ := constants_stand_alone laid
  exact ⟨by decide +kernel, alone, again, entries⟩

end Layout

end EightBit
