import Mathlib.Data.List.Basic
import EightBit.Proofs.Assembly.Encoding
import EightBit.Proofs.Layout.Growth

/-!
The first pass decides while its table still grows: the value of a constant, of an origin, and
whether an operand is short. The finished table agrees with every one of these decisions.
-/
namespace EightBit

theorem Mnemonic.isBranch_of_supports_zeroPage {mnemonic : Mnemonic}
    (short : mnemonic.supports .zeroPage = true) : mnemonic.isBranch = false := by
  revert short
  cases mnemonic <;> decide

theorem Mnemonic.isBranch_of_supports_absolute {mnemonic : Mnemonic}
    (wide : mnemonic.supports .absolute = true) : mnemonic.isBranch = false := by
  revert wide
  cases mnemonic <;> decide

namespace Layout

variable {source : List Char} {layout : Layout} {front back : List SourceLine} {here : SourceLine}

/-- The first pass found the value of an expression, with the symbols it had by then. -/
inductive Evaluated (source : List Char) : Expr → Int64 → Prop
  | constant {front back : List SourceLine} {here : SourceLine} {label : Option Ident}
      {name : Ident} {expr : Expr} {value : Int64}
      (split : SourceLine.ofSource source = front ++ here :: back)
      (read : Line.parse here.text = .ok ⟨label, some (.constant name expr)⟩)
      (known : (expr.eval fun ident => (stateAfter front).symbols.constant? ident.name) =
        .ok value) :
      Evaluated source expr value
  | origin {front back : List SourceLine} {here : SourceLine} {label : Option Ident}
      {name : Ident} {expr : Expr} {span : Span} {value : Int64}
      (split : SourceLine.ofSource source = front ++ here :: back)
      (read : Line.parse here.text = .ok ⟨label, some (.directive name [⟨.value expr, span⟩])⟩)
      (named : Directive.ofName? name.name = some .org)
      (known : (stateAfter front).eval expr = .ok value) :
      Evaluated source expr value
  | operand {front back : List SourceLine} {here : SourceLine} {label : Option Ident}
      {name : Ident} {expr : Expr} {span : Span} {value : Int64}
      (split : SourceLine.ofSource source = front ++ here :: back)
      (read : Line.parse here.text = .ok ⟨label, some (.instruction name [⟨.value expr, span⟩])⟩)
      (known : (bindLabel here label (stateAfter front)).1.eval expr = .ok value) :
      Evaluated source expr value

theorem grows_stateAfter (laid : (ofSource source).1 = .ok layout)
    (split : SourceLine.ofSource source = front ++ here :: back) :
    SymbolTable.Grows (here.number ≤ ·) (stateAfter front).symbols layout.symbols := by
  rcases advance_of_split laid split with ⟨placed, advance, grows, -⟩
  refine (advance.grows.mono ?_).trans (grows.mono ?_)
  · intro number same
    exact Nat.le_of_eq same.symm
  · intro number
    exact Nat.le_of_lt

theorem lines_stateAfter (laid : (ofSource source).1 = .ok layout)
    (split : SourceLine.ofSource source = front ++ here :: back) :
    ∀ name symbol, (stateAfter front).symbols.lookup name = some symbol →
      symbol.line < here.number := by
  intro name symbol found
  rcases advances_around laid split with ⟨next, final, early, now, late, first, -⟩
  rcases first.grows.fresh found with none | ⟨other, member, same⟩
  · cases none
  · have below := (number_around split).1 other member
    rwa [same] at below

theorem Binds.bindLabel_eq {label : Option Ident} {before after : State}
    (bound : Binds here label before after) : (bindLabel here label before).1 = after := by
  rcases succeeds_bindLabel_iff.mpr ⟨bound, rfl⟩ with ⟨events, ran⟩
  rw [ran]

theorem instruction_around {label : Option Ident} {name : Ident} {operands : List Operand}
    (laid : (ofSource source).1 = .ok layout)
    (split : SourceLine.ofSource source = front ++ here :: back)
    (read : Line.parse here.text = .ok ⟨label, some (.instruction name operands)⟩) :
    ∃ middle mnemonic mode operand, Binds here label (stateAfter front) middle ∧
      Mnemonic.ofName? name.name = some mnemonic ∧
      shape? middle mnemonic operands = some (mode, operand) ∧ mnemonic.supports mode = true ∧
      SymbolTable.Grows (here.number < ·) middle.symbols layout.symbols ∧
      layout.statements.filter (·.line = here.number) =
        [middle.put here (instructionSpan name operands) (.instruction mnemonic mode operand)] := by
  rcases advance_of_split laid split with ⟨placed, advance, grows, only⟩
  generalize stateAfter (front ++ [here]) = next at advance grows
  cases advance with
  | bare other | constant other | origin other =>
      rw [read] at other
      cases other
  | statement other bound decided fits =>
      rw [read] at other
      cases other
      cases decided with
      | instruction named shaped supported =>
          exact ⟨_, _, _, _, bound, named, shaped, supported, grows, only⟩

theorem Evaluated.final {expr : Expr} {value : Int64} (evaluated : Evaluated source expr value)
    (laid : (ofSource source).1 = .ok layout) : layout.symbols.evaluate expr = .ok value := by
  cases evaluated with
  | constant split read known =>
      have early : (stateAfter _).symbols.evaluate expr = .ok value :=
        Expr.eval_mono (fun ident v found => SymbolTable.value?_of_constant? found) known
      exact (grows_stateAfter laid split).evaluate early
  | origin split read named known => exact (grows_stateAfter laid split).evaluate known
  | operand split read known =>
      rcases instruction_around laid split read with ⟨middle, _, _, _, bound, -, -, -, grows, -⟩
      rw [bound.bindLabel_eq] at known
      exact grows.evaluate known

theorem directMode_cases (state : State) {mnemonic : Mnemonic} (expr : Expr)
    (short : mnemonic.supports .zeroPage = true) :
    (directMode state mnemonic expr = .zeroPage ∧
        ∃ value, state.eval expr = .ok value ∧ 0 ≤ value ∧ value ≤ 0xFF) ∨
      (directMode state mnemonic expr = .absolute ∧
        ¬ ∃ value, state.eval expr = .ok value ∧ 0 ≤ value ∧ value ≤ 0xFF) := by
  have straight := Mnemonic.isBranch_of_supports_zeroPage short
  cases known : state.eval expr with
  | error ident => simp [directMode, straight, short, known]
  | ok value =>
      by_cases byte : 0 ≤ value ∧ value ≤ 0xFF
      · simp [directMode, straight, short, known, byte]
      · simp [directMode, straight, short, known, byte]

theorem zeroPage_of_shape {state : State} {mnemonic : Mnemonic} {operands : List Operand}
    {operand : Option Located} (shaped : shape? state mnemonic operands = some (.zeroPage, operand))
    (supported : mnemonic.supports .zeroPage = true) :
    ∃ located value, operand = some located ∧ state.eval located.expr = .ok value ∧
      0 ≤ value ∧ value ≤ 0xFF := by
  unfold shape? at shaped
  split at shaped <;>
    simp only [Option.some.injEq, Prod.mk.injEq, reduceCtorEq, false_and] at shaped
  rcases shaped with ⟨direct, rfl⟩
  rcases directMode_cases _ _ supported with ⟨-, value, known, low, high⟩ | ⟨absolute, -⟩
  · exact ⟨_, value, rfl, known, low, high⟩
  · rw [direct] at absolute
    cases absolute

theorem directMode_final {middle : State} {mnemonic : Mnemonic} {expr : Expr}
    (grows : SymbolTable.Grows (here.number < ·) middle.symbols layout.symbols)
    (early : ∀ name symbol, middle.symbols.lookup name = some symbol → symbol.line ≤ here.number)
    (short : mnemonic.supports .zeroPage = true) :
    (directMode middle mnemonic expr = .zeroPage ↔ layout.symbols.DefinedBy here.number expr ∧
        ∃ value, layout.symbols.evaluate expr = .ok value ∧ 0 ≤ value ∧ value ≤ 0xFF) ∧
      (directMode middle mnemonic expr ≠ .zeroPage →
        directMode middle mnemonic expr = .absolute) := by
  have known : (∃ value, middle.eval expr = .ok value ∧ 0 ≤ value ∧ value ≤ 0xFF) ↔
      layout.symbols.DefinedBy here.number expr ∧
        ∃ value, layout.symbols.evaluate expr = .ok value ∧ 0 ≤ value ∧ value ≤ 0xFF := by
    constructor
    · rintro ⟨value, found, byte⟩
      have same := (grows.evaluate_eq_ok_iff early).mp found
      exact ⟨same.1, value, same.2, byte⟩
    · rintro ⟨defined, value, found, byte⟩
      exact ⟨value, (grows.evaluate_eq_ok_iff early).mpr ⟨defined, found⟩, byte⟩
  rw [← known]
  rcases directMode_cases middle expr short with ⟨mode, byte⟩ | ⟨mode, none⟩
  · rw [mode]
    exact ⟨iff_of_true rfl byte, fun other => absurd rfl other⟩
  · rw [mode]
    exact ⟨iff_of_false nofun none, fun _ => rfl⟩

theorem zeroPage_final {placed : Placed} {mnemonic : Mnemonic} {operand : Option Located}
    (laid : (ofSource source).1 = .ok layout) (member : placed ∈ layout.statements)
    (content : placed.content = .instruction mnemonic .zeroPage operand) :
    mnemonic.supports .zeroPage = true ∧ ∃ located value, operand = some located ∧
      layout.symbols.evaluate located.expr = .ok value ∧ 0 ≤ value ∧ value ≤ 0xFF := by
  obtain ⟨front, here, back, next, now, split, advance, among⟩ := exists_line_of_mem laid member
  cases advance with
  | bare | constant | origin => cases among
  | statement read bound decided fits =>
      rw [List.mem_singleton] at among
      subst among
      simp only [State.put] at content
      subst content
      cases decided with
      | data named places made => cases dataContent_cases made
      | instruction named shaped supported =>
          obtain ⟨middle, found, mode, other, again, -, -, -, grows, -⟩ :=
            instruction_around laid split read
          have same := again.bindLabel_eq.symm.trans bound.bindLabel_eq
          subst same
          obtain ⟨located, value, some, known, byte⟩ := zeroPage_of_shape shaped supported
          exact ⟨supported, located, value, some, grows.evaluate known, byte⟩

/-- What the first pass makes of its partial table holds for the finished one: values stay, the
operands that got one byte are those that are known by their line and fit in a byte, and the
second pass loses nothing of them. -/
theorem decisions_hold_for_finished_table {source : List Char} {layout : Layout}
    (laid : (ofSource source).1 = .ok layout) :
    (∀ expr value, Evaluated source expr value → layout.symbols.evaluate expr = .ok value) ∧
    (∀ here ∈ SourceLine.ofSource source, ∀ label name expr span mnemonic,
      Line.parse here.text = .ok ⟨label, some (.instruction name [⟨.value expr, span⟩])⟩ →
      Mnemonic.ofName? name.name = some mnemonic → mnemonic.supports .zeroPage = true →
      ∃ mode, (layout.statements.filter (·.line = here.number)).map (·.content) =
          [.instruction mnemonic mode (some ⟨expr, span⟩)] ∧
        (mode = .zeroPage ↔ layout.symbols.DefinedBy here.number expr ∧
          ∃ value, layout.symbols.evaluate expr = .ok value ∧ 0 ≤ value ∧ value ≤ 0xFF) ∧
        (mode ≠ .zeroPage → mode = .absolute)) ∧
    ∀ placed ∈ layout.statements, ∀ mnemonic operand,
      placed.content = .instruction mnemonic .zeroPage operand →
      ∃ located opcode value, operand = some located ∧
        Instruction.encode? mnemonic .zeroPage = some opcode ∧
        layout.symbols.evaluate located.expr = .ok value ∧
        placed.encode layout.symbols = .ok [opcode, Placed.lowByte value] ∧
        ((Placed.lowByte value).toNat : Int) = value.toInt := by
  refine ⟨fun expr value evaluated => evaluated.final laid, ?_, ?_⟩
  · intro here member label name expr span mnemonic read named short
    rcases List.append_of_mem member with ⟨front, back, split⟩
    rcases instruction_around laid split read with
      ⟨middle, found, mode, operand, bound, same, shaped, -, grows, only⟩
    rw [named] at same
    cases same
    cases shaped
    refine ⟨_, by rw [only]; rfl, directMode_final grows ?_ short⟩
    intro name symbol stands
    rcases bound.grows.fresh stands with old | new
    · exact Nat.le_of_lt (lines_stateAfter laid split name symbol old)
    · exact Nat.le_of_eq new
  · intro placed member mnemonic operand content
    obtain ⟨supported, located, value, some, known, low, high⟩ :=
      zeroPage_final laid member content
    subst some
    obtain ⟨opcode, coded⟩ := Option.isSome_iff_exists.mp supported
    exact ⟨located, opcode, value, rfl, coded, known, Placed.encode_zeroPage content coded known,
      Placed.toNat_lowByte low high⟩

theorem decisions_hold_for_finished_table_forward :
    let source := "P = $10\n.ORG P + 1\nL: LDA L\nLDA M\nM:".toList
    let origin : Expr := .binary .add (.symbol ⟨"P", ⟨5, 1⟩⟩) (.number 1)
    let near : Located := ⟨.symbol ⟨"L", ⟨7, 1⟩⟩, ⟨7, 1⟩⟩
    let far : Located := ⟨.symbol ⟨"M", ⟨4, 1⟩⟩, ⟨4, 1⟩⟩
    ∃ layout, (ofSource source).1 = .ok layout ∧ layout.symbols.evaluate origin = .ok 17 ∧
      (layout.statements.filter (·.line = 3)).map (·.content) =
        [.instruction .lda .zeroPage (some near)] ∧
      (layout.statements.filter (·.line = 4)).map (·.content) =
        [.instruction .lda .absolute (some far)] ∧
      layout.symbols.evaluate far.expr = .ok 22 := by
  intro source origin near far
  let symbols : SymbolTable :=
    ⟨[("P", ⟨16, .constant, 1⟩), ("L", ⟨17, .label, 3⟩), ("M", ⟨22, .label, 5⟩)]⟩
  let layout : Layout :=
    ⟨[⟨3, 19, 17, ⟨3, 5⟩, .instruction .lda .zeroPage (some near)⟩,
      ⟨4, 28, 19, ⟨0, 5⟩, .instruction .lda .absolute (some far)⟩], symbols⟩
  have laid : (ofSource source).1 = .ok layout := by decide +kernel
  rcases decisions_hold_for_finished_table laid with ⟨values, modes, -⟩
  let lines := SourceLine.ofSource source
  have second : lines = lines.take 1 ++ ⟨2, 8, ".ORG P + 1".toList⟩ :: lines.drop 2 := rfl
  have third : ⟨3, 19, "L: LDA L".toList⟩ ∈ lines := List.mem_of_getElem? (i := 2) rfl
  have fourth : ⟨4, 28, "LDA M".toList⟩ ∈ lines := List.mem_of_getElem? (i := 3) rfl
  have read : Line.parse ".ORG P + 1".toList =
      .ok ⟨none, some (.directive ⟨".ORG", ⟨0, 4⟩⟩ [⟨.value origin, ⟨5, 5⟩⟩])⟩ := by decide +kernel
  have set : Evaluated source origin 17 :=
    .origin second read (by decide +kernel) (by decide +kernel)
  rcases modes _ third (some ⟨"L", ⟨0, 1⟩⟩) ⟨"LDA", ⟨3, 3⟩⟩ near.expr near.span .lda
    (by decide +kernel) (by decide +kernel) (by decide +kernel) with ⟨mode, placed, short, -⟩
  rcases modes _ fourth none ⟨"LDA", ⟨0, 3⟩⟩ far.expr far.span .lda
    (by decide +kernel) (by decide +kernel) (by decide +kernel) with
    ⟨wide, placedWide, long, absolute⟩
  have isShort : mode = .zeroPage := by
    refine short.mpr ⟨?_, 17, by decide +kernel, by decide, by decide⟩
    intro ident member
    cases List.mem_singleton.mp member
    exact ⟨⟨17, .label, 3⟩, by decide +kernel, by decide⟩
  have isWide : wide ≠ .zeroPage := by
    intro same
    rcases (long.mp same).1 _ (List.mem_singleton.mpr rfl) with ⟨symbol, found, early⟩
    have late : symbols.lookup "M" = some ⟨22, .label, 5⟩ := by decide +kernel
    cases late.symm.trans found
    exact absurd early (by decide)
  rw [isShort] at placed
  rw [absolute isWide] at placedWide
  exact ⟨layout, laid, values origin 17 set, placed, placedWide, by decide +kernel⟩

end Layout

end EightBit
