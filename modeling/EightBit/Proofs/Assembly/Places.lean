import EightBit.Proofs.Assembly.Faults
import EightBit.Proofs.Layout.Places

namespace EightBit

namespace Placed

variable {here : SourceLine} {placed : Placed} {symbols : SymbolTable} {expr : Expr} {span : Span}

theorem PointsInto.report (points : placed.PointsInto here)
    (ends : span.EndsAt (Text.Boundary here.text)) (fault : Fault) :
    Diagnostic.PointsInto here ⟨fault, placed.line, span.shift placed.offset⟩ :=
  ⟨points.line, span, ends, congrArg span.shift points.offset⟩

abbrev GivesInto {α : Type} (here : SourceLine) : Except Diagnostic α → Prop :=
  Gives (Diagnostic.PointsInto here) fun _ => True

theorem gives_resolve (points : placed.PointsInto here)
    (ends : expr.EndsAt (Text.Boundary here.text)) :
    GivesInto here (placed.resolve symbols expr) := by
  have gives := ends.gives_eval fun ident => symbols.value? ident.name
  unfold resolve
  split
  · exact .ok trivial
  · rename_i ident failed
    exact .error (points.report (gives.of_error failed) _)

theorem gives_operandBytes (points : placed.PointsInto here)
    (ends : span.EndsAt (Text.Boundary here.text)) (mode : AddressingMode) (value : Int64) :
    GivesInto here (placed.operandBytes mode span value) := by
  cases mode with
  | relative =>
      unfold operandBytes
      dsimp only
      split
      · exact .ok trivial
      · exact .error (points.report ends _)
  | _ => exact .ok trivial

theorem gives_itemBytes (points : placed.PointsInto here) {items : List DataItem}
    (ends : ∀ item ∈ items, item.EndsAt (Text.Boundary here.text)) :
    GivesInto here (placed.itemBytes symbols items) := by
  induction items with
  | nil => exact .ok trivial
  | cons item rest ih =>
      obtain ⟨now, later⟩ := List.forall_mem_cons.mp ends
      cases item with
      | value expr =>
          exact (gives_resolve points now).bind fun _ _ => (ih later).bind fun _ _ => .ok trivial
      | string text => exact (ih later).bind fun _ _ => .ok trivial

theorem gives_wordBytes (points : placed.PointsInto here) {values : List Expr}
    (ends : ∀ value ∈ values, value.EndsAt (Text.Boundary here.text)) :
    GivesInto here (placed.wordBytes symbols values) := by
  induction values with
  | nil => exact .ok trivial
  | cons expr rest ih =>
      obtain ⟨now, later⟩ := List.forall_mem_cons.mp ends
      exact (gives_resolve points now).bind fun _ _ => (ih later).bind fun _ _ => .ok trivial

theorem gives_encode (points : placed.PointsInto here) (symbols : SymbolTable) :
    GivesInto here (placed.encode symbols) := by
  have ends := points.content
  unfold encode
  generalize placed.content = content at ends
  cases content with
  | bytes items => exact gives_itemBytes points ends
  | words values => exact gives_wordBytes points ends
  | terminated text => exact .ok trivial
  | instruction mnemonic mode operand =>
      unfold instructionBytes
      dsimp only
      split
      · exact .error (points.report points.span _)
      · split
        · exact .ok trivial
        · rename_i located
          obtain ⟨span_ends, expr_ends⟩ := ends located rfl
          apply (gives_resolve points expr_ends).bind
          intro value _
          exact (gives_operandBytes points span_ends mode value).bind fun _ _ => .ok trivial

def fault? (symbols : SymbolTable) (placed : Placed) : Option Diagnostic :=
  match placed.encode symbols with
  | .ok _ => none
  | .error error => some error

theorem PointsInto.of_fault? (points : placed.PointsInto here) {diagnostic : Diagnostic}
    (reported : placed.fault? symbols = some diagnostic) : diagnostic.PointsInto here := by
  unfold fault? at reported
  split at reported
  · cases reported
  · rename_i failed
    cases reported
    exact (gives_encode points symbols).of_error failed

end Placed

theorem Program.errors_emit_eq (symbols : SymbolTable) (image : Image) (statements : List Placed) :
    (emit symbols image statements).errors = statements.filterMap (Placed.fault? symbols) := by
  induction statements generalizing image with
  | nil => rfl
  | cons placed rest ih =>
      rw [List.filterMap_cons, Placed.fault?, emit]
      cases placed.encode symbols with
      | ok bytes => exact ih _
      | error error => exact congrArg (error :: ·) (ih image)

/-- Faults that point into lines of a source, in the order of the lines. -/
structure InOrder (source : List Char) (errors : List Diagnostic) : Prop where
  points : ∀ diagnostic ∈ errors,
    ∃ here ∈ SourceLine.ofSource source, diagnostic.PointsInto here
  ordered : errors.Pairwise (·.line ≤ ·.line)

theorem Layout.inOrder_errors {source : List Char} {errors : List Diagnostic}
    (failed : (ofSource source).1 = .error errors) : InOrder source errors := by
  have points := (exists_pointsInto_run (SourceLine.ofSource source) .initial).1
  have ordered := pairwise_line_run
    (SourceLine.pairwise_number_listFrom 1 0 (Text.lines source)) .initial
  unfold ofSource at failed
  dsimp only at failed
  split at failed
  · cases failed
  · cases failed
    exact ⟨points, ordered⟩

theorem Program.inOrder_errors {source : List Char} {layout : Layout}
    (laid : (Layout.ofSource source).1 = .ok layout) (image : Image) :
    InOrder source (emit layout.symbols image layout.statements).errors := by
  have points : ∀ placed ∈ layout.statements,
      ∃ here ∈ SourceLine.ofSource source, placed.PointsInto here := by
    have run := (Layout.exists_pointsInto_run (SourceLine.ofSource source) .initial).2
    unfold Layout.ofSource at laid
    dsimp only at laid
    split at laid
    · cases laid
      exact run
    · cases laid
  rw [errors_emit_eq]
  constructor
  · intro diagnostic member
    obtain ⟨placed, among, reported⟩ := List.mem_filterMap.mp member
    obtain ⟨here, listed, stands⟩ := points placed among
    exact ⟨here, listed, stands.of_fault? reported⟩
  · have line {placed : Placed} {diagnostic : Diagnostic} (among : placed ∈ layout.statements)
        (reported : placed.fault? layout.symbols = some diagnostic) :
        diagnostic.line = placed.line := by
      obtain ⟨here, -, stands⟩ := points placed among
      exact (stands.of_fault? reported).line.trans stands.line.symm
    apply List.pairwise_filterMap.mpr
    apply (Layout.pairwise_line laid).imp_of_mem
    intro first second early late before diagnostic reported other later
    rw [line early reported, line late later]
    exact Nat.le_of_lt before

theorem SourceLine.number_lt_of_mem_listFrom {number offset : Nat} {texts : List (List Char)}
    {here : SourceLine} (member : here ∈ listFrom number offset texts) :
    here.number < number + texts.length := by
  induction texts generalizing number offset with
  | nil => cases member
  | cons text rest ih =>
      rw [List.length_cons]
      rcases List.mem_cons.mp member with rfl | later
      · exact Nat.lt_add_of_pos_right (Nat.succ_pos _)
      · have bound := ih later
        omega

theorem assemble_of_unlaid {source : List Char} {errors : List Diagnostic}
    (failed : (Layout.ofSource source).1 = .error errors) :
    assemble source = .error ⟨.symbols, errors⟩ := by
  cases ran : Layout.ofSource source with | mk outcome events => ?_
  rw [ran] at failed
  subst failed
  simp only [assemble, assembleTelling, ran]

/-- The diagnostic is told of a line that the source has, and of whole characters of this line. -/
structure Diagnostic.Points (source : List Char) (diagnostic : Diagnostic) : Prop where
  line_pos : 1 ≤ diagnostic.line
  line_le : diagnostic.line ≤ (Text.lines source).length
  inside : ∃ here : SourceLine, here.StandsIn source ∧ here.number = diagnostic.line ∧
    here.offset ≤ diagnostic.span.start ∧
    diagnostic.span.stop ≤ here.offset + Text.byteLength here.text
  start : Text.Boundary source diagnostic.span.start
  stop : Text.Boundary source diagnostic.span.stop

theorem Diagnostic.PointsInto.points {source : List Char} {here : SourceLine}
    {diagnostic : Diagnostic} (points : diagnostic.PointsInto here)
    (listed : here ∈ SourceLine.ofSource source) : diagnostic.Points source := by
  obtain ⟨line, span, ends, place⟩ := points
  have low : 1 ≤ here.number := SourceLine.number_ge_of_mem_listFrom listed
  have high : here.number < 1 + (Text.lines source).length :=
    SourceLine.number_lt_of_mem_listFrom listed
  have stands := SourceLine.standsIn_of_mem listed
  have stop : diagnostic.span.stop = span.stop + here.offset := by
    rw [place, Span.stop_shift]
  have start : diagnostic.span.start = span.start + here.offset := by
    rw [place]
    rfl
  have within := ends.stop.le
  obtain ⟨front, back, whole, -, -, -, -, offset⟩ := id stands
  refine ⟨by omega, by omega, ⟨here, stands, line.symm, by omega, by omega⟩, ?_, ?_⟩
  · rw [start, whole, offset]
    exact ends.start.within front back
  · rw [stop, whole, offset]
    exact ends.stop.within front back

/-- Whichever pass rejects a source, every diagnostic points into its own line, at whole
characters, and the diagnostics are listed in the order of their lines. -/
theorem diagnostics_point_into_lines {source : List Char} {error : AssemblyError}
    (rejected : assemble source = .error error) :
    (∀ diagnostic ∈ error.errors, diagnostic.Points source) ∧
      error.errors.Pairwise (·.line ≤ ·.line) := by
  have found : InOrder source error.errors := by
    cases laid : (Layout.ofSource source).1 with
    | error errors =>
        rw [assemble_of_unlaid laid] at rejected
        cases rejected
        exact Layout.inOrder_errors laid
    | ok layout =>
        rw [Program.assemble_of_laid laid] at rejected
        rcases Program.ofLayout_cases layout with ⟨-, program, made⟩ | ⟨-, failed⟩
        · rw [made] at rejected
          cases rejected
        · rw [failed] at rejected
          cases rejected
          exact Program.inOrder_errors laid .empty
  refine ⟨?_, found.ordered⟩
  intro diagnostic member
  obtain ⟨here, listed, points⟩ := found.points diagnostic member
  exact points.points listed

theorem diagnostics_point_into_lines_multibyte :
    let first := "; é\r\n\nlda #€".toList
    let second := "\r\n.byte \"é\", up".toList
    ∃ error other, assemble first = .error error ∧ assemble second = .error other ∧
      error = ⟨.symbols, [⟨.malformedLine (.unexpectedCharacter "€"), 3, ⟨12, 3⟩⟩]⟩ ∧
      other = ⟨.codeGeneration, [⟨.undefinedSymbol "UP" none, 2, ⟨14, 2⟩⟩]⟩ ∧
      (∀ diagnostic ∈ error.errors, diagnostic.Points first) ∧
      ∀ diagnostic ∈ other.errors, diagnostic.Points second := by
  intro first second
  let text : Content := .bytes [.string ['é'], .value (.symbol ⟨"UP", ⟨12, 2⟩⟩)]
  let layout : Layout := ⟨[⟨2, 2, 0, ⟨0, 5⟩, text⟩], .empty⟩
  let fault : Diagnostic := ⟨.undefinedSymbol "UP" none, 2, ⟨14, 2⟩⟩
  have unlaid : (Layout.ofSource first).1 =
      .error [⟨.malformedLine (.unexpectedCharacter "€"), 3, ⟨12, 3⟩⟩] := by decide +kernel
  have laid : (Layout.ofSource second).1 = .ok layout := by decide +kernel
  have reported : (Program.emit layout.symbols .empty layout.statements).errors = [fault] := by
    decide +kernel
  have early := assemble_of_unlaid unlaid
  have late : assemble second = .error ⟨.codeGeneration, [fault]⟩ := by
    rw [Program.assemble_of_laid laid]
    rcases Program.ofLayout_cases layout with ⟨clean, -⟩ | ⟨-, failed⟩
    · rw [reported] at clean
      cases clean
    · rw [failed, reported]
      rfl
  exact ⟨_, _, early, late, rfl, rfl, (diagnostics_point_into_lines early).1,
    (diagnostics_point_into_lines late).1⟩

end EightBit
