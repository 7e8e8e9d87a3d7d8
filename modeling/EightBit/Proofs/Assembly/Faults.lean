import Mathlib.Data.List.Forall2
import EightBit.Proofs.Assembly.Distance
import EightBit.Proofs.SymbolTable.Missing

/-!
The faults that the second pass finds. A statement is sound if the symbols of its operands are
defined and its target, if it is a branch, is in reach. The second pass accepts sound statements,
and reports exactly one fault for each of the others: the first symbol that is not defined, or else
the distance of the branch.
-/
namespace EightBit

def DataItem.idents : DataItem → List Ident
  | value expr => expr.symbols
  | string _ => []

def Content.idents : Content → List Ident
  | instruction _ _ operand => operand.elim [] (·.expr.symbols)
  | bytes items => items.flatMap DataItem.idents
  | words values => values.flatMap Expr.symbols
  | terminated _ => []

namespace Placed

structure Sound (symbols : SymbolTable) (placed : Placed) : Prop where
  defined : ∀ ident ∈ placed.content.idents, symbols.contains ident.name = true
  near : ∀ distance ∈ placed.distance? symbols, -128 ≤ distance ∧ distance ≤ 127

variable {symbols : SymbolTable} {placed : Placed}

instance : DecidablePred (Sound symbols) := fun placed =>
  decidable_of_iff
    ((∀ ident ∈ placed.content.idents, symbols.contains ident.name = true) ∧
      ∀ distance ∈ placed.distance? symbols, -128 ≤ distance ∧ distance ≤ 127)
    ⟨fun ⟨defined, near⟩ => ⟨defined, near⟩, fun ⟨defined, near⟩ => ⟨defined, near⟩⟩

/-- What is wrong with a statement that is not sound. -/
inductive Faulty (symbols : SymbolTable) (placed : Placed) : Diagnostic → Prop
  | undefined {front back : List Ident} {ident : Ident}
      (written : placed.content.idents = front ++ ident :: back)
      (earlier : ∀ other ∈ front, symbols.contains other.name = true)
      (absent : symbols.contains ident.name = false) :
      Faulty symbols placed
        ⟨.undefinedSymbol ident.name none, placed.line, ident.span.shift placed.offset⟩
  | outOfReach {mnemonic : Mnemonic} {located : Located} {value reported : Int64}
      (branch : placed.content = .instruction mnemonic .relative (some located))
      (defined : ∀ ident ∈ placed.content.idents, symbols.contains ident.name = true)
      (known : symbols.evaluate located.expr = .ok value)
      (exact : reported.toInt = value.toInt - (placed.address + 2))
      (far : reported.toInt < -128 ∨ 127 < reported.toInt) :
      Faulty symbols placed
        ⟨.branchOutOfRange reported, placed.line, located.span.shift placed.offset⟩

def undefined (placed : Placed) (ident : Ident) : Diagnostic :=
  ⟨.undefinedSymbol ident.name none, placed.line, ident.span.shift placed.offset⟩

theorem resolve_eq (symbols : SymbolTable) (placed : Placed) (expr : Expr) :
    placed.resolve symbols expr = (symbols.evaluate expr).mapError placed.undefined := by
  unfold resolve SymbolTable.evaluate
  cases expr.eval fun ident => symbols.value? ident.name <;> rfl

theorem stopsAt_resolve (symbols : SymbolTable) (placed : Placed) (expr : Expr) :
    StopsAt placed.undefined (symbols.missing? expr.symbols) (placed.resolve symbols expr) := by
  rw [resolve_eq]
  exact (symbols.stopsAt_evaluate expr).mapError placed.undefined

theorem stopsAt_itemBytes (symbols : SymbolTable) (placed : Placed) (items : List DataItem) :
    StopsAt placed.undefined (symbols.missing? (items.flatMap DataItem.idents))
      (placed.itemBytes symbols items) := by
  induction items with
  | nil => exact .value []
  | cons item rest ih =>
      rw [List.flatMap_cons, SymbolTable.missing?_append]
      cases item with
      | value expr =>
          apply (stopsAt_resolve symbols placed expr).bind
          intro value _
          exact ih.bind_ok fun bytes _ => ⟨_, rfl⟩
      | string text => exact ih.bind_ok fun bytes _ => ⟨_, rfl⟩

theorem stopsAt_wordBytes (symbols : SymbolTable) (placed : Placed) (values : List Expr) :
    StopsAt placed.undefined (symbols.missing? (values.flatMap Expr.symbols))
      (placed.wordBytes symbols values) := by
  induction values with
  | nil => exact .value []
  | cons expr rest ih =>
      rw [List.flatMap_cons, SymbolTable.missing?_append]
      apply (stopsAt_resolve symbols placed expr).bind
      intro value _
      exact ih.bind_ok fun bytes _ => ⟨_, rfl⟩

theorem evaluate_of_resolve {expr : Expr} {value : Int64}
    (resolved : placed.resolve symbols expr = .ok value) :
    symbols.evaluate expr = .ok value := by
  rw [resolve_eq] at resolved
  cases known : symbols.evaluate expr with
  | error ident =>
      rw [known] at resolved
      cases resolved
  | ok other =>
      rw [known] at resolved
      cases resolved
      rfl

theorem Recorded.stopsAt_encode (recorded : placed.Recorded)
    (bounded : placed.overflows symbols = false)
    (near : ∀ distance ∈ placed.distance? symbols, -128 ≤ distance ∧ distance ≤ 127) :
    StopsAt placed.undefined (symbols.missing? placed.content.idents)
      (placed.encode symbols) := by
  unfold encode
  cases content : placed.content with
  | bytes items => exact stopsAt_itemBytes symbols placed items
  | words values => exact stopsAt_wordBytes symbols placed values
  | terminated text => exact .value _
  | instruction mnemonic mode operand =>
      obtain ⟨opcode, coded⟩ := Option.isSome_iff_exists.mp (recorded.coded content)
      simp only [instructionBytes, coded]
      cases operand with
      | none => exact .value [opcode]
      | some located =>
          apply (stopsAt_resolve symbols placed located.expr).bind_ok
          intro value resolved
          have reach : mode = .relative →
              -128 ≤ (value - Int64.ofNat (placed.address + 2)).toInt ∧
                (value - Int64.ofNat (placed.address + 2)).toInt ≤ 127 := by
            rintro rfl
            have known := evaluate_of_resolve resolved
            rw [recorded.toInt_reported content known, bounded, if_neg Bool.false_ne_true,
              Int.add_zero]
            exact near _ (distance?_branch content known)
          obtain ⟨bytes, made⟩ := exists_operandBytes located.span reach
          rw [made]
          exact ⟨opcode :: bytes, rfl⟩

theorem Recorded.encode_cases (recorded : placed.Recorded)
    (bounded : placed.overflows symbols = false) :
    (placed.Sound symbols ∧ ∃ bytes, placed.encode symbols = .ok bytes) ∨
      (¬ placed.Sound symbols ∧
        ∃ error, placed.encode symbols = .error error ∧ placed.Faulty symbols error) := by
  by_cases near : ∀ distance ∈ placed.distance? symbols, -128 ≤ distance ∧ distance ≤ 127
  · have stops := recorded.stopsAt_encode bounded near
    cases missing : symbols.missing? placed.content.idents with
    | none =>
        have defined := SymbolTable.missing?_eq_none_iff.mp missing
        exact Or.inl ⟨⟨defined, near⟩, stops.exists_ok_iff.mpr missing⟩
    | some ident =>
        rw [missing] at stops
        obtain ⟨front, back, written, earlier, absent⟩ :=
          SymbolTable.missing?_eq_some_iff.mp missing
        refine Or.inr ⟨fun sound => ?_, _, stops.eq_error, .undefined written earlier absent⟩
        have member : ident ∈ placed.content.idents := by
          rw [written]
          exact List.mem_append_right _ List.mem_cons_self
        rw [sound.defined ident member] at absent
        cases absent
  · refine Or.inr ⟨fun sound => near sound.near, ?_⟩
    push Not at near
    obtain ⟨distance, found, far⟩ := near
    obtain ⟨mnemonic, located, value, content, known, rfl⟩ := branch_of_distance? found
    have exact := recorded.toInt_reported content known
    rw [bounded, if_neg Bool.false_ne_true, Int.add_zero] at exact
    have strays : ¬ (-128 ≤ (value - Int64.ofNat (placed.address + 2)).toInt ∧
        (value - Int64.ofNat (placed.address + 2)).toInt ≤ 127) := by
      rw [exact]
      omega
    have idents : placed.content.idents = located.expr.symbols := by
      rw [content]
      rfl
    refine ⟨_, recorded.encode_branch content known strays, .outOfReach content ?_ known exact ?_⟩
    · rw [idents, ← SymbolTable.missing?_eq_none_iff]
      exact (symbols.stopsAt_evaluate located.expr).exists_ok_iff.mp ⟨value, known⟩
    · omega

end Placed

namespace Program

variable {symbols : SymbolTable} {source : List Char} {layout : Layout}

theorem errors_emit {statements : List Placed}
    (recorded : ∀ placed ∈ statements, placed.Recorded)
    (bounded : ∀ placed ∈ statements, placed.overflows symbols = false) (image : Image) :
    List.Forall₂ (Placed.Faulty symbols)
      (statements.filter fun placed => ¬ placed.Sound symbols)
      (emit symbols image statements).errors := by
  induction statements generalizing image with
  | nil => exact .nil
  | cons first rest ih =>
      rw [List.forall_mem_cons] at recorded bounded
      rcases recorded.1.encode_cases bounded.1 with
        ⟨sound, bytes, encoded⟩ | ⟨unsound, error, failed, faulty⟩
      · rw [List.filter_cons_of_neg (by simpa using sound), emit, encoded]
        exact ih recorded.2 bounded.2 _
      · rw [List.filter_cons_of_pos (by simpa using unsound), emit, failed]
        exact .cons faulty (ih recorded.2 bounded.2 image)

theorem ofLayout_cases (layout : Layout) :
    ((emit layout.symbols .empty layout.statements).errors = [] ∧
      ∃ program, (ofLayout layout).1 = .ok program) ∨
    ((emit layout.symbols .empty layout.statements).errors ≠ [] ∧
      (ofLayout layout).1 = .error (emit layout.symbols .empty layout.statements).errors) := by
  by_cases clean : (emit layout.symbols .empty layout.statements).errors = []
  · refine Or.inl ⟨clean, ?_⟩
    simp only [ofLayout, clean, List.isEmpty_nil, ↓reduceIte]
    exact ⟨_, rfl⟩
  · refine Or.inr ⟨clean, ?_⟩
    simp only [ofLayout, List.isEmpty_iff, clean, ↓reduceIte]

theorem assemble_of_laid (laid : (Layout.ofSource source).1 = .ok layout) :
    assemble source = (ofLayout layout).1.mapError (⟨.codeGeneration, ·⟩) := by
  cases ran : Layout.ofSource source with | mk outcome events => ?_
  rw [ran] at laid
  subst laid
  cases built : ofLayout layout with | mk result more => ?_
  cases result <;> simp only [assemble, assembleTelling, ran, built, Except.mapError]

/-- Where no distance overflows, the second pass succeeds exactly if every statement is sound, and
otherwise it reports one fault for each statement that is not, in the order of the source. What it
gets of the first pass always has an opcode, and a branch always has an operand. -/
theorem second_pass_reports_faults (laid : (Layout.ofSource source).1 = .ok layout)
    (bounded : ∀ placed ∈ layout.statements, placed.overflows layout.symbols = false) :
    (assembleGuarded source).1 = .ok ((ofLayout layout).1.mapError (⟨.codeGeneration, ·⟩)) ∧
    ((∃ program, (ofLayout layout).1 = .ok program) ↔
      ∀ placed ∈ layout.statements, placed.Sound layout.symbols) ∧
    (∀ errors, (ofLayout layout).1 = .error errors →
      List.Forall₂ (Placed.Faulty layout.symbols)
        (layout.statements.filter fun placed => ¬ placed.Sound layout.symbols) errors) ∧
    layout.statements.Pairwise (·.line < ·.line) ∧
    ∀ placed ∈ layout.statements, ∀ mnemonic mode operand,
      placed.content = .instruction mnemonic mode operand →
      (Instruction.encode? mnemonic mode).isSome = true ∧
      (mode = .relative → ∃ located, operand = some located ∧
        ∀ value, layout.symbols.evaluate located.expr = .ok value →
          placed.distance? layout.symbols = some (value.toInt - (placed.address + 2))) := by
  have recorded : ∀ placed ∈ layout.statements, placed.Recorded :=
    fun placed member => Layout.recorded_of_mem laid member
  have faults := errors_emit recorded bounded .empty
  have all_sound : (emit layout.symbols .empty layout.statements).errors = [] ↔
      ∀ placed ∈ layout.statements, placed.Sound layout.symbols := by
    rw [← List.length_eq_zero_iff, ← faults.length_eq, List.length_eq_zero_iff,
      List.filter_eq_nil_iff]
    simp
  refine ⟨?_, ?_, ?_, Layout.pairwise_line laid, ?_⟩
  · rw [assembleGuarded_of_bounded laid bounded, assemble_of_laid laid]
  · rw [← all_sound]
    rcases ofLayout_cases layout with ⟨clean, made⟩ | ⟨faulty, failed⟩
    · exact iff_of_true made clean
    · rw [failed]
      exact iff_of_false nofun faulty
  · intro errors failed
    rcases ofLayout_cases layout with ⟨clean, program, made⟩ | ⟨faulty, reported⟩
    · rw [made] at failed
      cases failed
    · rw [reported] at failed
      cases failed
      exact faults
  · intro placed member mnemonic mode operand content
    refine ⟨(recorded placed member).coded content, ?_⟩
    rintro rfl
    have complete := (recorded placed member).complete
    rw [content] at complete
    cases operand with
    | none => cases complete.mp rfl
    | some located =>
        exact ⟨located, rfl, fun value known => Placed.distance?_branch content known⟩

theorem second_pass_reports_faults_three :
    let source := "LDA A + B\nBNE 500\nNOP\n.WORD 1, C\n.BYTE \"x\", 7".toList
    ∃ layout errors, (Layout.ofSource source).1 = .ok layout ∧
      (ofLayout layout).1 = .error errors ∧
      errors.map (fun error => (error.line, error.fault)) =
        [(1, .undefinedSymbol "A" none), (2, .branchOutOfRange 495),
          (4, .undefinedSymbol "C" none)] ∧
      List.Forall₂ (Placed.Faulty layout.symbols)
        (layout.statements.filter fun placed => ¬ placed.Sound layout.symbols) errors := by
  intro source
  let a : Expr := .symbol ⟨"A", ⟨4, 1⟩⟩
  let b : Expr := .symbol ⟨"B", ⟨8, 1⟩⟩
  let c : Expr := .symbol ⟨"C", ⟨9, 1⟩⟩
  let layout : Layout :=
    ⟨[⟨1, 0, 0, ⟨0, 9⟩, .instruction .lda .absolute (some ⟨.binary .add a b, ⟨4, 5⟩⟩)⟩,
      ⟨2, 10, 3, ⟨0, 7⟩, .instruction .bne .relative (some ⟨.number 500, ⟨4, 3⟩⟩)⟩,
      ⟨3, 18, 5, ⟨0, 3⟩, .instruction .nop .implied none⟩,
      ⟨4, 22, 6, ⟨0, 5⟩, .words [.number 1, c]⟩,
      ⟨5, 33, 10, ⟨0, 5⟩, .bytes [.string ['x'], .value (.number 7)]⟩], .empty⟩
  have laid : (Layout.ofSource source).1 = .ok layout := by decide +kernel
  obtain ⟨-, -, faults, -⟩ := second_pass_reports_faults laid (by decide +kernel)
  rcases ofLayout_cases layout with ⟨clean, -⟩ | ⟨-, failed⟩
  · exact absurd clean (by decide +kernel)
  · exact ⟨layout, _, laid, failed, by decide +kernel, faults _ failed⟩

end Program

end EightBit
