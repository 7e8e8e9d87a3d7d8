import EightBit.Proofs.Assembly.Faults
import EightBit.Proofs.Layout.Alike

namespace EightBit

namespace Placed

variable (symbols : SymbolTable) (placed : Placed)

theorem agree_resolve (expr : Expr) :
    Agree (·.outline = ·.outline) Eq (placed.resolve symbols expr)
      (placed.bare.resolve symbols expr.bare) := by
  unfold resolve
  rw [Expr.eval_bare symbols.value?]
  cases expr.eval fun ident => symbols.value? ident.name with
  | error ident => exact .error rfl
  | ok value => exact .ok rfl

theorem agree_operandBytes (mode : AddressingMode) (span span' : Span) (value : Int64) :
    Agree (·.outline = ·.outline) Eq (placed.operandBytes mode span value)
      (placed.bare.operandBytes mode span' value) := by
  cases mode with
  | relative =>
      have address : placed.bare.address = placed.address := rfl
      unfold operandBytes
      rw [address]
      dsimp only
      split
      · exact .ok rfl
      · exact .error rfl
  | _ => exact .ok rfl

theorem agree_itemBytes (items : List DataItem) :
    Agree (·.outline = ·.outline) Eq (placed.itemBytes symbols items)
      (placed.bare.itemBytes symbols (items.map DataItem.bare)) := by
  induction items with
  | nil => exact .ok rfl
  | cons item rest ih =>
      cases item with
      | value expr =>
          apply (agree_resolve symbols placed expr).bind
          rintro value _ - rfl
          exact ih.map fun bytes _ same => congrArg (lowByte value :: ·) same
      | string text => exact ih.map fun bytes _ same => congrArg (Text.bytes text ++ ·) same

theorem agree_wordBytes (values : List Expr) :
    Agree (·.outline = ·.outline) Eq (placed.wordBytes symbols values)
      (placed.bare.wordBytes symbols (values.map Expr.bare)) := by
  induction values with
  | nil => exact .ok rfl
  | cons expr rest ih =>
      apply (agree_resolve symbols placed expr).bind
      rintro value _ - rfl
      exact ih.map fun bytes _ same => congrArg (word value ++ ·) same

theorem agree_instructionBytes (mnemonic : Mnemonic) (mode : AddressingMode)
    (operand : Option Located) :
    Agree (·.outline = ·.outline) Eq (placed.instructionBytes symbols mnemonic mode operand)
      (placed.bare.instructionBytes symbols mnemonic mode (operand.map Located.bare)) := by
  unfold instructionBytes
  cases Instruction.encode? mnemonic mode with
  | none => exact .error rfl
  | some opcode =>
      cases operand with
      | none => exact .ok rfl
      | some located =>
          apply (agree_resolve symbols placed located.expr).bind
          rintro value _ - rfl
          apply (agree_operandBytes placed mode located.span ⟨0, 0⟩ value).map
          intro bytes _ same
          exact congrArg (opcode :: ·) same

theorem agree_encode :
    Agree (·.outline = ·.outline) Eq (placed.encode symbols) (placed.bare.encode symbols) := by
  obtain ⟨line, offset, address, span, content⟩ := placed
  cases content with
  | instruction mnemonic mode operand => exact agree_instructionBytes symbols _ mnemonic mode operand
  | bytes items => exact agree_itemBytes symbols _ items
  | words values => exact agree_wordBytes symbols _ values
  | terminated text => exact .ok rfl

theorem overflows_bare : placed.bare.overflows symbols = placed.overflows symbols := by
  have distance : placed.bare.distance? symbols = placed.distance? symbols := by
    obtain ⟨line, offset, address, span, content⟩ := placed
    cases content with
    | instruction mnemonic mode operand =>
        cases mode with
        | relative =>
            cases operand with
            | none => rfl
            | some located =>
                have resolved := agree_resolve symbols
                  ⟨line, offset, address, span, .instruction mnemonic .relative (some located)⟩
                  located.expr
                simp only [distance?, resolved.toOption]
                rfl
        | _ => rfl
    | _ => rfl
  rw [overflows, overflows, distance]

end Placed

namespace Program

def Emission.outline (emission : Emission) : Image × List Overwrite × List (Nat × String) :=
  (emission.image, emission.overwrites, emission.errors.map Diagnostic.outline)

theorem outline_emit_bare (symbols : SymbolTable) (image : Image) (statements : List Placed) :
    (emit symbols image statements).outline =
      (emit symbols image (statements.map Placed.bare)).outline := by
  induction statements generalizing image with
  | nil => rfl
  | cons placed rest ih =>
      have encoded := placed.agree_encode symbols
      rw [List.map_cons, emit, emit]
      generalize placed.encode symbols = first at encoded
      generalize placed.bare.encode symbols = second at encoded
      cases encoded with
      | @ok bytes _ same =>
          subst same
          have later := ih (image.writeAll placed.line placed.address bytes).1
          simp only [Emission.outline, Prod.mk.injEq] at later ⊢
          obtain ⟨written, overwrites, errors⟩ := later
          exact ⟨written, congrArg _ overwrites, errors⟩
      | error same =>
          have later := ih image
          simp only [Emission.outline, Prod.mk.injEq] at later ⊢
          obtain ⟨written, overwrites, errors⟩ := later
          exact ⟨written, overwrites, congrArg₂ List.cons same errors⟩

variable {layout layout' : Layout}

theorem agree_ofLayout (symbols : layout.symbols = layout'.symbols)
    (statements : layout.statements.map Placed.bare = layout'.statements.map Placed.bare) :
    Agree (fun errors errors' => errors.map Diagnostic.outline = errors'.map Diagnostic.outline)
      Eq (ofLayout layout).1 (ofLayout layout').1 := by
  have made : (emit layout.symbols .empty layout.statements).outline =
      (emit layout'.symbols .empty layout'.statements).outline := by
    calc
      _ = (emit layout.symbols .empty (layout.statements.map Placed.bare)).outline :=
        outline_emit_bare _ _ _
      _ = (emit layout'.symbols .empty (layout'.statements.map Placed.bare)).outline := by
        rw [symbols, statements]
      _ = _ := (outline_emit_bare _ _ _).symm
  simp only [Emission.outline, Prod.mk.injEq] at made
  obtain ⟨image, overwrites, errors⟩ := made
  have none : (emit layout.symbols .empty layout.statements).errors.isEmpty =
      (emit layout'.symbols .empty layout'.statements).errors.isEmpty := by
    have same := congrArg List.isEmpty errors
    rwa [List.isEmpty_map, List.isEmpty_map] at same
  simp only [ofLayout, none]
  split
  · refine .ok ?_
    rw [image, overwrites, symbols]
  · exact .error errors

end Program

section Assembly

variable {source source' : List Char}

theorem assemble_eq (source : List Char) :
    assemble source = ((Layout.ofSource source).1.mapError (⟨.symbols, ·⟩)).bind fun layout =>
      (Program.ofLayout layout).1.mapError (⟨.codeGeneration, ·⟩) := by
  cases ran : Layout.ofSource source with | mk outcome events => ?_
  cases outcome with
  | error errors => simp only [assemble, assembleTelling, ran, Except.mapError, Except.bind]
  | ok layout =>
      rw [Program.assemble_of_laid (congrArg Prod.fst ran)]
      rfl

theorem agree_assemble (alike : SourceAlike source source') :
    Agree (fun error error' => error.pass = error'.pass ∧
        error.errors.map Diagnostic.outline = error'.errors.map Diagnostic.outline)
      Eq (assemble source) (assemble source') := by
  have laid := Layout.agree_ofSource alike
  rw [assemble_eq, assemble_eq]
  apply (laid.mapError fun _ _ same => ⟨rfl, same⟩).bind
  rintro layout layout' - ⟨symbols, statements⟩
  exact (Program.agree_ofLayout symbols statements).mapError fun _ _ same => ⟨rfl, same⟩

theorem assembleGuarded_of_unlaid {errors : List Diagnostic}
    (failed : (Layout.ofSource source).1 = .error errors) :
    (assembleGuarded source).1 = .ok (assemble source) := by
  cases ran : Layout.ofSource source with | mk outcome events => ?_
  rw [ran] at failed
  subst failed
  simp only [assemble, assembleGuarded, ran]

theorem assembleGuarded_eq_overflow_iff :
    (assembleGuarded source).1 = .error .subtractionOverflow ↔
      ∃ layout, (Layout.ofSource source).1 = .ok layout ∧
        ∃ placed ∈ layout.statements, placed.overflows layout.symbols = true := by
  cases laid : (Layout.ofSource source).1 with
  | error errors =>
      rw [assembleGuarded_of_unlaid laid]
      simp
  | ok layout =>
      rw [assembleGuarded_eq_error_iff laid]
      simp

theorem assembleGuarded_overflow_of_alike (alike : SourceAlike source source')
    (broke : (assembleGuarded source).1 = .error .subtractionOverflow) :
    (assembleGuarded source').1 = .error .subtractionOverflow := by
  obtain ⟨layout, laid, placed, member, overflows⟩ := assembleGuarded_eq_overflow_iff.mp broke
  obtain ⟨layout', laid', symbols, statements⟩ := (Layout.agree_ofSource alike).exists_ok laid
  have bare : placed.bare ∈ layout'.statements.map Placed.bare := by
    rw [← statements]
    exact List.mem_map_of_mem member
  obtain ⟨placed', among, same⟩ := List.mem_map.mp bare
  apply assembleGuarded_eq_overflow_iff.mpr
  refine ⟨layout', laid', placed', among, ?_⟩
  rw [← Placed.overflows_bare, same, Placed.overflows_bare, ← symbols]
  exact overflows

/-- Assembling a source depends on nothing but its significant tokens, and on these only up to
capitals outside of quotes. Of two such sources either both give the same program, or both fail in
the same pass with as many faults, of the same kinds and on the same lines. With guarded arithmetic
they break down together. -/
theorem assemble_ignores_spelling (alike : SourceAlike source source') :
    (∀ program, assemble source = .ok program ↔ assemble source' = .ok program) ∧
    (∀ error, assemble source = .error error →
      ∃ error', assemble source' = .error error' ∧ error'.pass = error.pass ∧
        List.Forall₂ (fun fault fault' => fault.line = fault'.line ∧
          fault.fault.code = fault'.fault.code) error.errors error'.errors) ∧
    ∀ breakdown, (assembleGuarded source).1 = .error breakdown ↔
      (assembleGuarded source').1 = .error breakdown := by
  have agree := agree_assemble alike
  refine ⟨fun program => ?_, fun error failed => ?_, fun breakdown => ?_⟩
  · constructor
    · intro made
      obtain ⟨_, made', rfl⟩ := agree.exists_ok made
      exact made'
    · intro made
      obtain ⟨_, made', rfl⟩ := (agree_assemble alike.symm).exists_ok made
      exact made'
  · obtain ⟨error', failed', pass, outlines⟩ := agree.exists_error failed
    refine ⟨error', failed', pass.symm, ?_⟩
    rw [← List.forall₂_eq_eq_eq, List.forall₂_map_left_iff, List.forall₂_map_right_iff] at outlines
    exact outlines.imp fun fault fault' same => Prod.mk.inj same
  · cases breakdown
    exact ⟨assembleGuarded_overflow_of_alike alike, assembleGuarded_overflow_of_alike alike.symm⟩

theorem assemble_ignores_spelling_loop :
    let source :=
      "SIZE = $0f\nstart: LDX #SIZE ; count\nloop: STA TABLE,x\n  BNE loop\nTABLE: .byte \"Hi;\", 7"
    let source' :=
      "Size=$0F;bytes\nSTART :ldx # size\nLOOP:sta table , X\nbne Loop\ntable:.BYTE \"Hi;\",7"
    SourceAlike source.toList source'.toList ∧
      ∃ program, assemble source.toList = .ok program ∧ assemble source'.toList = .ok program := by
  intro source source'
  have alike : SourceAlike source.toList source'.toList := by decide +kernel
  have accepted : (assemble source.toList).isOk = true := by decide +kernel
  cases assembled : assemble source.toList with
  | error error =>
      rw [assembled] at accepted
      cases accepted
  | ok program =>
      obtain ⟨same, -, -⟩ := assemble_ignores_spelling alike
      exact ⟨alike, program, rfl, (same program).mp assembled⟩

end Assembly

end EightBit
