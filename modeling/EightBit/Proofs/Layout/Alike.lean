import EightBit.Layout
import EightBit.Proofs.Line.Alike

namespace EightBit

def Located.bare (located : Located) : Located := ⟨located.expr.bare, ⟨0, 0⟩⟩

def DataItem.bare : DataItem → DataItem
  | value expr => value expr.bare
  | string text => string text

def Content.bare : Content → Content
  | instruction mnemonic mode operand => instruction mnemonic mode (operand.map Located.bare)
  | bytes items => bytes (items.map DataItem.bare)
  | words values => words (values.map Expr.bare)
  | terminated text => terminated text

def Placed.bare (placed : Placed) : Placed :=
  ⟨placed.line, 0, placed.address, ⟨0, 0⟩, placed.content.bare⟩

def Diagnostic.outline (diagnostic : Diagnostic) : Nat × String :=
  (diagnostic.line, diagnostic.fault.code)

theorem Expr.eval_bare (lookup : String → Option Int64) (expr : Expr) :
    expr.bare.eval (fun ident => lookup ident.name) =
      (expr.eval fun ident => lookup ident.name).mapError Ident.bare := by
  induction expr with
  | number value => rfl
  | symbol ident =>
      rw [bare, eval_symbol, eval_symbol, Ident.bare]
      cases lookup ident.name <;> rfl
  | unary op operand ih =>
      rw [bare, eval_unary, eval_unary, ih]
      cases operand.eval fun ident => lookup ident.name <;> rfl
  | binary op left right ihl ihr =>
      rw [bare, eval_binary, eval_binary, ihl, ihr]
      cases left.eval fun ident => lookup ident.name with
      | error ident => rfl
      | ok first => cases right.eval fun ident => lookup ident.name <;> rfl

theorem Content.bare_bare (content : Content) : content.bare.bare = content.bare := by
  cases content with
  | instruction mnemonic mode operand => cases operand <;> simp [bare, Located.bare]
  | bytes items =>
      have twice (item : DataItem) : item.bare.bare = item.bare := by
        cases item <;> simp [DataItem.bare]
      simp [bare, twice]
  | words values => simp [bare]
  | terminated => rfl

theorem Content.size_bare (content : Content) : content.bare.size = content.size := by
  cases content with
  | instruction => rfl
  | bytes items =>
      simp only [bare, size, List.foldl_map]
      congr
      funext sum item
      cases item <;> rfl
  | words values => simp [bare, size]
  | terminated => rfl

namespace Layout

def outline (done : State × Effect) : State × List Placed × List (Nat × String) :=
  (done.1, done.2.statements.map Placed.bare, done.2.errors.map Diagnostic.outline)

def Action.Alike (first second : Action) : Prop :=
  ∀ state, outline (first state) = outline (second state)

theorem Action.Alike.symm {first second : Action} (alike : first.Alike second) :
    second.Alike first := fun state => (alike state).symm

theorem Action.Alike.trans {first second third : Action} (alike : first.Alike second)
    (others : second.Alike third) : first.Alike third :=
  fun state => (alike state).trans (others state)

theorem Action.Alike.then {first first' second second' : Action} (now : first.Alike first')
    (later : second.Alike second') : (first.then second).Alike (first'.then second') := by
  intro state
  have early := now state
  simp only [outline, Prod.mk.injEq] at early
  obtain ⟨same, placed, errors⟩ := early
  have late := later (first' state).1
  simp only [outline, Prod.mk.injEq] at late
  obtain ⟨same', placed', errors'⟩ := late
  simp only [outline, Action.then, Effect.append, List.map_append, same, placed, errors, same',
    placed', errors']

theorem collect_bare {α : Type} {item? : Operand → Option α} {bare : α → α}
    (same : ∀ operand, item? operand.bare = (item? operand).map bare)
    (fault : DirectiveFault) (operands : List Operand) :
    collect item? fault (operands.map Operand.bare) =
      ((collect item? fault operands).map (List.map bare)).mapError fun found =>
        (found.1, ⟨0, 0⟩) := by
  induction operands with
  | nil => rfl
  | cons operand rest ih =>
      rw [List.map_cons, collect, collect, same]
      cases item? operand with
      | none => rfl
      | some item =>
          simp only [Option.map_some, ih]
          cases collect item? fault rest <;> rfl

theorem dataContent_bare (directive : Directive) (name : Ident) (operands : List Operand) :
    dataContent directive name.bare (operands.map Operand.bare) =
      ((dataContent directive name operands).map Content.bare).mapError fun found =>
        (found.1, ⟨0, 0⟩) := by
  unfold dataContent
  rw [List.isEmpty_map]
  split
  · rfl
  · cases directive with
    | byte =>
        have item (operand : Operand) :
            dataItem? operand.bare = (dataItem? operand).map DataItem.bare := by
          obtain ⟨kind, span⟩ := operand
          cases kind <;> rfl
        dsimp only
        rw [collect_bare item]
        cases collect dataItem? .valueOrStringExpected operands <;> rfl
    | word =>
        have value (operand : Operand) :
            plainValue? operand.bare = (plainValue? operand).map Expr.bare := by
          obtain ⟨kind, span⟩ := operand
          cases kind <;> rfl
        dsimp only
        rw [collect_bare value]
        cases collect plainValue? .valueExpected operands <;> rfl
    | asciiz =>
        match operands with
        | [] | _ :: _ :: _ => simp [Except.mapError, Except.map, Ident.bare]
        | [⟨kind, span⟩] => cases kind <;> rfl
    | org => rfl

theorem directMode_bare (state : State) (mnemonic : Mnemonic) (expr : Expr) :
    directMode state mnemonic expr.bare = directMode state mnemonic expr := by
  unfold directMode State.eval
  rw [Expr.eval_bare fun name => state.symbols.value? name]
  cases expr.eval fun ident => state.symbols.value? ident.name <;> rfl

theorem shape?_bare (state : State) (mnemonic : Mnemonic) (operands : List Operand) :
    shape? state mnemonic (operands.map Operand.bare) =
      (shape? state mnemonic operands).map fun found => (found.1, found.2.map Located.bare) := by
  match operands with
  | [] => rfl
  | [⟨kind, span⟩] =>
      cases kind with
      | value expr =>
          simp [shape?, Operand.bare, OperandKind.bare, directMode_bare, Located.bare]
      | _ => rfl
  | [⟨first, span⟩, ⟨second, span'⟩] =>
      cases second with
      | register name => cases name <;> cases first <;> rfl
      | _ => cases first <;> rfl
  | _ :: _ :: _ :: _ => simp [shape?]

theorem setOrigin_of_many (here : SourceLine) (name : Ident) (first second : Operand)
    (rest : List Operand) :
    setOrigin here name (first :: second :: rest) =
      report here (.invalidDirective name.name .addressExpected) name.span := by
  funext state
  simp only [setOrigin]

/-! A line does what is left of it without places does on any line with its number. -/

section Line

variable {here there : SourceLine} (number : here.number = there.number)

include number

theorem alike_report {fault fault' : Fault} (code : fault.code = fault'.code)
    (span span' : Span) : (report here fault span).Alike (report there fault' span') := by
  intro state
  simp [outline, report, Diagnostic.outline, number, code]

theorem alike_define {ident ident' : Ident} (name : ident.name = ident'.name) (value : Int64)
    (kind : SymbolKind) : (define here ident value kind).Alike (define there ident' value kind) := by
  intro state
  simp only [define, number, name]
  split
  · rfl
  · simp [outline, Diagnostic.outline]

theorem alike_bindLabel (label : Option Ident) :
    (bindLabel here label).Alike (bindLabel there (label.map Ident.bare)) := by
  cases label with
  | none => exact fun state => rfl
  | some label =>
      intro state
      simp only [Option.map_some, bindLabel]
      split
      · exact alike_report number rfl _ _ state
      · exact alike_define number label.name_bare.symm _ _ state

theorem alike_defineConstant (name : Ident) (value : Expr) :
    (defineConstant here name value).Alike (defineConstant there name.bare value.bare) := by
  intro state
  simp only [defineConstant]
  rw [Expr.eval_bare fun name => state.symbols.constant? name]
  cases value.eval fun ident => state.symbols.constant? ident.name with
  | ok value => exact alike_define number name.name_bare.symm _ _ state
  | error ident => exact alike_report number rfl _ _ state

theorem alike_setOrigin (name : Ident) (operands : List Operand) :
    (setOrigin here name operands).Alike
      (setOrigin there name.bare (operands.map Operand.bare)) := by
  intro state
  match operands with
  | [] => exact alike_report number rfl _ _ state
  | first :: second :: rest =>
      rw [List.map_cons, List.map_cons, setOrigin_of_many, setOrigin_of_many]
      exact alike_report number rfl _ _ state
  | [⟨kind, span⟩] =>
      cases kind with
      | value expr =>
          simp only [setOrigin, List.map_cons, List.map_nil, Operand.bare, OperandKind.bare,
            State.eval]
          rw [Expr.eval_bare fun name => state.symbols.value? name]
          cases expr.eval fun ident => state.symbols.value? ident.name with
          | error ident => exact alike_report number rfl _ _ state
          | ok origin =>
              simp only [Except.mapError]
              split
              · rfl
              · exact alike_report number rfl _ _ state
      | _ => exact alike_report number rfl _ _ state

theorem alike_push (span span' : Span) (content : Content) :
    (push here span content).Alike (push there span' content.bare) := by
  intro state
  simp only [push, Content.size_bare]
  split
  · exact alike_report number rfl _ _ state
  · simp [outline, Placed.bare, number, Content.bare_bare]

theorem alike_placeData (directive : Directive) (name : Ident) (operands : List Operand) :
    (placeData here directive name operands).Alike
      (placeData there directive name.bare (operands.map Operand.bare)) := by
  unfold placeData
  rw [dataContent_bare]
  cases dataContent directive name operands with
  | ok content => exact alike_push number name.span name.bare.span content
  | error found => exact alike_report number rfl found.2 ⟨0, 0⟩

theorem alike_placeInstruction (name : Ident) (operands : List Operand) :
    (placeInstruction here name operands).Alike
      (placeInstruction there name.bare (operands.map Operand.bare)) := by
  intro state
  simp only [placeInstruction, Ident.name_bare]
  cases Mnemonic.ofName? name.name with
  | none => exact alike_report number rfl _ _ state
  | some mnemonic =>
      dsimp only
      generalize instructionSpan name operands = span
      generalize instructionSpan name.bare (operands.map Operand.bare) = span'
      rw [shape?_bare]
      cases shape? state mnemonic operands with
      | none => exact alike_report number rfl span span' state
      | some found =>
          by_cases supported : mnemonic.supports found.1 = true
          · simp only [Option.map_some, Option.filter_some, supported, ↓reduceIte]
            exact alike_push number span span' (.instruction mnemonic found.1 found.2) state
          · simp only [Option.map_some, Option.filter_some, supported]
            exact alike_report number rfl span span' state

theorem alike_place (line : Line) : (place here line).Alike (place there line.bare) := by
  obtain ⟨label, statement⟩ := line
  have bound := alike_bindLabel number label
  cases statement with
  | none => exact bound
  | some statement =>
      cases statement with
      | constant name value => exact alike_defineConstant number name value
      | instruction name operands => exact bound.then (alike_placeInstruction number name operands)
      | directive name operands =>
          simp only [place, Line.bare, Option.map_some, Statement.bare, Ident.name_bare]
          cases Directive.ofName? name.name with
          | none => exact bound.then (alike_report number rfl _ _)
          | some directive =>
              cases directive with
              | org => exact (alike_setOrigin number name operands).then bound
              | _ => exact bound.then (alike_placeData number _ name operands)

theorem alike_step (alike : TextAlike here.text there.text) : (step here).Alike (step there) := by
  have read := Line.agree_parse alike
  unfold step
  generalize Line.parse here.text = first at read
  generalize Line.parse there.text = second at read
  cases read with
  | @error error error' _ => exact alike_report number rfl error.span error'.span
  | @ok line line' same =>
      -- Each line does the same as what is left of both without their places.
      have placed := alike_place number line
      rw [same] at placed
      exact placed.trans (alike_place rfl line').symm

end Line

/-- Lines of two sources under the same number, with the same text but for its spelling. -/
structure LineAlike (here there : SourceLine) : Prop where
  number : here.number = there.number
  text : TextAlike here.text there.text

theorem alike_run {lines lines' : List SourceLine} (alike : List.Forall₂ LineAlike lines lines') :
    (run lines).Alike (run lines') := by
  induction alike with
  | nil => exact fun state => rfl
  | cons first rest ih => exact (alike_step first.number first.text).then ih

theorem alike_listFrom {texts texts' : List (List Char)}
    (alike : List.Forall₂ TextAlike texts texts') (number offset offset' : Nat) :
    List.Forall₂ LineAlike (SourceLine.listFrom number offset texts)
      (SourceLine.listFrom number offset' texts') := by
  induction alike generalizing number offset offset' with
  | nil => exact .nil
  | cons first rest ih => exact .cons ⟨rfl, first⟩ (ih _ _ _)

theorem agree_ofSource {first second : List Char} (alike : SourceAlike first second) :
    Agree (fun errors errors' => errors.map Diagnostic.outline = errors'.map Diagnostic.outline)
      (fun layout layout' => layout.symbols = layout'.symbols ∧
        layout.statements.map Placed.bare = layout'.statements.map Placed.bare)
      (ofSource first).1 (ofSource second).1 := by
  have ran := alike_run (alike_listFrom alike 1 0 0) .initial
  simp only [outline, Prod.mk.injEq] at ran
  obtain ⟨state, placed, errors⟩ := ran
  have none : (run (SourceLine.ofSource first) .initial).2.errors.isEmpty =
      (run (SourceLine.ofSource second) .initial).2.errors.isEmpty := by
    have same := congrArg List.isEmpty errors
    rwa [List.isEmpty_map, List.isEmpty_map] at same
  simp only [ofSource, none]
  split
  · exact .ok ⟨congrArg State.symbols state, placed⟩
  · exact .error errors

end Layout

end EightBit
