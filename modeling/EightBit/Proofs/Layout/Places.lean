import EightBit.Layout
import EightBit.Proofs.Layout.Lines
import EightBit.Proofs.Line.Places

namespace EightBit

variable {P : Nat → Prop}

def DataItem.EndsAt (P : Nat → Prop) : DataItem → Prop
  | value expr => expr.EndsAt P
  | string _ => True

def Content.EndsAt (P : Nat → Prop) : Content → Prop
  | instruction _ _ operand => ∀ located ∈ operand, located.span.EndsAt P ∧ located.expr.EndsAt P
  | bytes items => ∀ item ∈ items, item.EndsAt P
  | words values => ∀ value ∈ values, value.EndsAt P
  | terminated _ => True

structure Diagnostic.PointsInto (here : SourceLine) (diagnostic : Diagnostic) : Prop where
  line : diagnostic.line = here.number
  span : ∃ span : Span, span.EndsAt (Text.Boundary here.text) ∧
    diagnostic.span = span.shift here.offset

structure Placed.PointsInto (here : SourceLine) (placed : Placed) : Prop where
  line : placed.line = here.number
  offset : placed.offset = here.offset
  span : placed.span.EndsAt (Text.Boundary here.text)
  content : placed.content.EndsAt (Text.Boundary here.text)

namespace Layout

structure Effect.PointsInto (here : SourceLine) (effect : Effect) : Prop where
  errors : ∀ diagnostic ∈ effect.errors, diagnostic.PointsInto here
  statements : ∀ placed ∈ effect.statements, placed.PointsInto here

/-- Whatever an action adds points into the line, in every state. -/
def Action.PointsInto (here : SourceLine) (action : Action) : Prop :=
  ∀ state, (action state).2.PointsInto here

section Actions

variable {here : SourceLine} {span : Span} {ident name : Ident} {operands : List Operand}

theorem Effect.pointsInto_quiet (here : SourceLine) (events : List Event) :
    Effect.PointsInto here ⟨[], [], events⟩ :=
  ⟨List.forall_mem_nil _, List.forall_mem_nil _⟩

theorem Action.PointsInto.then {first second : Action} (now : first.PointsInto here)
    (later : second.PointsInto here) : (first.then second).PointsInto here := by
  intro state
  have early := now state
  have late := later (first state).1
  exact ⟨List.forall_mem_append.mpr ⟨early.errors, late.errors⟩,
    List.forall_mem_append.mpr ⟨early.statements, late.statements⟩⟩

theorem pointsInto_report (ends : span.EndsAt (Text.Boundary here.text)) (fault : Fault) :
    (report here fault span).PointsInto here :=
  fun _ => ⟨List.forall_mem_singleton.mpr ⟨rfl, span, ends, rfl⟩, List.forall_mem_nil _⟩

theorem pointsInto_define (ends : ident.span.EndsAt (Text.Boundary here.text)) (value : Int64)
    (kind : SymbolKind) : (define here ident value kind).PointsInto here := by
  intro state
  unfold define
  dsimp only
  split
  · exact Effect.pointsInto_quiet here _
  · exact ⟨List.forall_mem_singleton.mpr ⟨rfl, ident.span, ends, rfl⟩, List.forall_mem_nil _⟩

theorem pointsInto_bindLabel {label : Option Ident}
    (ends : ∀ ident ∈ label, ident.span.EndsAt (Text.Boundary here.text)) :
    (bindLabel here label).PointsInto here := by
  intro state
  cases label with
  | none => exact Effect.pointsInto_quiet here []
  | some label =>
      have here_ends := ends label rfl
      unfold bindLabel
      dsimp only
      split
      · exact pointsInto_report here_ends _ state
      · exact pointsInto_define here_ends _ _ state

theorem pointsInto_defineConstant {value : Expr}
    (name_ends : name.span.EndsAt (Text.Boundary here.text))
    (value_ends : value.EndsAt (Text.Boundary here.text)) :
    (defineConstant here name value).PointsInto here := by
  intro state
  have gives := value_ends.gives_eval fun ident => state.symbols.constant? ident.name
  unfold defineConstant
  split
  · exact pointsInto_define name_ends _ _ state
  · rename_i ident failed
    exact pointsInto_report (gives.of_error failed) _ state

theorem pointsInto_setOrigin (name_ends : name.span.EndsAt (Text.Boundary here.text))
    (operands_end : ∀ operand ∈ operands, operand.EndsAt (Text.Boundary here.text)) :
    (setOrigin here name operands).PointsInto here := by
  intro state
  unfold setOrigin
  split
  · rename_i expr span
    have operand := operands_end _ (List.mem_singleton_self _)
    have value : expr.EndsAt (Text.Boundary here.text) := operand.kind
    have gives := value.gives_eval fun ident => state.symbols.value? ident.name
    split
    · split
      · exact Effect.pointsInto_quiet here _
      · exact pointsInto_report operand.span _ state
    · rename_i ident failed
      exact pointsInto_report (gives.of_error failed) _ state
  · exact pointsInto_report name_ends _ state

theorem pointsInto_push {content : Content} (ends : span.EndsAt (Text.Boundary here.text))
    (content_ends : content.EndsAt (Text.Boundary here.text)) :
    (push here span content).PointsInto here := by
  intro state
  unfold push
  dsimp only
  split
  · exact pointsInto_report ends _ state
  · exact ⟨List.forall_mem_nil _,
      List.forall_mem_singleton.mpr ⟨rfl, rfl, ends, content_ends⟩⟩

theorem gives_collect {α : Type} {R : α → Prop} {item? : Operand → Option α}
    (fault : DirectiveFault) (ends : ∀ operand ∈ operands, operand.EndsAt P)
    (items : ∀ operand item, operand.EndsAt P → item? operand = some item → R item) :
    Gives (fun reason => reason.2.EndsAt P) (fun all => ∀ item ∈ all, R item)
      (collect item? fault operands) := by
  induction operands with
  | nil => exact .ok (List.forall_mem_nil _)
  | cons operand rest ih =>
      obtain ⟨now, later⟩ := List.forall_mem_cons.mp ends
      rw [collect]
      split
      · rename_i item found
        exact (ih later).map fun _ others =>
          List.forall_mem_cons.mpr ⟨items operand item now found, others⟩
      · exact .error now.span

theorem endsAt_of_dataItem? {operand : Operand} {item : DataItem} (ends : operand.EndsAt P)
    (found : dataItem? operand = some item) : item.EndsAt P := by
  obtain ⟨kind, span⟩ := operand
  cases kind with
  | value expr =>
      cases found
      exact ends.kind
  | string text =>
      cases found
      trivial
  | immediate | indirect | register => cases found

theorem endsAt_of_plainValue? {operand : Operand} {expr : Expr} (ends : operand.EndsAt P)
    (found : plainValue? operand = some expr) : expr.EndsAt P := by
  obtain ⟨kind, span⟩ := operand
  cases kind with
  | value value =>
      cases found
      exact ends.kind
  | string | immediate | indirect | register => cases found

theorem gives_dataContent (directive : Directive) (name_ends : name.span.EndsAt P)
    (operands_end : ∀ operand ∈ operands, operand.EndsAt P) :
    Gives (fun reason => reason.2.EndsAt P) (Content.EndsAt P)
      (dataContent directive name operands) := by
  unfold dataContent
  split
  · exact .error name_ends
  · split
    · exact (gives_collect _ operands_end fun _ _ => endsAt_of_dataItem?).map fun _ all => all
    · exact (gives_collect _ operands_end fun _ _ => endsAt_of_plainValue?).map fun _ all => all
    · split
      · exact .ok trivial
      · exact .error name_ends
    · exact .error name_ends

theorem pointsInto_placeData {directive : Directive}
    (name_ends : name.span.EndsAt (Text.Boundary here.text))
    (operands_end : ∀ operand ∈ operands, operand.EndsAt (Text.Boundary here.text)) :
    (placeData here directive name operands).PointsInto here := by
  have gives := gives_dataContent directive name_ends operands_end
  unfold placeData
  split
  · rename_i content made
    exact pointsInto_push name_ends (gives.of_ok made)
  · rename_i fault span failed
    exact pointsInto_report (gives.of_error failed) _

theorem endsAt_instructionSpan (name_ends : name.span.EndsAt P)
    (operands_end : ∀ operand ∈ operands, operand.EndsAt P) :
    (instructionSpan name operands).EndsAt P := by
  apply Span.endsAt_between name_ends.start
  cases last : operands.getLast? with
  | none => exact name_ends.stop
  | some operand => exact (operands_end operand (List.mem_of_getLast? last)).span.stop

theorem endsAt_of_shape? {state : State} {mnemonic : Mnemonic} {mode : AddressingMode}
    {operand : Option Located} (operands_end : ∀ operand ∈ operands, operand.EndsAt P)
    (shaped : shape? state mnemonic operands = some (mode, operand)) :
    ∀ located ∈ operand, located.span.EndsAt P ∧ located.expr.EndsAt P := by
  have first {expr : Expr} {span : Span} {kind : OperandKind} {rest : List Operand}
      (whole : operands = ⟨kind, span⟩ :: rest) (written : kind.EndsAt P → expr.EndsAt P) :
      span.EndsAt P ∧ expr.EndsAt P := by
    have ends := operands_end ⟨kind, span⟩ (whole ▸ List.mem_cons_self)
    exact ⟨ends.span, written ends.kind⟩
  unfold shape? at shaped
  split at shaped
  case h_1 =>
    cases shaped
    nofun
  case h_7 => cases shaped
  all_goals
    cases shaped
    rintro located ⟨⟩
    exact first rfl id

theorem pointsInto_placeInstruction (name_ends : name.span.EndsAt (Text.Boundary here.text))
    (operands_end : ∀ operand ∈ operands, operand.EndsAt (Text.Boundary here.text)) :
    (placeInstruction here name operands).PointsInto here := by
  intro state
  have ends := endsAt_instructionSpan name_ends operands_end
  unfold placeInstruction
  split
  · exact pointsInto_report name_ends _ state
  · rename_i mnemonic _
    dsimp only
    split
    · rename_i mode operand found
      have shaped := (Option.filter_eq_some_iff.mp found).1
      have content : (Content.instruction mnemonic mode operand).EndsAt
          (Text.Boundary here.text) := endsAt_of_shape? operands_end shaped
      exact pointsInto_push ends content state
    · exact pointsInto_report ends _ state

end Actions

theorem pointsInto_place {here : SourceLine} {line : Line}
    (ends : line.EndsAt (Text.Boundary here.text)) : (place here line).PointsInto here := by
  obtain ⟨label, statement⟩ := line
  have labelled := pointsInto_bindLabel ends.label
  cases statement with
  | none => exact labelled
  | some statement =>
      have states := ends.statement statement rfl
      cases statement with
      | constant name value => exact pointsInto_defineConstant states.1 states.2
      | instruction name operands =>
          exact labelled.then (pointsInto_placeInstruction states.1 states.2)
      | directive name operands =>
          unfold place
          dsimp only
          split
          · exact (pointsInto_setOrigin states.1 states.2).then labelled
          · exact labelled.then (pointsInto_placeData states.1 states.2)
          · exact labelled.then (pointsInto_report states.1 _)

theorem pointsInto_step (here : SourceLine) : (step here).PointsInto here := by
  have gives := Line.gives_parse here.text
  unfold step
  split
  · rename_i line read
    exact pointsInto_place (gives.of_ok read)
  · rename_i error failed
    exact pointsInto_report (gives.of_error failed) _

theorem exists_pointsInto_run (lines : List SourceLine) (state : State) :
    (∀ diagnostic ∈ (run lines state).2.errors,
      ∃ here ∈ lines, diagnostic.PointsInto here) ∧
    ∀ placed ∈ (run lines state).2.statements, ∃ here ∈ lines, placed.PointsInto here := by
  induction lines generalizing state with
  | nil => exact ⟨List.forall_mem_nil _, List.forall_mem_nil _⟩
  | cons here rest ih =>
      have now := pointsInto_step here state
      obtain ⟨errors, statements⟩ := ih (step here state).1
      constructor
      · intro diagnostic member
        rcases List.mem_append.mp member with early | late
        · exact ⟨here, List.mem_cons_self, now.errors diagnostic early⟩
        · obtain ⟨other, among, points⟩ := errors diagnostic late
          exact ⟨other, List.mem_cons_of_mem _ among, points⟩
      · intro placed member
        rcases List.mem_append.mp member with early | late
        · exact ⟨here, List.mem_cons_self, now.statements placed early⟩
        · obtain ⟨other, among, points⟩ := statements placed late
          exact ⟨other, List.mem_cons_of_mem _ among, points⟩

theorem pairwise_line_run {lines : List SourceLine}
    (ordered : lines.Pairwise (·.number < ·.number)) (state : State) :
    (run lines state).2.errors.Pairwise (·.line ≤ ·.line) := by
  induction lines generalizing state with
  | nil => exact .nil
  | cons here rest ih =>
      obtain ⟨before, later⟩ := List.pairwise_cons.mp ordered
      have now := pointsInto_step here state
      have others := (exists_pointsInto_run rest (step here state).1).1
      refine List.pairwise_append.mpr ⟨?_, ih later _, ?_⟩
      · apply List.pairwise_of_forall_mem_list
        intro first early second late
        exact Nat.le_of_eq ((now.errors first early).line.trans (now.errors second late).line.symm)
      · intro first early second late
        obtain ⟨other, among, points⟩ := others second late
        rw [(now.errors first early).line, points.line]
        exact Nat.le_of_lt (before other among)

end Layout

end EightBit
