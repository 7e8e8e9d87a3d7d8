import EightBit.Proofs.Outcome
import EightBit.Proofs.SymbolTable.Growth
import EightBit.Proofs.Layout.Lines

/-!
What the first pass does where it finds no fault: one rule for each kind of line, and from them
the run over all lines. `succeeds_step_iff` and `ofSource_eq_ok_iff` say that the rules are exact.
-/
namespace EightBit.Layout

def Succeeds (action : Action) (before after : State) (placed : List Placed) : Prop :=
  ∃ events, action before = (after, ⟨placed, [], events⟩)

inductive Binds (here : SourceLine) : Option Ident → State → State → Prop
  | unlabelled {state : State} : Binds here none state state
  | labelled {label : Ident} {state : State} {symbols : SymbolTable}
      (below : state.cursor < addressLimit)
      (added : state.symbols.add label.name
        ⟨.ofNat state.cursor.toNat, .label, here.number⟩ = .ok symbols) :
      Binds here (some label) state { state with symbols }

/-- What a statement that places bytes places, and the part of its line that this is said of. -/
inductive Decides (state : State) : Statement → Span → Content → Prop
  | data {directive : Directive} {name : Ident} {operands : List Operand} {content : Content}
      (named : Directive.ofName? name.name = some directive) (places : directive ≠ .org)
      (read : dataContent directive name operands = .ok content) :
      Decides state (.directive name operands) name.span content
  | instruction {mnemonic : Mnemonic} {name : Ident} {operands : List Operand}
      {mode : AddressingMode} {operand : Option Located}
      (named : Mnemonic.ofName? name.name = some mnemonic)
      (shaped : shape? state mnemonic operands = some (mode, operand))
      (supported : mnemonic.supports mode = true) :
      Decides state (.instruction name operands) (instructionSpan name operands)
        (.instruction mnemonic mode operand)

def State.put (state : State) (here : SourceLine) (span : Span) (content : Content) : Placed :=
  ⟨here.number, here.offset, (state.cursor % addressLimit).toNat, span, content⟩

/-- What a line without a fault does to the state, and the statements it places. -/
inductive Advance (here : SourceLine) : State → State → List Placed → Prop
  | bare {label : Option Ident} {before after : State}
      (read : Line.parse here.text = .ok ⟨label, none⟩) (bound : Binds here label before after) :
      Advance here before after []
  | constant {label : Option Ident} {name : Ident} {expr : Expr} {value : Int64}
      {before : State} {symbols : SymbolTable}
      (read : Line.parse here.text = .ok ⟨label, some (.constant name expr)⟩)
      (known : (expr.eval fun ident => before.symbols.constant? ident.name) = .ok value)
      (added : before.symbols.add name.name ⟨value, .constant, here.number⟩ = .ok symbols) :
      Advance here before { before with symbols } []
  | origin {label : Option Ident} {name : Ident} {expr : Expr} {span : Span} {origin : Int64}
      {before after : State}
      (read : Line.parse here.text = .ok ⟨label, some (.directive name [⟨.value expr, span⟩])⟩)
      (named : Directive.ofName? name.name = some .org)
      (known : before.eval expr = .ok origin) (inside : 0 ≤ origin ∧ origin < 0x10000)
      (bound : Binds here label { before with cursor := origin.toUInt64.toUInt32 } after) :
      Advance here before after []
  | statement {label : Option Ident} {statement : Statement} {span : Span} {content : Content}
      {before middle : State}
      (read : Line.parse here.text = .ok ⟨label, some statement⟩)
      (bound : Binds here label before middle) (decided : Decides middle statement span content)
      (fits : middle.cursor + content.size ≤ addressLimit) :
      Advance here before { middle with cursor := middle.cursor + content.size }
        [middle.put here span content]

inductive Advances : List SourceLine → State → State → List Placed → Prop
  | done {state : State} : Advances [] state state []
  | line {here : SourceLine} {rest : List SourceLine} {before middle after : State}
      {placed more : List Placed} (now : Advance here before middle placed)
      (later : Advances rest middle after more) :
      Advances (here :: rest) before after (placed ++ more)

section Actions

variable {here : SourceLine} {before after : State} {placed : List Placed}

theorem succeeds_then_iff {first second : Action} :
    Succeeds (first.then second) before after placed ↔
      ∃ middle early late, Succeeds first before middle early ∧
        Succeeds second middle after late ∧ placed = early ++ late := by
  constructor
  · rintro ⟨events, ran⟩
    cases ranFirst : first before with | mk middle early => ?_
    cases ranSecond : second middle with | mk final late => ?_
    simp only [Action.then, ranFirst, ranSecond, Effect.append, Prod.mk.injEq, Effect.mk.injEq,
      List.append_eq_nil_iff] at ran
    rcases ran with ⟨rfl, rfl, ⟨clean, cleanLate⟩, -⟩
    refine ⟨middle, early.statements, late.statements, ⟨early.events, ?_⟩, ⟨late.events, ?_⟩, rfl⟩
    · rw [ranFirst, ← clean]
    · rw [ranSecond, ← cleanLate]
  · rintro ⟨middle, early, late, ⟨events, ranFirst⟩, ⟨more, ranSecond⟩, rfl⟩
    exact ⟨events ++ more, by simp only [Action.then, ranFirst, ranSecond, Effect.append]; rfl⟩

theorem succeeds_none_iff :
    Succeeds (fun state => (state, .none)) before after placed ↔ after = before ∧ placed = [] := by
  constructor
  · rintro ⟨events, ran⟩
    cases ran
    exact ⟨rfl, rfl⟩
  · rintro ⟨rfl, rfl⟩
    exact ⟨[], rfl⟩

theorem Succeeds.clean {action : Action} (success : Succeeds action before after placed) :
    (action before).2.errors = [] := by
  rcases success with ⟨events, ran⟩
  rw [ran]

theorem succeeds_define_iff {ident : Ident} {value : Int64} {kind : SymbolKind} :
    Succeeds (define here ident value kind) before after placed ↔
      ∃ symbols, before.symbols.add ident.name ⟨value, kind, here.number⟩ = .ok symbols ∧
        after = { before with symbols } ∧ placed = [] := by
  cases added : before.symbols.add ident.name ⟨value, kind, here.number⟩ with
  | error first => simp [Succeeds, define, added]
  | ok symbols =>
      constructor
      · rintro ⟨events, ran⟩
        simp only [define, added, Prod.mk.injEq, Effect.mk.injEq] at ran
        rcases ran with ⟨rfl, rfl, -⟩
        exact ⟨symbols, rfl, rfl, rfl⟩
      · rintro ⟨other, same, rfl, rfl⟩
        cases same
        exact ⟨_, by simp only [define, added]; rfl⟩

theorem succeeds_bindLabel_iff {label : Option Ident} :
    Succeeds (bindLabel here label) before after placed ↔
      Binds here label before after ∧ placed = [] := by
  cases label with
  | none =>
      rw [bindLabel, succeeds_none_iff]
      constructor
      · rintro ⟨rfl, rfl⟩
        exact ⟨.unlabelled, rfl⟩
      · rintro ⟨bound, rfl⟩
        cases bound
        exact ⟨rfl, rfl⟩
  | some label =>
      by_cases high : addressLimit ≤ before.cursor
      · constructor
        · intro success
          have clean := success.clean
          simp [bindLabel, high, report] at clean
        · rintro ⟨bound, -⟩
          cases bound with
          | labelled below added => exact absurd below (UInt32.not_lt.mpr high)
      · have same : bindLabel here (some label) before =
            define here label (.ofNat before.cursor.toNat) .label before := if_neg high
        have below : before.cursor < addressLimit := UInt32.not_le.mp high
        rw [Succeeds, same, ← Succeeds, succeeds_define_iff]
        constructor
        · rintro ⟨symbols, added, rfl, rfl⟩
          exact ⟨.labelled below added, rfl⟩
        · rintro ⟨bound, rfl⟩
          cases bound with
          | labelled _ added => exact ⟨_, added, rfl, rfl⟩

theorem succeeds_defineConstant_iff {name : Ident} {expr : Expr} :
    Succeeds (defineConstant here name expr) before after placed ↔
      ∃ value symbols, (expr.eval fun ident => before.symbols.constant? ident.name) = .ok value ∧
        before.symbols.add name.name ⟨value, .constant, here.number⟩ = .ok symbols ∧
        after = { before with symbols } ∧ placed = [] := by
  cases known : expr.eval fun ident => before.symbols.constant? ident.name with
  | error ident =>
      constructor
      · intro success
        have clean := success.clean
        simp [defineConstant, known, report] at clean
      · rintro ⟨value, symbols, same, -⟩
        cases same
  | ok value =>
      have same : defineConstant here name expr before =
          define here name value .constant before := by simp only [defineConstant, known]
      rw [Succeeds, same, ← Succeeds, succeeds_define_iff]
      simp

theorem succeeds_setOrigin_iff {name : Ident} {operands : List Operand} :
    Succeeds (setOrigin here name operands) before after placed ↔
      ∃ expr span origin, operands = [⟨.value expr, span⟩] ∧ before.eval expr = .ok origin ∧
        (0 ≤ origin ∧ origin < 0x10000) ∧
        after = { before with cursor := origin.toUInt64.toUInt32 } ∧ placed = [] := by
  constructor
  · intro success
    have clean := success.clean
    rcases success with ⟨events, ran⟩
    unfold setOrigin at ran clean
    split at ran
    · rename_i expr span
      cases known : before.eval expr with
      | error ident => simp [known, report] at clean
      | ok origin =>
          by_cases inside : 0 ≤ origin ∧ origin < 0x10000
          · simp only [known, inside, and_self, ↓reduceIte] at ran
            cases ran
            exact ⟨expr, span, origin, rfl, known, inside, rfl, rfl⟩
          · simp [known, inside, report] at clean
    · cases ran
  · rintro ⟨expr, span, origin, rfl, known, inside, rfl, rfl⟩
    exact ⟨_, by simp only [setOrigin, known, inside, and_self, ↓reduceIte]; rfl⟩

theorem succeeds_push_iff {span : Span} {content : Content} :
    Succeeds (push here span content) before after placed ↔
      before.cursor + content.size ≤ addressLimit ∧
        after = { before with cursor := before.cursor + content.size } ∧
        placed = [before.put here span content] := by
  by_cases high : addressLimit < before.cursor + content.size
  · constructor
    · intro success
      have clean := success.clean
      simp [push, high, report] at clean
    · rintro ⟨fits, -⟩
      exact absurd high (UInt32.not_lt.mpr fits)
  · have same : push here span content before =
        ({ before with cursor := before.cursor + content.size },
          ⟨[before.put here span content], [], []⟩) := if_neg high
    constructor
    · rintro ⟨events, ran⟩
      rw [same] at ran
      cases ran
      exact ⟨UInt32.not_lt.mp high, rfl, rfl⟩
    · rintro ⟨-, rfl, rfl⟩
      exact ⟨[], same⟩

theorem succeeds_push {content : Content} (span : Span)
    (fits : before.cursor + content.size ≤ addressLimit) :
    Succeeds (push here span content) before
      { before with cursor := before.cursor + content.size } [before.put here span content] :=
  succeeds_push_iff.mpr ⟨fits, rfl, rfl⟩

theorem succeeds_placeData_iff {directive : Directive} {name : Ident} {operands : List Operand} :
    Succeeds (placeData here directive name operands) before after placed ↔
      ∃ content, dataContent directive name operands = .ok content ∧
        Succeeds (push here name.span content) before after placed := by
  unfold placeData
  cases read : dataContent directive name operands with
  | error fault =>
      constructor
      · intro success
        have clean := success.clean
        simp [report] at clean
      · rintro ⟨content, same, -⟩
        cases same
  | ok content => simp

theorem succeeds_placeInstruction_iff {name : Ident} {operands : List Operand} :
    Succeeds (placeInstruction here name operands) before after placed ↔
      ∃ span content, Decides before (.instruction name operands) span content ∧
        Succeeds (push here span content) before after placed := by
  constructor
  · intro success
    cases named : Mnemonic.ofName? name.name with
    | none =>
        have clean := success.clean
        simp [placeInstruction, named, report] at clean
    | some mnemonic =>
        simp only [Succeeds, placeInstruction, named] at success
        split at success
        · rename_i mode operand shaped
          rcases Option.filter_eq_some_iff.mp shaped with ⟨shape, supported⟩
          exact ⟨_, _, .instruction named shape supported, success⟩
        · rcases success with ⟨events, ran⟩
          simp [report] at ran
  · rintro ⟨span, content, decided, success⟩
    cases decided with
    | instruction named shaped supported =>
        simpa only [Succeeds, placeInstruction, named, shaped, Option.filter_some, supported,
          ↓reduceIte] using success

theorem succeeds_bindLabel_then_iff {label : Option Ident} {action : Action} :
    Succeeds ((bindLabel here label).then action) before after placed ↔
      ∃ middle, Binds here label before middle ∧ Succeeds action middle after placed := by
  rw [succeeds_then_iff]
  constructor
  · rintro ⟨middle, early, late, bound, success, rfl⟩
    rcases succeeds_bindLabel_iff.mp bound with ⟨binds, rfl⟩
    exact ⟨middle, binds, success⟩
  · rintro ⟨middle, binds, success⟩
    exact ⟨middle, [], placed, succeeds_bindLabel_iff.mpr ⟨binds, rfl⟩, success, rfl⟩

theorem place_data {label : Option Ident} {directive : Directive} {name : Ident}
    {operands : List Operand} (named : Directive.ofName? name.name = some directive)
    (places : directive ≠ .org) :
    place here ⟨label, some (.directive name operands)⟩ =
      (bindLabel here label).then (placeData here directive name operands) := by
  cases directive with
  | org => contradiction
  | byte | word | asciiz => simp only [place, named]

theorem place_origin {label : Option Ident} {name : Ident} {operands : List Operand}
    (named : Directive.ofName? name.name = some .org) :
    place here ⟨label, some (.directive name operands)⟩ =
      (setOrigin here name operands).then (bindLabel here label) := by
  simp only [place, named]

theorem place_instruction {label : Option Ident} {name : Ident} {operands : List Operand} :
    place here ⟨label, some (.instruction name operands)⟩ =
      (bindLabel here label).then (placeInstruction here name operands) := rfl

theorem advance_of_succeeds_place {line : Line} (read : Line.parse here.text = .ok line)
    (success : Succeeds (place here line) before after placed) :
    Advance here before after placed := by
  rcases line with ⟨label, statement⟩
  match statement with
  | none =>
      rcases succeeds_bindLabel_iff.mp success with ⟨bound, rfl⟩
      exact .bare read bound
  | some (.constant name expr) =>
      rcases succeeds_defineConstant_iff.mp success with ⟨value, symbols, known, added, rfl, rfl⟩
      exact .constant read known added
  | some (.directive name operands) =>
      cases named : Directive.ofName? name.name with
      | none =>
          simp only [place, named] at success
          rcases succeeds_bindLabel_then_iff.mp success with ⟨middle, -, failed⟩
          cases failed.clean
      | some directive =>
          by_cases org : directive = .org
          · subst org
            rw [place_origin named] at success
            rcases succeeds_then_iff.mp success with ⟨middle, early, late, set, bound, rfl⟩
            obtain ⟨expr, span, origin, rfl, known, inside, rfl, rfl⟩ :=
              succeeds_setOrigin_iff.mp set
            rcases succeeds_bindLabel_iff.mp bound with ⟨binds, rfl⟩
            exact .origin read named known inside binds
          · rw [place_data named org] at success
            rcases succeeds_bindLabel_then_iff.mp success with ⟨middle, bound, data⟩
            rcases succeeds_placeData_iff.mp data with ⟨content, found, pushed⟩
            rcases succeeds_push_iff.mp pushed with ⟨fits, rfl, rfl⟩
            exact .statement read bound (.data named org found) fits
  | some (.instruction name operands) =>
      rw [place_instruction] at success
      rcases succeeds_bindLabel_then_iff.mp success with ⟨middle, bound, placing⟩
      rcases succeeds_placeInstruction_iff.mp placing with ⟨span, content, decided, pushed⟩
      rcases succeeds_push_iff.mp pushed with ⟨fits, rfl, rfl⟩
      exact .statement read bound decided fits

theorem succeeds_step_of_read {line : Line} (read : Line.parse here.text = .ok line) :
    Succeeds (step here) before after placed ↔ Succeeds (place here line) before after placed := by
  simp only [step, read]

theorem succeeds_step_of_advance (advance : Advance here before after placed) :
    Succeeds (step here) before after placed := by
  cases advance with
  | bare read bound =>
      exact (succeeds_step_of_read read).mpr (succeeds_bindLabel_iff.mpr ⟨bound, rfl⟩)
  | constant read known added =>
      exact (succeeds_step_of_read read).mpr
        (succeeds_defineConstant_iff.mpr ⟨_, _, known, added, rfl, rfl⟩)
  | origin read named known inside bound =>
      rw [succeeds_step_of_read read, place_origin named, succeeds_then_iff]
      exact ⟨_, _, _, succeeds_setOrigin_iff.mpr ⟨_, _, _, rfl, known, inside, rfl, rfl⟩,
        succeeds_bindLabel_iff.mpr ⟨bound, rfl⟩, rfl⟩
  | statement read bound decided fits =>
      cases decided with
      | data named places found =>
          rw [succeeds_step_of_read read, place_data named places]
          exact succeeds_bindLabel_then_iff.mpr
            ⟨_, bound, succeeds_placeData_iff.mpr ⟨_, found, succeeds_push _ fits⟩⟩
      | instruction named shaped supported =>
          have decided := Decides.instruction named shaped supported
          rw [succeeds_step_of_read read, place_instruction]
          exact succeeds_bindLabel_then_iff.mpr
            ⟨_, bound, succeeds_placeInstruction_iff.mpr ⟨_, _, decided, succeeds_push _ fits⟩⟩

/-- The rules are exact: they say all that a line without a fault does, and nothing else. -/
theorem succeeds_step_iff :
    Succeeds (step here) before after placed ↔ Advance here before after placed := by
  refine ⟨fun success => ?_, succeeds_step_of_advance⟩
  cases read : Line.parse here.text with
  | error error =>
      have clean := success.clean
      simp [step, read, report] at clean
  | ok line => exact advance_of_succeeds_place read ((succeeds_step_of_read read).mp success)

end Actions

theorem succeeds_run_iff {lines : List SourceLine} {before after : State} {placed : List Placed} :
    Succeeds (run lines) before after placed ↔ Advances lines before after placed := by
  induction lines generalizing before placed with
  | nil =>
      rw [run, succeeds_none_iff]
      constructor
      · rintro ⟨rfl, rfl⟩
        exact .done
      · intro advances
        cases advances
        exact ⟨rfl, rfl⟩
  | cons here rest ih =>
      rw [run, succeeds_then_iff]
      constructor
      · rintro ⟨middle, early, late, now, later, rfl⟩
        exact .line (succeeds_step_iff.mp now) (ih.mp later)
      · intro advances
        cases advances with
        | line now later =>
            exact ⟨_, _, _, succeeds_step_iff.mpr now, ih.mpr later, rfl⟩

theorem advances_append {front back : List SourceLine} {before after : State}
    {placed : List Placed} (advances : Advances (front ++ back) before after placed) :
    ∃ middle early late, Advances front before middle early ∧ Advances back middle after late ∧
      placed = early ++ late := by
  induction front generalizing before placed with
  | nil => exact ⟨before, [], placed, .done, advances, rfl⟩
  | cons here rest ih =>
      cases advances with
      | line now later =>
          rcases ih later with ⟨middle, early, late, first, second, rfl⟩
          exact ⟨middle, _, late, .line now first, second, (List.append_assoc _ _ _).symm⟩

theorem ofSource_eq_ok_iff {source : List Char} {layout : Layout} :
    (ofSource source).1 = .ok layout ↔
      ∃ final, Advances (SourceLine.ofSource source) .initial final layout.statements ∧
        layout.symbols = final.symbols := by
  constructor
  · intro laid
    cases ran : run (SourceLine.ofSource source) .initial with | mk final effect => ?_
    simp only [ofSource, ran] at laid
    split at laid
    · rename_i clean
      cases laid
      have success : Succeeds (run (SourceLine.ofSource source)) .initial final effect.statements :=
        ⟨effect.events, by rw [ran, ← List.isEmpty_iff.mp clean]⟩
      exact ⟨final, succeeds_run_iff.mp success, rfl⟩
    · cases laid
  · rintro ⟨final, advances, same⟩
    rcases succeeds_run_iff.mpr advances with ⟨events, ran⟩
    simp only [ofSource, ran, List.isEmpty_nil, ↓reduceIte, ← same]

def stateAfter (front : List SourceLine) : State := (run front .initial).1

theorem Advances.stateAfter_eq {front : List SourceLine} {state : State} {placed : List Placed}
    (advances : Advances front .initial state placed) : stateAfter front = state := by
  rcases succeeds_run_iff.mpr advances with ⟨events, ran⟩
  rw [stateAfter, ran]

theorem advances_around {source : List Char} {layout : Layout}
    {front back : List SourceLine} {here : SourceLine}
    (laid : (ofSource source).1 = .ok layout)
    (split : SourceLine.ofSource source = front ++ here :: back) :
    ∃ next final early placed late, Advances front .initial (stateAfter front) early ∧
      Advance here (stateAfter front) next placed ∧ Advances back next final late ∧
      layout.statements = early ++ (placed ++ late) ∧ layout.symbols = final.symbols := by
  rcases ofSource_eq_ok_iff.mp laid with ⟨final, advances, symbols⟩
  rw [split] at advances
  rcases advances_append advances with ⟨middle, early, rest, first, second, statements⟩
  have same := first.stateAfter_eq
  subst same
  cases second with
  | line now later => exact ⟨_, final, early, _, _, first, now, later, statements, symbols⟩

end EightBit.Layout
