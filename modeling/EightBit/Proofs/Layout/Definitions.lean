import EightBit.Proofs.Layout.Appended
import EightBit.Proofs.Layout.Counter
import EightBit.Proofs.SymbolTable.Names

namespace EightBit

inductive Definition where
  | label (name : Ident)
  | constant (name : Ident) (value : Expr)

namespace Definition

def name : Definition → Ident
  | label name | constant name _ => name

def kind : Definition → SymbolKind
  | label _ => .label
  | constant .. => .constant

end Definition

namespace SourceLine

/-- A line with a constant has no label, so no line defines two symbols. -/
def definition? (here : SourceLine) : Option Definition :=
  match here.statement? with
  | some (.constant name value) => some (.constant name value)
  | _ => here.label?.map .label

def duplicate (here : SourceLine) (name : Ident) : Diagnostic :=
  ⟨.duplicateSymbol name.name, here.number, name.span.shift here.offset⟩

end SourceLine

def Fault.isDuplicate : Fault → Bool
  | duplicateSymbol _ => true
  | _ => false

namespace Layout

/-- The address of a label on the line: the origin that the line sets, if it has a value and lies
in memory, or else the cursor. -/
def State.labelAddress (state : State) (here : SourceLine) : Int :=
  let origin := here.statement?.bind (·.origin? state.symbols)
  (origin.filter fun origin => 0 ≤ origin ∧ origin < 0x10000).getD state.cursor.toNat

/-- The value of a definition. A constant has one if it is made of constants above it, a label if
its address lies in memory. -/
def State.definitionValue? (state : State) (here : SourceLine) : Definition → Option Int64
  | .label _ =>
    let address := state.labelAddress here
    if address < 0x10000 then some (.ofInt address) else none
  | .constant _ value => (value.eval fun ident => state.symbols.constant? ident.name).toOption

def State.defines? (state : State) (here : SourceLine) : Option (Ident × Symbol) :=
  here.definition?.bind fun definition =>
    (state.definitionValue? here definition).map fun value =>
      (definition.name, ⟨value, definition.kind, here.number⟩)

def enter (here : SourceLine) (table : SymbolTable) :
    Option (Ident × Symbol) → SymbolTable × List Diagnostic
  | none => (table, [])
  | some (name, symbol) =>
    match table.add name.name symbol with
    | .ok larger => (larger, [])
    | .error _ => (table, [here.duplicate name])

/-- The table that an action leaves, and the names that it reports as defined again. -/
def tally (done : State × Effect) : SymbolTable × List Diagnostic :=
  (done.1.symbols, done.2.errors.filter (·.fault.isDuplicate))

def Action.Quiet (action : Action) : Prop := ∀ state, tally (action state) = (state.symbols, [])

section Actions

variable {here : SourceLine} {state : State} {name : Ident} {operands : List Operand}

theorem tally_then_quiet {first second : Action} (quiet : second.Quiet) (state : State) :
    tally ((first.then second) state) = tally (first state) := by
  have later := quiet (first state).1
  simp only [tally, Prod.mk.injEq] at later
  simp only [tally, Action.then, Effect.append, List.filter_append, later, List.append_nil]

theorem tally_quiet_then {first second : Action} (quiet : first.Quiet) (state : State) :
    tally ((first.then second) state) = tally (second (first state).1) := by
  have early := quiet state
  simp only [tally, Prod.mk.injEq] at early
  simp only [tally, Action.then, Effect.append, List.filter_append, early, List.nil_append]

theorem quiet_report {fault : Fault} (other : fault.isDuplicate = false) (span : Span) :
    (report here fault span).Quiet := by
  intro state
  simp [tally, report, other]

theorem quiet_setOrigin (here : SourceLine) (name : Ident) (operands : List Operand) :
    (setOrigin here name operands).Quiet := by
  intro state
  unfold setOrigin
  split
  · split
    · split
      · rfl
      · exact quiet_report rfl _ state
    · exact quiet_report rfl _ state
  · exact quiet_report rfl _ state

theorem quiet_push {span : Span} {content : Content} : (push here span content).Quiet := by
  intro state
  unfold push
  dsimp only
  split
  · exact quiet_report rfl _ state
  · rfl

theorem quiet_placeData {directive : Directive} :
    (placeData here directive name operands).Quiet := by
  unfold placeData
  split
  · exact quiet_push
  · exact quiet_report rfl _

theorem quiet_placeInstruction : (placeInstruction here name operands).Quiet := by
  intro state
  unfold placeInstruction
  split
  · exact quiet_report rfl _ state
  · dsimp only
    split
    · exact quiet_push state
    · exact quiet_report rfl _ state

theorem tally_define (name : Ident) (value : Int64) (kind : SymbolKind) :
    tally (define here name value kind state) =
      enter here state.symbols (some (name, ⟨value, kind, here.number⟩)) := by
  simp only [define, enter]
  cases state.symbols.add name.name ⟨value, kind, here.number⟩ <;> rfl

theorem tally_defineConstant (name : Ident) (value : Expr) :
    tally (defineConstant here name value state) =
      enter here state.symbols
        ((value.eval fun ident => state.symbols.constant? ident.name).toOption.map fun value =>
          (name, ⟨value, .constant, here.number⟩)) := by
  unfold defineConstant
  split
  · rename_i value known
    rw [known]
    exact tally_define name value .constant
  · rename_i ident failed
    rw [failed]
    exact quiet_report rfl _ state

theorem tally_bindLabel (label : Option Ident) :
    tally (bindLabel here label state) =
      enter here state.symbols (label.bind fun name =>
        if (state.cursor.toNat : Int) < 0x10000 then
          some (name, ⟨.ofInt state.cursor.toNat, .label, here.number⟩)
        else none) := by
  cases label with
  | none => rfl
  | some name =>
      have limit : addressLimit ≤ state.cursor ↔ ¬ (state.cursor.toNat : Int) < 0x10000 := by
        rw [UInt32.le_iff_toNat_le, toNat_addressLimit]
        omega
      rw [Option.bind_some, Int64.ofInt_eq_ofNat]
      unfold bindLabel
      dsimp only
      by_cases inside : (state.cursor.toNat : Int) < 0x10000
      · rw [if_pos inside, if_neg (fun high => limit.mp high inside)]
        exact tally_define name _ .label
      · rw [if_neg inside, if_pos (limit.mpr inside)]
        exact quiet_report rfl _ state

end Actions

section Lines

variable {here : SourceLine} {state : State}

theorem labelAddress_of_origin?_eq_none
    (free : here.statement?.bind (·.origin? state.symbols) = none) :
    state.labelAddress here = state.cursor.toNat := by
  simp [State.labelAddress, free]

theorem enter_label {bound : State} (symbols : bound.symbols = state.symbols)
    (address : (bound.cursor.toNat : Int) = state.labelAddress here)
    (labelled : here.definition? = here.label?.map .label) :
    tally (bindLabel here here.label? bound) = enter here state.symbols (state.defines? here) := by
  rw [tally_bindLabel, symbols, address, State.defines?, labelled]
  cases here.label? with
  | none => rfl
  | some name =>
      simp only [Option.map_some, Option.bind_some, State.definitionValue?]
      split <;> rfl

theorem labelAddress_of_origin {name : Ident} {expr : Expr} {span : Span} {origin : Int64}
    (stated : here.statement? = some (.directive name [⟨.value expr, span⟩]))
    (named : Directive.ofName? name.name = some .org)
    (known : state.symbols.evaluate expr = .ok origin) :
    state.labelAddress here =
      if 0 ≤ origin ∧ origin < 0x10000 then (origin.toUInt64.toUInt32.toNat : Int)
      else state.cursor.toNat := by
  have range : 0 ≤ origin ∧ origin < 0x10000 ↔ 0 ≤ origin.toInt ∧ origin.toInt < 0x10000 := by
    rw [Int64.le_iff_toInt_le, Int64.lt_iff_toInt_lt]
    rfl
  rw [State.labelAddress, stated, Option.bind_some, origin?_of_known named known,
    Option.filter_some]
  by_cases inside : 0 ≤ origin ∧ origin < 0x10000
  · rw [if_pos inside, if_pos (by simpa using range.mp inside), ← (toInt_origin inside).1]
    rfl
  · rw [if_neg inside, if_neg (by simpa using fun low high => inside (range.mpr ⟨low, high⟩))]
    rfl

theorem cursor_setOrigin {label : Option Ident} {name : Ident} {operands : List Operand}
    (read : Line.parse here.text = .ok ⟨label, some (.directive name operands)⟩)
    (named : Directive.ofName? name.name = some .org) :
    ((setOrigin here name operands state).1.cursor.toNat : Int) = state.labelAddress here := by
  have stated : here.statement? = some (.directive name operands) := statement?_of_read read
  unfold setOrigin
  split
  · cases known : state.eval _ with
    | error ident =>
        have unknown : state.symbols.evaluate _ = .error ident := known
        have free : here.statement?.bind (·.origin? state.symbols) = none := by
          simp [stated, Statement.origin?, unknown, Except.toOption]
        rw [labelAddress_of_origin?_eq_none free]
        rfl
    | ok origin =>
        rw [labelAddress_of_origin stated named known]
        dsimp only
        split <;> rfl
  · rename_i many
    have free : here.statement?.bind (·.origin? state.symbols) = none := by
      rw [stated, Option.bind_some, Statement.origin?]
      · exact fun name' expr span same => many expr span (Statement.directive.inj same).2
    rw [labelAddress_of_origin?_eq_none free]
    rfl

theorem origin?_of_not_setsOrigin {symbols : SymbolTable} {statement : Statement}
    (keeps : statement.setsOrigin = false) : statement.origin? symbols = none := by
  unfold Statement.origin?
  split
  · rw [keeps]
    rfl
  · rfl

theorem Advance.isSome_defines? {before after : State} {placed : List Placed}
    (advance : Advance here before after placed) (defines : here.definition?.isSome) :
    (before.defines? here).isSome := by
  -- a label that was bound has an address in memory
  have bound {label : Option Ident} {middle after : State} (labelled : here.label? = label)
      (plain : here.definition? = here.label?.map .label) (binds : Binds here label middle after)
      (address : before.labelAddress here = middle.cursor.toNat) :
      (before.defines? here).isSome := by
    rw [plain, labelled] at defines
    cases binds with
    | unlabelled => cases defines
    | labelled below added =>
        have inside : (middle.cursor.toNat : Int) < 0x10000 :=
          Int.ofNat_lt.mpr (UInt32.lt_iff_toNat_lt.mp below)
        simp [State.defines?, plain, labelled, State.definitionValue?, address, inside]
  cases advance with
  | bare read binds =>
      have stated := statement?_of_read read
      apply bound (label?_of_read read) (by simp [SourceLine.definition?, stated]) binds
      exact labelAddress_of_origin?_eq_none (by simp [stated])
  | constant read known added =>
      simp [State.defines?, SourceLine.definition?, statement?_of_read read,
        State.definitionValue?, known, Except.toOption]
  | origin read named known inside binds =>
      have stated := statement?_of_read read
      apply bound (label?_of_read read) (by simp [SourceLine.definition?, stated]) binds
      rw [labelAddress_of_origin stated named known, if_pos inside]
  | statement read binds decided fits =>
      have stated := statement?_of_read read
      refine bound (label?_of_read read) ?_ binds (labelAddress_of_origin?_eq_none ?_)
      · cases decided <;> simp [SourceLine.definition?, stated]
      · rw [stated, Option.bind_some, decided.origin?_eq_none]

theorem tally_step (here : SourceLine) (state : State) :
    tally (step here state) = enter here state.symbols (state.defines? here) := by
  unfold step
  cases read : Line.parse here.text with
  | error error =>
      have none : state.defines? here = none := by
        simp [State.defines?, SourceLine.definition?, SourceLine.statement?, SourceLine.label?,
          read]
      rw [none]
      exact quiet_report rfl _ state
  | ok line =>
      obtain ⟨label, statement⟩ := line
      have labelled : here.label? = label := label?_of_read read
      have stated : here.statement? = statement := statement?_of_read read
      -- the label of a line that sets no origin is bound at the cursor
      have binds (keeps : ∀ stated ∈ statement, stated.setsOrigin = false)
          (plain : here.definition? = here.label?.map .label) :
          tally (bindLabel here label state) = enter here state.symbols (state.defines? here) := by
        have free : here.statement?.bind (·.origin? state.symbols) = none := by
          rw [stated, Option.bind_eq_none_iff]
          exact fun known member => origin?_of_not_setsOrigin (keeps known member)
        rw [← labelled]
        exact enter_label rfl (labelAddress_of_origin?_eq_none free).symm plain
      cases statement with
      | none => exact binds (by simp) (by simp [SourceLine.definition?, stated])
      | some statement =>
          cases statement with
          | constant name value =>
              have defines : state.defines? here =
                  (value.eval fun ident => state.symbols.constant? ident.name).toOption.map
                    fun value => (name, ⟨value, .constant, here.number⟩) := by
                simp [State.defines?, SourceLine.definition?, stated, State.definitionValue?,
                  Definition.name, Definition.kind]
              rw [defines]
              exact tally_defineConstant name value
          | instruction name operands =>
              dsimp only
              rw [place_instruction, tally_then_quiet quiet_placeInstruction]
              exact binds (by simp [Statement.setsOrigin]) (by simp [SourceLine.definition?, stated])
          | directive name operands =>
              have plain : here.definition? = here.label?.map .label := by
                simp [SourceLine.definition?, stated]
              cases named : Directive.ofName? name.name with
              | none =>
                  simp only [place, named]
                  rw [tally_then_quiet (quiet_report rfl _)]
                  exact binds (by simp [Statement.setsOrigin, named]) plain
              | some directive =>
                  by_cases org : directive = .org
                  · subst org
                    have quiet := quiet_setOrigin here name operands
                    dsimp only
                    rw [place_origin named, tally_quiet_then quiet, ← labelled]
                    exact enter_label (congrArg Prod.fst (quiet state))
                      (cursor_setOrigin read named) plain
                  · dsimp only
                    rw [place_data named org, tally_then_quiet quiet_placeData]
                    exact binds (by simp [Statement.setsOrigin, named, org]) plain

end Lines

section Entering

variable {here : SourceLine} {table : SymbolTable} {name : Ident}

theorem enter_of_free (free : table.lookup name.name = none) (symbol : Symbol) :
    enter here table (some (name, symbol)) =
      (⟨table.entries ++ [(SymbolTable.key name.name, symbol)]⟩, []) := by
  simp only [enter, SymbolTable.add_of_free free]

theorem enter_of_taken {existing : Symbol} (taken : table.lookup name.name = some existing)
    (symbol : Symbol) : enter here table (some (name, symbol)) = (table, [here.duplicate name]) := by
  simp only [enter, SymbolTable.add_eq_error_iff.mpr taken]

theorem keyed_enter (keyed : table.Keyed) (defined : Option (Ident × Symbol)) :
    (enter here table defined).1.Keyed := by
  match defined with
  | none => exact keyed
  | some (name, symbol) =>
      cases added : table.add name.name symbol with
      | ok larger => simpa only [enter, added] using keyed.add added
      | error existing => simpa only [enter, added] using keyed

end Entering

section Prefixes

variable {front back : List SourceLine} {here : SourceLine} {name : Ident} {symbol : Symbol}

theorem stateAfter_concat (front : List SourceLine) (here : SourceLine) :
    stateAfter (front ++ [here]) = (step here (stateAfter front)).1 := by
  rw [stateAfter, run_append]
  rfl

theorem symbols_concat (front : List SourceLine) (here : SourceLine) :
    (stateAfter (front ++ [here])).symbols =
      (enter here (stateAfter front).symbols ((stateAfter front).defines? here)).1 := by
  rw [stateAfter_concat, ← tally_step]
  rfl

theorem keyed_stateAfter (lines : List SourceLine) : (stateAfter lines).symbols.Keyed := by
  induction lines using List.reverseRecOn with
  | nil => exact SymbolTable.keyed_empty
  | append_singleton front here ih =>
      rw [symbols_concat]
      exact keyed_enter ih _

structure Adds (front : List SourceLine) (here : SourceLine) (name : Ident) (symbol : Symbol) :
    Prop where
  defines : (stateAfter front).defines? here = some (name, symbol)
  entries : (stateAfter (front ++ [here])).symbols.entries =
    (stateAfter front).symbols.entries ++ [(SymbolTable.key name.name, symbol)]

def AddedIn (lines : List SourceLine) (name : String) : Prop :=
  ∃ early here late other symbol, lines = early ++ here :: late ∧ Adds early here other symbol ∧
    SymbolTable.key other.name = SymbolTable.key name

theorem addedIn_concat {name : String} : AddedIn (front ++ [here]) name ↔
    AddedIn front name ∨
      ∃ other symbol, Adds front here other symbol ∧
        SymbolTable.key other.name = SymbolTable.key name := by
  constructor
  · rintro ⟨early, line, late, other, symbol, split, adds, same⟩
    rcases List.eq_nil_or_concat' late with rfl | ⟨late, last, rfl⟩
    · obtain ⟨rfl, ⟨⟩⟩ := List.append_inj' split rfl
      exact Or.inr ⟨other, symbol, adds, same⟩
    · rw [← List.cons_append, ← List.append_assoc] at split
      obtain ⟨rfl, -⟩ := List.append_inj' split rfl
      exact Or.inl ⟨early, line, late, other, symbol, rfl, adds, same⟩
  · rintro (⟨early, line, late, other, symbol, rfl, adds, same⟩ | ⟨other, symbol, adds, same⟩)
    · exact ⟨early, line, late ++ [here], other, symbol, by simp, adds, same⟩
    · exact ⟨front, here, [], other, symbol, rfl, adds, same⟩

theorem adds_iff : Adds front here name symbol ↔
    (stateAfter front).defines? here = some (name, symbol) ∧
      (stateAfter front).symbols.lookup name.name = none := by
  constructor
  · intro adds
    refine ⟨adds.defines, ?_⟩
    cases found : (stateAfter front).symbols.lookup name.name with
    | none => rfl
    | some existing =>
        have entries := adds.entries
        rw [symbols_concat, adds.defines, enter_of_taken found] at entries
        simp at entries
  · rintro ⟨defines, free⟩
    exact ⟨defines, by rw [symbols_concat, defines, enter_of_free free]⟩

theorem lookup_eq_none_iff_not_addedIn {lines : List SourceLine} {name : String} :
    (stateAfter lines).symbols.lookup name = none ↔ ¬ AddedIn lines name := by
  induction lines using List.reverseRecOn with
  | nil =>
      refine iff_of_true rfl ?_
      rintro ⟨early, here, late, other, symbol, split, -⟩
      simp at split
  | append_singleton front here ih =>
      rw [addedIn_concat, not_or, ← ih, symbols_concat]
      simp only [adds_iff]
      cases defines : (stateAfter front).defines? here with
      | none => simp [enter]
      | some definition =>
          obtain ⟨defined, symbol⟩ := definition
          cases found : (stateAfter front).symbols.lookup defined.name with
          | some existing => simp [enter_of_taken found, found]
          | none =>
              have added := SymbolTable.add_of_free found symbol
              simp [enter_of_free found, SymbolTable.lookup_add added, found,
                @eq_comm _ (SymbolTable.key name)]

end Prefixes

end Layout

end EightBit
