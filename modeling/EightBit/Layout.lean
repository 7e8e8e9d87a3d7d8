import EightBit.Diagnostic
import EightBit.Event
import EightBit.Line.Parser

/-!
The first pass over a program: every statement gets its address and its size, and every symbol its
value. A fault in one line keeps no other line from being looked at.
-/
namespace EightBit

def addressLimit : UInt32 := 0x10000

structure SourceLine where
  number : Nat
  offset : Nat
  text : List Char

namespace SourceLine

def listFrom (number offset : Nat) : List (List Char) → List SourceLine
  | [] => []
  | text :: rest =>
    ⟨number, offset, text⟩ :: listFrom (number + 1) (offset + Text.byteLength text + 1) rest

def ofSource (source : List Char) : List SourceLine := listFrom 1 0 (Text.lines source)

end SourceLine

structure Located where
  expr : Expr
  span : Span
  deriving DecidableEq

inductive DataItem where
  | value (expr : Expr)
  | string (text : List Char)
  deriving DecidableEq

/-- Sizes and the cursor are 32-bit numbers, which wrap around. -/
def DataItem.size : DataItem → UInt32
  | value _ => 1
  | string text => .ofNat (Text.byteLength text)

inductive Content where
  | instruction (mnemonic : Mnemonic) (mode : AddressingMode) (operand : Option Located)
  | bytes (items : List DataItem)
  | words (values : List Expr)
  | terminated (text : List Char)
  deriving DecidableEq

def Content.size : Content → UInt32
  | instruction _ mode _ => .ofNat mode.size
  | bytes items => items.foldl (fun sum item => sum + item.size) 0
  | words values => .ofNat values.length * 2
  | terminated text => .ofNat (Text.byteLength text) + 1

/-- A statement with its address. Its spans count from the start of its line. -/
structure Placed where
  line : Nat
  offset : Nat
  address : Nat
  span : Span
  content : Content
  deriving DecidableEq

def Placed.size (placed : Placed) : Nat := placed.content.size.toNat

structure Layout where
  statements : List Placed
  symbols : SymbolTable
  deriving DecidableEq

namespace Layout

structure State where
  cursor : UInt32
  symbols : SymbolTable

def State.initial : State := ⟨0, .empty⟩

structure Effect where
  statements : List Placed
  errors : List Diagnostic
  events : List Event

def Effect.none : Effect := ⟨[], [], []⟩

def Effect.append (first second : Effect) : Effect :=
  ⟨first.statements ++ second.statements, first.errors ++ second.errors,
   first.events ++ second.events⟩

abbrev Action := State → State × Effect

def Action.then (first second : Action) : Action := fun state =>
  let (middle, early) := first state
  let (final, late) := second middle
  (final, early.append late)

def report (here : SourceLine) (fault : Fault) (span : Span) : Action := fun state =>
  (state, ⟨[], [⟨fault, here.number, span.shift here.offset⟩], []⟩)

def define (here : SourceLine) (ident : Ident) (value : Int64) (kind : SymbolKind) : Action :=
  fun state =>
    let symbol : Symbol := ⟨value, kind, here.number⟩
    match state.symbols.add ident.name symbol with
    | .ok symbols =>
      ({ state with symbols }, ⟨[], [], state.symbols.addEvents ident.name symbol⟩)
    | .error first =>
      (state, ⟨[], [⟨.duplicateSymbol ident.name, here.number, ident.span.shift here.offset⟩],
        [.definitionIgnored ident.name first]⟩)

def bindLabel (here : SourceLine) : Option Ident → Action
  | none => fun state => (state, .none)
  | some label => fun state =>
    if addressLimit ≤ state.cursor then
      report here (.addressOverflow state.cursor.toNat) label.span state
    else define here label (.ofNat state.cursor.toNat) .label state

/-- A constant is made of constants above it, and of no label. -/
def defineConstant (here : SourceLine) (name : Ident) (value : Expr) : Action := fun state =>
  match value.eval fun ident => state.symbols.constant? ident.name with
  | .ok value => define here name value .constant state
  | .error ident =>
    let hint := match state.symbols.lookup ident.name with
      | some ⟨_, .label, _⟩ => .labelInConstant
      | _ => .constantUsedEarly
    report here (.undefinedSymbol ident.name (some hint)) ident.span state

def State.eval (state : State) (expr : Expr) : Except Ident Int64 :=
  expr.eval fun ident => state.symbols.value? ident.name

def setOrigin (here : SourceLine) (name : Ident) (operands : List Operand) : Action := fun state =>
  match operands with
  | [⟨.value expr, span⟩] =>
    match state.eval expr with
    | .ok origin =>
      if 0 ≤ origin ∧ origin < 0x10000 then
        ({ state with cursor := origin.toUInt64.toUInt32 },
         ⟨[], [], [.originSet here.number origin]⟩)
      else report here (.invalidDirective name.name (.originOutside origin)) span state
    | .error ident =>
      report here (.undefinedSymbol ident.name (some .originUsedEarly)) ident.span state
  | _ => report here (.invalidDirective name.name .addressExpected) name.span state

def push (here : SourceLine) (span : Span) (content : Content) : Action := fun state =>
  let stop := state.cursor + content.size
  if addressLimit < stop then report here (.addressOverflow (stop - 1).toNat) span state
  else
    ({ state with cursor := stop },
     ⟨[⟨here.number, here.offset, (state.cursor % addressLimit).toNat, span, content⟩], [], []⟩)

def dataItem? (operand : Operand) : Option DataItem :=
  match operand.kind with
  | .value expr => some (.value expr)
  | .string text => some (.string text)
  | _ => none

def plainValue? (operand : Operand) : Option Expr :=
  match operand.kind with
  | .value expr => some expr
  | _ => none

def collect {α : Type} (item? : Operand → Option α) (fault : DirectiveFault) :
    List Operand → Except (DirectiveFault × Span) (List α)
  | [] => .ok []
  | operand :: rest =>
    match item? operand with
    | some item => (collect item? fault rest).map (item :: ·)
    | none => .error (fault, operand.span)

def dataContent (directive : Directive) (name : Ident) (operands : List Operand) :
    Except (DirectiveFault × Span) Content :=
  if operands.isEmpty then .error (.operandMissing, name.span)
  else match directive with
    | .byte => (collect dataItem? .valueOrStringExpected operands).map .bytes
    | .word => (collect plainValue? .valueExpected operands).map .words
    | .asciiz =>
      match operands with
      | [⟨.string text, _⟩] => .ok (.terminated text)
      | _ => .error (.stringExpected, name.span)
    | .org => .error (.addressExpected, name.span)

def placeData (here : SourceLine) (directive : Directive) (name : Ident)
    (operands : List Operand) : Action :=
  match dataContent directive name operands with
  | .ok content => push here name.span content
  | .error (fault, span) => report here (.invalidDirective name.name fault) span

/-- The mode of an operand that is a mere value: relative in a branch, zero page when its value is
known by now and is a byte, absolute otherwise. -/
def directMode (state : State) (mnemonic : Mnemonic) (expr : Expr) : AddressingMode :=
  if mnemonic.isBranch then .relative
  else if mnemonic.supports .zeroPage then
    match state.eval expr with
    | .ok value => if 0 ≤ value ∧ value ≤ 0xFF then .zeroPage else .absolute
    | .error _ => .absolute
  else .absolute

def shape? (state : State) (mnemonic : Mnemonic) :
    List Operand → Option (AddressingMode × Option Located)
  | [] => some (.implied, none)
  | [⟨.immediate expr, span⟩] => some (.immediate, some ⟨expr, span⟩)
  | [⟨.value expr, span⟩] => some (directMode state mnemonic expr, some ⟨expr, span⟩)
  | [⟨.value expr, span⟩, ⟨.register .x, _⟩] => some (.absoluteX, some ⟨expr, span⟩)
  | [⟨.value expr, span⟩, ⟨.register .y, _⟩] => some (.absoluteY, some ⟨expr, span⟩)
  | [⟨.indirect expr, span⟩, ⟨.register .y, _⟩] => some (.indirectY, some ⟨expr, span⟩)
  | _ => none

def instructionSpan (name : Ident) (operands : List Operand) : Span :=
  .between name.span.start (operands.getLast?.elim name.span.stop (·.span.stop))

def placeInstruction (here : SourceLine) (name : Ident) (operands : List Operand) : Action :=
  fun state =>
    match Mnemonic.ofName? name.name with
    | none => report here (.unknownInstruction name.name) name.span state
    | some mnemonic =>
      let span := instructionSpan name operands
      match (shape? state mnemonic operands).filter fun (mode, _) => mnemonic.supports mode with
      | some (mode, operand) => push here span (.instruction mnemonic mode operand) state
      | none =>
        report here (.unknownInstruction (String.ofList (Text.slice here.text span))) span state

/-- A label on a line that sets the origin stands for the new origin; on any other line, for the
address before the statement. -/
def place (here : SourceLine) (line : Line) : Action :=
  match line.statement with
  | none => bindLabel here line.label
  | some (.constant name value) => defineConstant here name value
  | some (.directive name operands) =>
    match Directive.ofName? name.name with
    | some .org => (setOrigin here name operands).then (bindLabel here line.label)
    | some directive => (bindLabel here line.label).then (placeData here directive name operands)
    | none =>
      (bindLabel here line.label).then (report here (.unknownInstruction name.name) name.span)
  | some (.instruction name operands) =>
    (bindLabel here line.label).then (placeInstruction here name operands)

def step (here : SourceLine) : Action :=
  match Line.parse here.text with
  | .ok line => place here line
  | .error error => report here (.malformedLine error.fault) error.span

def run : List SourceLine → Action
  | [] => fun state => (state, .none)
  | here :: rest => (step here).then (run rest)

def ofSource (source : List Char) : Except (List Diagnostic) Layout × List Event :=
  let (state, effect) := run (SourceLine.ofSource source) .initial
  if effect.errors.isEmpty then
    (.ok ⟨effect.statements, state.symbols⟩,
     effect.events ++ [.laidOut effect.statements.length state.symbols.size])
  else (.error effect.errors, effect.events)

end Layout

end EightBit
