import EightBit.Image
import EightBit.Layout

/-!
The second pass, from a layout to an image, and both passes together. A program with any fault
gives no image, but all its faults.
-/
namespace EightBit

namespace Placed

def resolve (symbols : SymbolTable) (placed : Placed) (expr : Expr) : Except Diagnostic Int64 :=
  match expr.eval fun ident => symbols.value? ident.name with
  | .ok value => .ok value
  | .error ident =>
    .error ⟨.undefinedSymbol ident.name none, placed.line, ident.span.shift placed.offset⟩

def lowByte (value : Int64) : UInt8 := value.toUInt64.toUInt8

def highByte (value : Int64) : UInt8 := (value.toUInt64 >>> 8).toUInt8

def word (value : Int64) : List UInt8 := [lowByte value, highByte value]

/-- The bytes of an operand. A branch counts from the instruction after it. -/
def operandBytes (placed : Placed) (mode : AddressingMode) (span : Span) (value : Int64) :
    Except Diagnostic (List UInt8) :=
  match mode with
  | .implied => .ok []
  | .immediate | .zeroPage | .indirectY => .ok [lowByte value]
  | .absolute | .absoluteX | .absoluteY => .ok (word value)
  | .relative =>
    let distance := value - Int64.ofNat (placed.address + 2)
    if -128 ≤ distance ∧ distance ≤ 127 then .ok [lowByte distance]
    else .error ⟨.branchOutOfRange distance, placed.line, span.shift placed.offset⟩

def itemBytes (symbols : SymbolTable) (placed : Placed) :
    List DataItem → Except Diagnostic (List UInt8)
  | [] => .ok []
  | .value expr :: rest => do
    let value ← placed.resolve symbols expr
    let bytes ← itemBytes symbols placed rest
    pure (lowByte value :: bytes)
  | .string text :: rest => do
    let bytes ← itemBytes symbols placed rest
    pure (Text.bytes text ++ bytes)

def wordBytes (symbols : SymbolTable) (placed : Placed) :
    List Expr → Except Diagnostic (List UInt8)
  | [] => .ok []
  | expr :: rest => do
    let value ← placed.resolve symbols expr
    let bytes ← wordBytes symbols placed rest
    pure (word value ++ bytes)

def instructionBytes (symbols : SymbolTable) (placed : Placed) (mnemonic : Mnemonic)
    (mode : AddressingMode) (operand : Option Located) : Except Diagnostic (List UInt8) :=
  match Instruction.encode? mnemonic mode with
  | none =>
    .error ⟨.unknownInstruction (mnemonic.name ++ " " ++ mode.describe), placed.line,
      placed.span.shift placed.offset⟩
  | some opcode =>
    match operand with
    | none => .ok [opcode]
    | some operand => do
      let value ← placed.resolve symbols operand.expr
      let bytes ← placed.operandBytes mode operand.span value
      pure (opcode :: bytes)

def encode (symbols : SymbolTable) (placed : Placed) : Except Diagnostic (List UInt8) :=
  match placed.content with
  | .instruction mnemonic mode operand => placed.instructionBytes symbols mnemonic mode operand
  | .bytes items => placed.itemBytes symbols items
  | .words values => placed.wordBytes symbols values
  | .terminated text => .ok (Text.bytes text ++ [0])

/-- How far the target of a branch is from the instruction after it, as a number without bounds.
Only a branch whose operand has a value has a distance. -/
def distance? (symbols : SymbolTable) (placed : Placed) : Option Int :=
  match placed.content with
  | .instruction _ .relative (some operand) =>
    (placed.resolve symbols operand.expr).toOption.map fun value =>
      value.toInt - Int.ofNat (placed.address + 2)
  | _ => none

def overflows (symbols : SymbolTable) (placed : Placed) : Bool :=
  (placed.distance? symbols).any fun distance =>
    decide (distance < Int64.minValue.toInt ∨ Int64.maxValue.toInt < distance)

end Placed

structure Program where
  image : Image
  overlaps : List Nat
  symbols : SymbolTable

namespace Program

structure Emission where
  image : Image
  overwrites : List Overwrite
  errors : List Diagnostic

def emit (symbols : SymbolTable) (image : Image) : List Placed → Emission
  | [] => ⟨image, [], []⟩
  | placed :: rest =>
    match placed.encode symbols with
    | .ok bytes =>
      let (written, overwrites) := image.writeAll placed.line placed.address bytes
      let later := emit symbols written rest
      { later with overwrites := overwrites ++ later.overwrites }
    | .error error =>
      let later := emit symbols image rest
      { later with errors := error :: later.errors }

def ofLayout (layout : Layout) : Except (List Diagnostic) Program × List Event :=
  let emission := emit layout.symbols .empty layout.statements
  let warnings := emission.overwrites.map fun overwrite =>
    Event.overwritten overwrite.line overwrite.address overwrite.old overwrite.new
  if emission.errors.isEmpty then
    (.ok ⟨emission.image, emission.overwrites.map (·.address), layout.symbols.sort⟩,
     warnings ++ [.emitted emission.image.size layout.statements.length])
  else (.error emission.errors, warnings)

end Program

inductive Pass where
  | symbols
  | codeGeneration
  deriving DecidableEq

def Pass.describe : Pass → String
  | symbols => "pass 1 (symbols)"
  | codeGeneration => "pass 2 (code generation)"

structure AssemblyError where
  pass : Pass
  errors : List Diagnostic
  deriving DecidableEq

namespace AssemblyError

def message (error : AssemblyError) : String :=
  error.pass.describe ++ " failed with " ++ toString error.errors.length ++ " error(s)"

def code : String := "asm::failed"

end AssemblyError

def assembleTelling (source : List Char) : Except AssemblyError Program × List Event :=
  match Layout.ofSource source with
  | (.error errors, events) => (.error ⟨.symbols, errors⟩, events)
  | (.ok layout, events) =>
    match Program.ofLayout layout with
    | (.error errors, more) => (.error ⟨.codeGeneration, errors⟩, events ++ more)
    | (.ok program, more) => (.ok program, events ++ more)

def assemble (source : List Char) : Except AssemblyError Program := (assembleTelling source).1

inductive Breakdown where
  | subtractionOverflow
  deriving DecidableEq

def Breakdown.message : Breakdown → String
  | subtractionOverflow => "attempt to subtract with overflow"

/-- Assembling with guarded arithmetic: the second pass does not wrap around at the first branch
whose distance is too large, it breaks down there. -/
def assembleGuarded (source : List Char) :
    Except Breakdown (Except AssemblyError Program) × List Event :=
  match Layout.ofSource source with
  | (.ok layout, events) =>
    if layout.statements.any (·.overflows layout.symbols) then
      let done := layout.statements.takeWhile fun placed => !placed.overflows layout.symbols
      let overwrites := (Program.emit layout.symbols .empty done).overwrites
      (.error .subtractionOverflow, events ++ overwrites.map fun overwrite =>
        Event.overwritten overwrite.line overwrite.address overwrite.old overwrite.new)
    else (.ok (assembleTelling source).1, (assembleTelling source).2)
  | (.error _, _) => (.ok (assembleTelling source).1, (assembleTelling source).2)

end EightBit
