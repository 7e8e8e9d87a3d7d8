import EightBit.Line
import EightBit.Text.Number

namespace EightBit

inductive UndefinedHint where
  | labelInConstant
  | constantUsedEarly
  | originUsedEarly
  deriving DecidableEq

inductive DirectiveFault where
  | operandMissing
  | valueOrStringExpected
  | valueExpected
  | stringExpected
  | addressExpected
  | originOutside (origin : Int64)
  deriving DecidableEq

inductive Fault where
  | duplicateSymbol (name : String)
  | undefinedSymbol (name : String) (hint : Option UndefinedHint)
  | unknownInstruction (text : String)
  | branchOutOfRange (distance : Int64)
  | invalidDirective (name : String) (fault : DirectiveFault)
  | malformedLine (fault : LineFault)
  | addressOverflow (address : Nat)
  deriving DecidableEq

structure Diagnostic where
  fault : Fault
  line : Nat
  span : Span
  deriving DecidableEq

def UndefinedHint.message : UndefinedHint → String
  | labelInConstant => "constant definitions cannot refer to labels"
  | constantUsedEarly => "constants must be defined before they are used"
  | originUsedEarly => "symbols used by .ORG must be defined above it"

def DirectiveFault.message : DirectiveFault → String
  | operandMissing => "expected at least one operand"
  | valueOrStringExpected => "expected a value or a string"
  | valueExpected => "expected a value"
  | stringExpected => "expected a single string"
  | addressExpected => "expected a single address"
  | originOutside origin =>
    "origin 0x" ++ Text.hex 1 (Text.pattern origin) ++ " is outside $0000-$FFFF"

namespace Fault

def message : Fault → String
  | duplicateSymbol name => "symbol `" ++ name ++ "` is defined more than once"
  | undefinedSymbol name _ => "undefined symbol `" ++ name ++ "`"
  | unknownInstruction text => "unknown instruction `" ++ text ++ "`"
  | branchOutOfRange distance => "branch target is " ++ toString distance.toInt ++ " bytes away"
  | invalidDirective name fault => "invalid " ++ name ++ " directive: " ++ fault.message
  | malformedLine fault => fault.message
  | addressOverflow address => "address 0x" ++ Text.hex 1 address ++ " is past the end of memory"

def code : Fault → String
  | duplicateSymbol _ => "asm::duplicate_symbol"
  | undefinedSymbol .. => "asm::undefined_symbol"
  | unknownInstruction _ => "asm::unknown_instruction"
  | branchOutOfRange _ => "asm::branch_range"
  | invalidDirective .. => "asm::directive"
  | malformedLine _ => "asm::syntax"
  | addressOverflow _ => "asm::address_overflow"

def help : Fault → Option String
  | duplicateSymbol _ =>
    some "labels and constants share one namespace and may only be defined once"
  | undefinedSymbol _ hint => hint.map (·.message)
  | unknownInstruction _ => some "check the mnemonic and the addressing modes it supports"
  | branchOutOfRange _ =>
    some "relative branches reach from -128 to +127 bytes; use JMP for longer jumps"
  | invalidDirective .. | malformedLine _ => none
  | addressOverflow _ => some "addresses must stay below $10000"

def label : Fault → String
  | duplicateSymbol _ => "redefined here"
  | undefinedSymbol .. => "not defined"
  | unknownInstruction _ => "unknown mnemonic or addressing mode"
  | branchOutOfRange _ => "out of range"
  | invalidDirective .. => "invalid directive"
  | malformedLine _ => "here"
  | addressOverflow _ => "does not fit"

end Fault

def Diagnostic.message (diagnostic : Diagnostic) : String :=
  "line " ++ toString diagnostic.line ++ ": " ++ diagnostic.fault.message

end EightBit
