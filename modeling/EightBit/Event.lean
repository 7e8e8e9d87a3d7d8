import EightBit.Instruction
import EightBit.Registers
import EightBit.SymbolTable
import EightBit.Text.Number

namespace EightBit

inductive Severity where
  | error
  | warning
  | debug
  | trace
  deriving DecidableEq

def Severity.name : Severity → String
  | error => "ERROR"
  | warning => "WARN"
  | debug => "DEBUG"
  | trace => "TRACE"

def Severity.rank : Severity → Nat
  | error => 1
  | warning => 2
  | debug => 4
  | trace => 5

inductive Event where
  | symbolDefined (name : String) (symbol : Symbol)
  | definitionIgnored (name : String) (first : Symbol)
  | originSet (line : Nat) (origin : Int64)
  | laidOut (statements symbols : Nat)
  | overwritten (line address : Nat) (old new : UInt8)
  | emitted (bytes statements : Nat)
  | addressesShared (count : Nat)
  | loaded (size start : Nat)
  | loadedNothing (start : Nat)
  | loadFailed (reason : String)
  | machineReset
  | writeIgnored (address : UInt16) (value : UInt8)
  | halting (opcode : UInt8) (address : UInt16)
  | executing (instruction : Instruction) (registers : Registers)
  | stepLimitIgnored (text : String)

namespace Event

def severity : Event → Severity
  | loadFailed _ => .error
  | overwritten .. | addressesShared _ | loadedNothing _ | writeIgnored .. | halting ..
  | stepLimitIgnored _ => .warning
  | symbolDefined .. | definitionIgnored .. | originSet .. | laidOut .. | emitted .. | loaded ..
  | machineReset => .debug
  | executing .. => .trace

open Text in
def message : Event → String
  | symbolDefined name symbol =>
    symbol.kind.describe ++ " " ++ name ++ " = " ++ zeroXWord (pattern symbol.value) ++
      " (line " ++ toString symbol.line ++ ")"
  | definitionIgnored name first => name ++ " was first defined on line " ++ toString first.line
  | originSet line origin =>
    "line " ++ toString line ++ ": origin set to " ++ zeroXWord (pattern origin)
  | laidOut statements symbols =>
    "pass 1 sized " ++ toString statements ++ " statements and " ++ toString symbols ++ " symbols"
  | overwritten line address old new =>
    "line " ++ toString line ++ ": overwriting " ++ dollarByte old ++ " at " ++
      dollarWord address ++ " with " ++ dollarByte new
  | emitted bytes statements =>
    "pass 2 emitted " ++ toString bytes ++ " bytes from " ++ toString statements ++ " statements"
  | addressesShared count => toString count ++ " address(es) were written more than once"
  | loaded size start => "loaded " ++ toString size ++ " bytes at " ++ zeroXWord start
  | loadedNothing start => "attempted to load an empty program at " ++ zeroXWord start
  | loadFailed reason => "could not load font ROM: " ++ reason
  | machineReset => "cpu reset"
  | writeIgnored address value =>
    "ignored write of " ++ dollarByte value ++ " to font ROM at " ++ dollarWord address.toNat
  | halting opcode address =>
    "unknown opcode " ++ dollarByte opcode ++ " at " ++ dollarWord address.toNat ++ ", halting"
  | executing instruction registers =>
    capitalHex 4 registers.pc.toNat ++ "  " ++ capitalHex 2 instruction.opcode.toNat ++ "  " ++
      instruction.mnemonic.name ++ " " ++ alignLeft 12 instruction.mode.describe ++
      " A=" ++ capitalHex 2 registers.a.toNat ++ " X=" ++ capitalHex 2 registers.x.toNat ++
      " Y=" ++ capitalHex 2 registers.y.toNat ++ " SP=" ++ capitalHex 2 registers.sp.toNat ++
      " P=" ++ binary 8 registers.status.toNat
  | stepLimitIgnored text => "ignoring invalid RASM8_MAX_STEPS value `" ++ text ++ "`"

end Event

def SymbolTable.addEvents (table : SymbolTable) (name : String) (symbol : Symbol) : List Event :=
  if table.contains name then [] else [.symbolDefined (key name) symbol]

end EightBit
