import EightBit.Assembly
import EightBit.Cpu.Run

namespace EightBit

inductive LoadError where
  | emptyProgram
  | memory (error : MemoryError)
  deriving DecidableEq

def LoadError.message : LoadError → String
  | emptyProgram => "program is empty, nothing to run"
  | memory error => error.message

namespace Cpu

/-- Loads each segment where it belongs, up to the first that does not go there. -/
def loadSegments (cpu : Cpu) : List (Nat × List UInt8) → Except MemoryError Cpu
  | [] => .ok cpu
  | (start, bytes) :: rest => do
    let cpu ← cpu.load bytes (UInt16.ofNat start)
    cpu.loadSegments rest

def loadProgram (cpu : Cpu) (program : Program) : Except LoadError (Cpu × UInt16) :=
  match program.image.origin? with
  | none => .error .emptyProgram
  | some origin =>
    match cpu.loadSegments program.image.segments with
    | .ok cpu => .ok (cpu, UInt16.ofNat origin)
    | .error error => .error (.memory error)

end Cpu

end EightBit
