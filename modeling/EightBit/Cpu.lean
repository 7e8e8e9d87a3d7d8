import EightBit.Memory
import EightBit.MemoryMap

namespace EightBit

inductive HaltReason where
  | unknownOpcode (opcode : UInt8) (address : UInt16)
  deriving DecidableEq

def HaltReason.describe : HaltReason → String
  | unknownOpcode opcode address =>
    "unknown opcode " ++ Text.dollarByte opcode ++ " at " ++ Text.dollarWord address.toNat

inductive CpuState where
  | idle
  | running
  | halted (reason : HaltReason)
  deriving DecidableEq

def CpuState.describe : CpuState → String
  | idle => "idle"
  | running => "running"
  | halted reason => "halted: " ++ reason.describe

structure Cpu where
  memory : Memory
  registers : Registers
  state : CpuState
  cycles : Nat
  totalCycles : Nat
  tracing : Bool

namespace Cpu

/-- Back to the state of a new machine: the character set in memory, and zeros. Only tracing stays
as it is. -/
def reset (cpu : Cpu) : Cpu :=
  let blank := cpu.memory.reset
  { cpu with
    memory := (blank.load Font.bytes MemoryMap.fontStart).toOption.getD blank
    registers := .initial
    state := .idle
    cycles := 0
    totalCycles := 0 }

def resetEvents (cpu : Cpu) : List Event :=
  (match cpu.memory.reset.load Font.bytes MemoryMap.fontStart with
    | .ok _ => cpu.memory.reset.loadEvents Font.bytes MemoryMap.fontStart
    | .error error => [.loadFailed error.message]) ++ [.machineReset]

def blank : Cpu := ⟨.ofSize MemoryMap.memorySize, .initial, .idle, 0, 0, false⟩

def new : Cpu := blank.reset

def setTracing (cpu : Cpu) (tracing : Bool) : Cpu := { cpu with tracing }

def isHalted (cpu : Cpu) : Bool :=
  match cpu.state with
  | .halted _ => true
  | _ => false

/-- Whether a program would lie, at least in part, where the character set is. -/
def touchesFont (program : List UInt8) (start : UInt16) : Bool :=
  !program.isEmpty && start.toNat ≤ MemoryMap.fontLast &&
    MemoryMap.fontStart < start.toNat + program.length

def load (cpu : Cpu) (program : List UInt8) (start : UInt16) : Except MemoryError Cpu :=
  if touchesFont program start then .error (.romOverlap start.toNat program.length)
  else (cpu.memory.load program start.toNat).map fun memory => { cpu with memory }

def loadEvents (cpu : Cpu) (program : List UInt8) (start : UInt16) : List Event :=
  if touchesFont program start then [] else cpu.memory.loadEvents program start.toNat

def poke (cpu : Cpu) (address : UInt16) (value : UInt8) : Except MemoryError Cpu :=
  if MemoryMap.isFont address.toNat then .error (.romOverlap address.toNat 1)
  else (cpu.memory.write address.toNat value.toUInt16).map fun memory => { cpu with memory }

def video (cpu : Cpu) : List UInt8 := cpu.memory.slice MemoryMap.videoStart MemoryMap.videoSize

def font (cpu : Cpu) : List UInt8 := cpu.memory.slice MemoryMap.fontStart MemoryMap.fontSize

end Cpu

end EightBit
