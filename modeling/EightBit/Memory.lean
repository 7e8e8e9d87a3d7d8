import EightBit.Event
import Std.Data.TreeMap.Basic

namespace EightBit

inductive MemoryError where
  | outOfRange (address size : Nat)
  | capacityExceeded (start length size : Nat)
  | romOverlap (start length : Nat)
  deriving DecidableEq

namespace MemoryError

open Text in
def message : MemoryError → String
  | outOfRange address size =>
    "memory access out of range: " ++ zeroXWord address ++ " (memory is 0x" ++ hex 1 size ++
      " bytes)"
  | capacityExceeded start length size =>
    "program of " ++ toString length ++ " bytes at " ++ zeroXWord start ++
      " does not fit in 0x" ++ hex 1 size ++ " bytes of memory"
  | romOverlap start length =>
    "program of " ++ toString length ++ " bytes at " ++ zeroXWord start ++
      " overlaps the font ROM"

def code : MemoryError → String
  | outOfRange .. => "mem::out_of_range"
  | capacityExceeded .. => "mem::capacity"
  | romOverlap .. => "mem::rom_overlap"

def help : MemoryError → Option String
  | outOfRange .. => none
  | capacityExceeded .. => some "choose a lower load address or shrink the program"
  | romOverlap .. => some "the font ROM occupies $F000-$F3FF and cannot be overwritten"

end MemoryError

/-- Only cells that were written are kept; the others are zero. -/
structure Memory where
  size : Nat
  cells : Std.TreeMap Nat UInt8

namespace Memory

def ofSize (size : Nat) : Memory := ⟨size, ∅⟩

def reset (memory : Memory) : Memory := ofSize memory.size

/-- The byte at an address; beyond the end of memory, zero. -/
def byte (memory : Memory) (address : Nat) : UInt8 := memory.cells.getD address 0

def read (memory : Memory) (address : Nat) : Except MemoryError UInt8 :=
  if address < memory.size then .ok (memory.byte address)
  else .error (.outOfRange address memory.size)

/-- Beyond the end of memory nothing is stored. -/
def store (memory : Memory) (address : Nat) (byte : UInt8) : Memory :=
  if address < memory.size then { memory with cells := memory.cells.insert address byte }
  else memory

def storeAll (memory : Memory) (start : Nat) : List UInt8 → Memory
  | [] => memory
  | byte :: rest => (memory.store start byte).storeAll (start + 1) rest

def write (memory : Memory) (address : Nat) (value : UInt16) : Except MemoryError Memory :=
  if address < memory.size then .ok (memory.store address value.toUInt8)
  else .error (.outOfRange address memory.size)

def load (memory : Memory) (program : List UInt8) (start : Nat) : Except MemoryError Memory :=
  if program.isEmpty then .ok memory
  else if start + program.length ≤ memory.size then .ok (memory.storeAll start program)
  else .error (.capacityExceeded start program.length memory.size)

def loadEvents (memory : Memory) (program : List UInt8) (start : Nat) : List Event :=
  if program.isEmpty then [.loadedNothing start]
  else match memory.load program start with
    | .ok _ => [.loaded program.length start]
    | .error _ => []

def slice (memory : Memory) (start length : Nat) : List UInt8 :=
  let first := min start memory.size
  let stop := min (start + length) memory.size
  (List.range' first (stop - first)).map memory.byte

end Memory

end EightBit
