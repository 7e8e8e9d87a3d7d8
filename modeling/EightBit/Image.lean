import Std.Data.TreeMap.Basic

namespace EightBit

structure Image where
  cells : Std.TreeMap Nat UInt8

structure Overwrite where
  line : Nat
  address : Nat
  old : UInt8
  new : UInt8
  deriving DecidableEq

def joinCells : List (Nat × UInt8) → List (Nat × List UInt8)
  | [] => []
  | (address, byte) :: rest =>
    match joinCells rest with
    | [] => [(address, [byte])]
    | (start, bytes) :: more =>
      if start = address + 1 then (address, byte :: bytes) :: more
      else (address, [byte]) :: (start, bytes) :: more

namespace Image

def empty : Image := ⟨∅⟩

def get? (image : Image) (address : Nat) : Option UInt8 := image.cells[address]?

def write (image : Image) (address : Nat) (byte : UInt8) : Image :=
  ⟨image.cells.insert address byte⟩

/-- Writes bytes from an address on; the last write to an address wins. Tells of the bytes that
were there before. -/
def writeAll (image : Image) (line address : Nat) : List UInt8 → Image × List Overwrite
  | [] => (image, [])
  | byte :: rest =>
    let place := address % 0x10000
    let (final, later) := (image.write place byte).writeAll line (address + 1) rest
    match image.get? place with
    | some old => (final, ⟨line, place, old, byte⟩ :: later)
    | none => (final, later)

def size (image : Image) : Nat := image.cells.size

def isEmpty (image : Image) : Bool := image.cells.isEmpty

def origin? (image : Image) : Option Nat := image.cells.minKey?

def stop (image : Image) : Nat := image.cells.maxKey?.elim 0 (· + 1)

/-- The bytes from address zero through the last one: zeros, and over them every cell. -/
def toBinary (image : Image) : List UInt8 :=
  (image.cells.foldl (fun bytes address byte => bytes.setIfInBounds address byte)
    (Array.replicate image.stop 0)).toList

def segments (image : Image) : List (Nat × List UInt8) := joinCells image.cells.toList

end Image

end EightBit
