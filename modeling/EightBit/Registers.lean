namespace EightBit

inductive Flag where
  | carry
  | zero
  | interruptDisable
  | decimal
  | breakCommand
  | unused
  | overflow
  | negative
  deriving DecidableEq

def Flag.mask : Flag → UInt8
  | carry => 0x01
  | zero => 0x02
  | interruptDisable => 0x04
  | decimal => 0x08
  | breakCommand => 0x10
  | unused => 0x20
  | overflow => 0x40
  | negative => 0x80

structure Registers where
  a : UInt8
  x : UInt8
  y : UInt8
  sp : UInt8
  pc : UInt16
  status : UInt8
  deriving DecidableEq

namespace Registers

def initial : Registers := ⟨0, 0, 0, 0xFF, 0, 0x24⟩

def flag (registers : Registers) (flag : Flag) : Bool := registers.status &&& flag.mask != 0

/-- The unused bit stays set, whatever the new status is. -/
def setStatus (registers : Registers) (status : UInt8) : Registers :=
  { registers with status := status ||| Flag.unused.mask }

def setFlag (registers : Registers) (flag : Flag) (value : Bool) : Registers :=
  registers.setStatus <|
    if value then registers.status ||| flag.mask else registers.status &&& ~~~flag.mask

def setResult (registers : Registers) (result : UInt8) : Registers :=
  (registers.setFlag .zero (result == 0)).setFlag .negative (result &&& 0x80 != 0)

/-- The stack fills page one from its end. -/
def stackAddress (registers : Registers) : UInt16 := 0x0100 ||| registers.sp.toUInt16

end Registers

end EightBit
