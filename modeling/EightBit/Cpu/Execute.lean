import EightBit.Cpu

/-!
What one instruction does. Every instruction reads all it needs before it changes anything, so its
outcome is a function of the registers and of memory: the registers after it, the bytes it stores,
and the cycles it takes on top of its own.
-/
namespace EightBit

def wordOf (low high : UInt8) : UInt16 := UInt16.ofNat (256 * high.toNat + low.toNat)

def signExtend (byte : UInt8) : UInt16 :=
  if byte < 0x80 then byte.toUInt16 else byte.toUInt16 + 0xFF00

def samePage (first second : UInt16) : Bool := first.toNat / 256 = second.toNat / 256

namespace Memory

def at16 (memory : Memory) (address : UInt16) : UInt8 := memory.byte address.toNat

def operandByte (memory : Memory) (pc : UInt16) : UInt8 := memory.at16 (pc + 1)

def operandWord (memory : Memory) (pc : UInt16) : UInt16 :=
  wordOf (memory.at16 (pc + 1)) (memory.at16 (pc + 2))

/-- The word that a byte of page zero points to; the pointer does not leave page zero. -/
def pointer (memory : Memory) (zeroPage : UInt8) : UInt16 :=
  wordOf (memory.at16 zeroPage.toUInt16) (memory.at16 (zeroPage + 1).toUInt16)

end Memory

namespace Registers

def addWithCarry (registers : Registers) (value : UInt8) : Registers :=
  let sum := registers.a.toNat + value.toNat + (registers.flag .carry).toNat
  let result := UInt8.ofNat sum
  let overflow := ~~~(registers.a ^^^ value) &&& (registers.a ^^^ result) &&& 0x80 != 0
  { ((registers.setFlag .carry (0xFF < sum)).setFlag .overflow overflow).setResult result with
    a := result }

def compare (registers : Registers) (register value : UInt8) : Registers :=
  ((registers.setFlag .zero (register == value)).setFlag .negative
    ((register - value) &&& 0x80 != 0)).setFlag .carry (value ≤ register)

def setA (registers : Registers) (value : UInt8) : Registers :=
  { registers with a := value }.setResult value

def setX (registers : Registers) (value : UInt8) : Registers :=
  { registers with x := value }.setResult value

def setY (registers : Registers) (value : UInt8) : Registers :=
  { registers with y := value }.setResult value

end Registers

namespace Cpu

/-- The address of an operand, and the address before an index was added to it. -/
structure Place where
  base : UInt16
  address : UInt16

def Place.direct (address : UInt16) : Place := ⟨address, address⟩

def Place.indexed (base : UInt16) (offset : UInt8) : Place := ⟨base, base + offset.toUInt16⟩

def Place.penalty (place : Place) : Nat := if samePage place.address place.base then 0 else 1

/-- The place of the operand of an instruction at the program counter. Without an operand it is the
instruction itself; a branch goes to its place, as seen from the instruction behind it. -/
def place (memory : Memory) (registers : Registers) : AddressingMode → Place
  | .implied => .direct registers.pc
  | .relative =>
    let next := registers.pc + 2
    ⟨next, next + signExtend (memory.operandByte registers.pc)⟩
  | .immediate => .direct (registers.pc + 1)
  | .zeroPage => .direct (memory.operandByte registers.pc).toUInt16
  | .absolute => .direct (memory.operandWord registers.pc)
  | .absoluteX => .indexed (memory.operandWord registers.pc) registers.x
  | .absoluteY => .indexed (memory.operandWord registers.pc) registers.y
  | .indirectY => .indexed (memory.pointer (memory.operandByte registers.pc)) registers.y

structure Outcome where
  registers : Registers
  stores : List (UInt16 × UInt8)
  penalty : Nat

def perform (instruction : Instruction) (registers : Registers) (memory : Memory)
    (place : Place) : Outcome :=
  let next := { registers with pc := registers.pc + UInt16.ofNat instruction.mode.size }
  let read (after : UInt8 → Registers) : Outcome :=
    ⟨after (memory.at16 place.address), [], place.penalty⟩
  let store (value : UInt8) : Outcome := ⟨next, [(place.address, value)], 0⟩
  let change (after : Registers) : Outcome := ⟨after, [], 0⟩
  let branch (taken : Bool) : Outcome :=
    if taken then ⟨{ next with pc := place.address }, [], 1 + place.penalty⟩ else change next
  let above (n : UInt8) : UInt16 := { registers with sp := registers.sp + n }.stackAddress
  match instruction.mnemonic with
  | .adc => read next.addWithCarry
  | .bcc => branch !(registers.flag .carry)
  | .bcs => branch (registers.flag .carry)
  | .beq => branch (registers.flag .zero)
  | .bmi => branch (registers.flag .negative)
  | .bne => branch !(registers.flag .zero)
  | .bpl => branch !(registers.flag .negative)
  | .bvc => branch !(registers.flag .overflow)
  | .bvs => branch (registers.flag .overflow)
  | .clc => change (next.setFlag .carry false)
  | .cmp => read (next.compare registers.a)
  | .cpx => read (next.compare registers.x)
  | .cpy => read (next.compare registers.y)
  | .dex => change (next.setX (registers.x - 1))
  | .dey => change (next.setY (registers.y - 1))
  | .inc =>
    let value := memory.at16 place.address + 1
    ⟨next.setResult value, [(place.address, value)], 0⟩
  | .inx => change (next.setX (registers.x + 1))
  | .iny => change (next.setY (registers.y + 1))
  | .jmp => change { next with pc := place.address }
  | .jsr =>
    let back := (next.pc - 1).toNat
    ⟨{ next with pc := place.address, sp := registers.sp - 2 },
     [(above 0, UInt8.ofNat (back / 256)), (above (-1), UInt8.ofNat back)], 0⟩
  | .lda => read next.setA
  | .ldx => read next.setX
  | .ldy => read next.setY
  | .nop => change next
  | .pha => ⟨{ next with sp := registers.sp - 1 }, [(above 0, registers.a)], 0⟩
  | .pla => change ({ next with sp := registers.sp + 1 }.setA (memory.at16 (above 1)))
  | .rts =>
    let back := wordOf (memory.at16 (above 1)) (memory.at16 (above 2))
    change { next with pc := back + 1, sp := registers.sp + 2 }
  | .sec => change (next.setFlag .carry true)
  | .sta => store registers.a
  | .stx => store registers.x
  | .sty => store registers.y
  | .tax => change (next.setX registers.a)
  | .tay => change (next.setY registers.a)
  | .txa => change (next.setA registers.x)
  | .tya => change (next.setA registers.y)

def outcome (instruction : Instruction) (registers : Registers) (memory : Memory) : Outcome :=
  perform instruction registers memory (place memory registers instruction.mode)

/-- Stores bytes, except where the character set is. -/
def commit (memory : Memory) : List (UInt16 × UInt8) → Memory
  | [] => memory
  | (address, value) :: rest =>
    if MemoryMap.isFont address.toNat then commit memory rest
    else commit (memory.store address.toNat value) rest

def conclude (cpu : Cpu) (instruction : Instruction) (result : Outcome) : Cpu :=
  let cycles := instruction.cycles + result.penalty
  { cpu with
    memory := commit cpu.memory result.stores
    registers := result.registers
    cycles
    totalCycles := cpu.totalCycles + cycles }

def halt (cpu : Cpu) (opcode : UInt8) : Cpu :=
  { cpu with
    registers := { cpu.registers with pc := cpu.registers.pc + 1 }
    state := .halted (.unknownOpcode opcode cpu.registers.pc)
    cycles := 1
    totalCycles := cpu.totalCycles + 1 }

/-- One instruction. A halted machine stays as it is. -/
def step (cpu : Cpu) : Cpu :=
  if cpu.isHalted then cpu
  else
    let opcode := cpu.memory.at16 cpu.registers.pc
    match Instruction.decode? opcode with
    | none => cpu.halt opcode
    | some instruction =>
      cpu.conclude instruction (outcome instruction cpu.registers cpu.memory)

theorem step_of_unknown {cpu : Cpu} (live : cpu.isHalted = false)
    (unknown : Instruction.decode? (cpu.memory.at16 cpu.registers.pc) = none) :
    cpu.step = cpu.halt (cpu.memory.at16 cpu.registers.pc) := by
  simp only [step, live, Bool.false_eq_true, ↓reduceIte, unknown]

theorem step_of_decode {cpu : Cpu} {instruction : Instruction} (live : cpu.isHalted = false)
    (decoded : Instruction.decode? (cpu.memory.at16 cpu.registers.pc) = some instruction) :
    cpu.step = cpu.conclude instruction (outcome instruction cpu.registers cpu.memory) := by
  simp only [step, live, Bool.false_eq_true, ↓reduceIte, decoded]

def stepEvents (cpu : Cpu) : List Event :=
  if cpu.isHalted then []
  else
    let address := cpu.registers.pc
    let opcode := cpu.memory.at16 address
    match Instruction.decode? opcode with
    | none => [.halting opcode address]
    | some instruction =>
      (if cpu.tracing then [.executing instruction cpu.registers] else []) ++
      ((outcome instruction cpu.registers cpu.memory).stores.filter
        fun (address, _) => MemoryMap.isFont address.toNat).map
        fun (address, value) => .writeIgnored address value

end Cpu

end EightBit
