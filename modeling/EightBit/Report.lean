import EightBit.Cpu

namespace EightBit.Report

def listing (table : SymbolTable) : String :=
  String.join <| table.entries.map fun (name, symbol) =>
    Text.alignRight 6 ("$" ++ Text.capitalHex 4 (Text.pattern symbol.value)) ++ "  " ++
      Text.alignLeft 16 name ++ " " ++ symbol.kind.describe ++ "\n"

def flagLetters : List (Flag × Char) :=
  [(.negative, 'N'), (.overflow, 'V'), (.unused, '-'), (.breakCommand, 'B'), (.decimal, 'D'),
   (.interruptDisable, 'I'), (.zero, 'Z'), (.carry, 'C')]

/-- The status byte, highest bit first; a dot stands for a flag that is not set. -/
def flags (registers : Registers) : String :=
  String.ofList <| flagLetters.map fun (flag, letter) =>
    if registers.flag flag then letter else '.'

def dim (text : String) : String := "\x1b[2m" ++ text ++ "\x1b[0m"

def bold (text : String) : String := "\x1b[1m" ++ text ++ "\x1b[0m"

def character (value : UInt8) : String :=
  match value.toNat with
  | 0x00 => "NUL"
  | 0x08 => "BS "
  | 0x09 => "HT "
  | 0x0A => "LF "
  | 0x0D => "CR "
  | 0x1B => "ESC"
  | 0x20 => "[_]"
  | 0x7F => "DEL"
  | n =>
    if 0x20 < n ∧ n < 0x7F then String.ofList [Char.ofNat n, ' ', ' ']
    else if n < 0x80 then dim "───"
    else dim "┄┄┄"

def byteRegisters (registers : Registers) : List (String × UInt8) :=
  [("A", registers.a), ("X", registers.x), ("Y", registers.y), ("SP", registers.sp)]

def plainRegisters (cpu : Cpu) : String :=
  String.join ((byteRegisters cpu.registers).map fun (name, value) =>
    name ++ " " ++ toString value.toNat ++ "\n") ++
  "PC " ++ toString cpu.registers.pc.toNat ++ "\n" ++
  "P " ++ Text.binary 8 cpu.registers.status.toNat ++ "\n" ++
  "CYCLES " ++ toString cpu.totalCycles ++ "\n"

def rule : String := "────────────────────────────────────"

def byteRow (name : String) (value : UInt8) : String :=
  dim "│" ++ " " ++ bold (Text.alignLeft 2 name) ++ "    0x" ++ Text.hex 2 value.toNat ++ "  " ++
    Text.alignRight 4 (toString value.toNat) ++ "  " ++
    Text.alignRight 4 (toString value.toInt8.toInt) ++ "   " ++ character value ++ "       " ++
    dim "│" ++ "\n"

def boxedRegisters (cpu : Cpu) : String :=
  let registers := cpu.registers
  dim ("┌" ++ rule ++ "┐") ++ "\n" ++
  dim ("│        \x1b[3mhex   uint   int   char\x1b[0m\x1b[2m      │") ++ "\n" ++
  String.join ((byteRegisters registers).map fun (name, value) => byteRow name value) ++
  dim "│" ++ " " ++ bold "PC" ++ "  0x" ++ Text.hex 4 registers.pc.toNat ++ "      " ++ bold "P" ++
    "  " ++ flags registers ++ "  " ++ dim "│" ++ "\n" ++
  dim ("└" ++ rule ++ "┘") ++ "\n"

def registers (cpu : Cpu) (minimal : Bool) : String :=
  if minimal then plainRegisters cpu else boxedRegisters cpu

/-- What a screen cell shows: zero is blank, and a code that is no printable one is a dot. -/
def cell (code : UInt8) : Char :=
  if code = 0 then ' '
  else if 0x20 ≤ code ∧ code ≤ 0x7E then Char.ofNat code.toNat
  else '.'

def rowsOf : List UInt8 → List (List UInt8)
  | [] => []
  | code :: rest =>
    let width := MemoryMap.screenColumns - 1
    (code :: rest.take width) :: rowsOf (rest.drop width)
termination_by codes => codes.length
decreasing_by rw [List.length_drop, List.length_cons]; omega

def screenLine (row : List UInt8) : List Char := Text.trimEnd (row.map cell)

def screen (codes : List UInt8) : String :=
  String.join <| (rowsOf codes).map fun row => String.ofList (screenLine row) ++ "\n"

end EightBit.Report
