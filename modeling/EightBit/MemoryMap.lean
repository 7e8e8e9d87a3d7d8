/-!
What lies where in the memory of the machine.
-/
namespace EightBit.MemoryMap

def memorySize : Nat := 0x10000

def characterHeight : Nat := 8

def characterCount : Nat := 128

def fontStart : Nat := 0xF000

def fontSize : Nat := characterCount * characterHeight

def fontLast : Nat := fontStart + fontSize - 1

def screenColumns : Nat := 40

def screenRows : Nat := 25

def videoStart : Nat := 0x0400

def videoSize : Nat := screenColumns * screenRows

def videoLast : Nat := videoStart + videoSize - 1

def isFont (address : Nat) : Bool := fontStart ≤ address && address ≤ fontLast

def isVideo (address : Nat) : Bool := videoStart ≤ address && address ≤ videoLast

end EightBit.MemoryMap

namespace EightBit.Font

/-- The characters, control characters first, which are blank. In each number the top row has the
highest eight bits, and in each row the leftmost dot has the highest bit. -/
def characters : List Nat :=
  List.replicate 32 0 ++
  [0x0000000000000000, 0x183C3C1818001800, 0x6C6C6C0000000000, 0x6C6CFE6CFE6C6C00,
   0x307CC0780CF83000, 0x00C6CC183066C600, 0x386C3876DCCC7600, 0x6060C00000000000,
   0x1830606060301800, 0x6030181818306000, 0x00663CFF3C660000, 0x003030FC30300000,
   0x0000000000303060, 0x000000FC00000000, 0x0000000000303000, 0x060C183060C08000,
   0x7CC6CEDEF6E67C00, 0x307030303030FC00, 0x78CC0C3860CCFC00, 0x78CC0C380CCC7800,
   0x1C3C6CCCFE0C1E00, 0xFCC0F80C0CCC7800, 0x3860C0F8CCCC7800, 0xFCCC0C1830303000,
   0x78CCCC78CCCC7800, 0x78CCCC7C0C187000, 0x0030300000303000, 0x0030300000303060,
   0x183060C060301800, 0x0000FC0000FC0000, 0x6030180C18306000, 0x78CC0C1830003000,
   0x7CC6DEDEDEC07800, 0x3078CCCCFCCCCC00, 0xFC66667C6666FC00, 0x3C66C0C0C0663C00,
   0xF86C6666666CF800, 0xFE6268786862FE00, 0xFE6268786860F000, 0x3C66C0C0CE663E00,
   0xCCCCCCFCCCCCCC00, 0x7830303030307800, 0x1E0C0C0CCCCC7800, 0xE6666C786C66E600,
   0xF06060606266FE00, 0xC6EEFEFED6C6C600, 0xC6E6F6DECEC6C600, 0x386CC6C6C66C3800,
   0xFC66667C6060F000, 0x78CCCCCCDC781C00, 0xFC66667C6C66E600, 0x78CCE0701CCC7800,
   0xFCB4303030307800, 0xCCCCCCCCCCCCFC00, 0xCCCCCCCCCC783000, 0xC6C6C6D6FEEEC600,
   0xC6C66C38386CC600, 0xCCCCCC7830307800, 0xFEC68C183266FE00, 0x7860606060607800,
   0xC06030180C060200, 0x7818181818187800, 0x10386CC600000000, 0x00000000000000FF,
   0x3030180000000000, 0x0000780C7CCC7600, 0xE060607C6666DC00, 0x000078CCC0CC7800,
   0x1C0C0C7CCCCC7600, 0x000078CCFCC07800, 0x386C60F06060F000, 0x000076CCCC7C0CF8,
   0xE0606C766666E600, 0x3000703030307800, 0x0C000C0C0CCCCC78, 0xE060666C786CE600,
   0x7030303030307800, 0x0000CCFEFED6C600, 0x0000F8CCCCCCCC00, 0x000078CCCCCC7800,
   0x0000DC66667C60F0, 0x000076CCCC7C0C1E, 0x0000DC766660F000, 0x00007CC0780CF800,
   0x10307C3030341800, 0x0000CCCCCCCC7600, 0x0000CCCCCC783000, 0x0000C6D6FEFE6C00,
   0x0000C66C386CC600, 0x0000CCCCCC7C0CF8, 0x0000FC983064FC00, 0x1C3030E030301C00,
   0x1818180018181800, 0xE030301C3030E000, 0x76DC000000000000, 0x0010386CC6C6FE00]

def rows (character : Nat) : List UInt8 :=
  [56, 48, 40, 32, 24, 16, 8, 0].map fun shift => UInt8.ofNat (character >>> shift)

/-- The rows that are shown for a code. The highest bit of a code does not count. -/
def glyph (code : UInt8) : List UInt8 := rows (characters.getD (code.toNat % 128) 0)

def bytes : List UInt8 := characters.flatMap rows

theorem length_bytes : bytes.length = 1024 := by decide +kernel

end EightBit.Font
