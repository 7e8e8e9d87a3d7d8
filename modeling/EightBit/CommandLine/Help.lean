import EightBit.CommandLine

namespace EightBit

def versionText : String := "rasm8 0.1.0\n"

def overview : String :=
"Assembler and emulator for a compact 6502-style 8-bit computer

Usage: rasm8 <COMMAND>

Commands:
  assemble  Assemble a `.asm` file into a raw binary image
  check     Check a `.asm` file without outputting binary
  run       Run a `.asm` file or a raw binary and print the final machine state
  help      Print this message or the help of the given subcommand(s)

Options:
  -h, --help     Print help
  -V, --version  Print version
"

def assembleHelp : String :=
"Assemble a `.asm` file into a raw binary image

Usage: rasm8 assemble <NAME> <DEST>

Arguments:
  <NAME>  `.asm` file to assemble
  <DEST>  Destination for the binary

Options:
  -h, --help  Print help
"

def checkHelp : String :=
"Check a `.asm` file without outputting binary

Usage: rasm8 check [OPTIONS] <NAME>

Arguments:
  <NAME>  File to check

Options:
  -s, --symbols  Print the symbol table
  -h, --help     Print help
"

def runHelp : String :=
"Run a `.asm` file or a raw binary and print the final machine state

Usage: rasm8 run [OPTIONS] <NAME>

Arguments:
  <NAME>  `.asm` file or binary image to run

Options:
  -l, --load-address <LOAD_ADDRESS>  Address a binary image is loaded at [default: 0]
  -s, --start <START>                Address execution starts at; defaults to the program origin
      --max-steps <MAX_STEPS>        Maximum number of instructions to execute
  -m, --minimal                      Produce minimal output, suited for blackbox tests
      --screen                       Print video memory as text after the run
  -h, --help                         Print help
"

def helpHelp : String :=
"Print this message or the help of the given subcommand(s)

Usage: rasm8 help [COMMAND]...

Arguments:
  [COMMAND]...  Print help for the subcommand(s)
"

def CommandName.help : CommandName → String
  | assemble => assembleHelp
  | check => checkHelp
  | run => runHelp

def HelpTopic.text : HelpTopic → String
  | program => overview
  | command name => name.help
  | help => helpHelp

end EightBit
