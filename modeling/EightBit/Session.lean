import EightBit.CommandLine.Help
import EightBit.Loader
import EightBit.Report
import EightBit.Settings

/-!
What the program does when it is called, as data: what it prints, which files it reads and writes,
and how it ends. Whoever carries a session out answers its questions.
-/
namespace EightBit

inductive Session where
  | finish (code : Nat)
  | print (text : String) (next : Session)
  | complain (text : String) (next : Session)
  | tell (events : List Event) (next : Session)
  | read (path : String) (next : Option ByteArray → Session)
  | write (path : String) (bytes : List UInt8) (next : Bool → Session)

namespace Session

def say (subject text : String) (next : Session) : Session :=
  print (Text.alignRight 12 subject ++ " " ++ text ++ "\n") next

def sayUnless (silent : Bool) (subject text : String) (next : Session) : Session :=
  if silent then next else say subject text next

def printIf (wanted : Bool) (text : String) (next : Session) : Session :=
  if wanted then print text next else next

def fail (text : String) : Session := complain (text ++ "\n") (finish 1)

def breakdownCode : Nat := 101

def explain (error : AssemblyError) : String :=
  String.intercalate "\n" (error.message :: error.errors.map (·.message))

def assembling (name : String) (next : Program → Session) : Session :=
  read name fun content =>
    match content.bind String.fromUTF8? with
    | none => fail (name ++ ": not a readable text file")
    | some source =>
      match assembleGuarded source.toList with
      | (.error breakdown, events) =>
        tell events (complain (breakdown.message ++ "\n") (finish breakdownCode))
      | (.ok (.error error), events) => tell events (fail (explain error))
      | (.ok (.ok program), events) =>
        tell (events ++ (if program.overlaps.isEmpty then []
          else [.addressesShared program.overlaps.length]))
          (next program)

def assemble (name dest : String) : Session :=
  say "Assembling" ("target " ++ name) <|
  assembling name fun program =>
    let bytes := program.image.toBinary
    write dest bytes fun written =>
      if written then
        say "Finished" ("emit " ++ toString bytes.length ++ " bytes") <|
        say "Saved" ("target " ++ dest) <|
        finish 0
      else fail (dest ++ ": cannot be written")

def check (name : String) (symbols : Bool) : Session :=
  say "Checking" ("target " ++ name) <|
  assembling name fun program =>
    printIf symbols (Report.listing program.symbols) <|
    say "Success" "no errors found!" <|
    finish 0

def runMachine (settings : Settings) (options : RunOptions) (cpu : Cpu) (origin : UInt16) :
    Session :=
  let start := options.start.getD origin
  let limit := options.maxSteps.getD settings.maxSteps
  let ready := { cpu with registers := { cpu.registers with pc := start } }
  let (events, steps, cpu) :=
    ready.runForWatching (fun events cpu => cpu.stepEvents ++ events) [] limit
  sayUnless options.minimal "Running" ("from " ++ Text.dollarWord start.toNat) <|
  tell events.reverse <|
  (match cpu.state with
    | .halted reason =>
      sayUnless options.minimal "Halted"
        (reason.describe ++ " after " ++ toString steps ++ " steps")
    | _ => say "Stopped" ("step limit of " ++ toString limit ++ " reached")) <|
  print (Report.registers cpu options.minimal) <|
  sayUnless options.minimal "Cycles"
    (toString cpu.totalCycles ++ " total, " ++ toString cpu.cycles ++ " last") <|
  printIf options.screen (Report.screen cpu.video) <|
  finish 0

/-- A file with the extension `asm` is a source; any other is an image. -/
def isSource (name : String) : Bool := Text.extension? name = some "asm".toList

def run (settings : Settings) (options : RunOptions) : Session :=
  let cpu := Cpu.new.setTracing settings.tracing
  if isSource options.name then
    sayUnless options.minimal "Assembling" ("target " ++ options.name) <|
    assembling options.name fun program =>
      match cpu.loadProgram program with
      | .ok (cpu, origin) => runMachine settings options cpu origin
      | .error error => fail error.message
  else
    read options.name fun content =>
      match content with
      | none => fail (options.name ++ ": cannot be read")
      | some content =>
        let program := content.toList
        tell (cpu.loadEvents program options.loadAddress) <|
        match cpu.load program options.loadAddress with
        | .ok cpu => runMachine settings options cpu options.loadAddress
        | .error error => fail error.message

def execute (settings : Settings) : Command → Session
  | .assemble name dest => assemble name dest
  | .check name symbols => check name symbols
  | .run options => run settings options

/-- The session for a command line and an environment. A command line that cannot be understood
ends with code 2, a breakdown with a code of its own, and anything else that goes wrong with code
1. -/
def start (texts : List String) (environment : String → Option String) : Session :=
  match Invocation.parse texts with
  | .showVersion => print versionText (finish 0)
  | .showHelp topic => print topic.text (finish 0)
  | .refuse error => complain ("error: " ++ error.message ++ "\n") (finish 2)
  | .execute command =>
    tell (Settings.events environment) (execute (.ofEnvironment environment) command)

end Session

end EightBit
