import EightBit.Settings

/-!
The command line. Arguments are read from left to right, and the first thing that is wrong with
them ends the reading, as does a wish for help.
-/
namespace EightBit

inductive UsageError where
  | commandMissing
  | unknownCommand (text : String)
  | unknownArgument (text : String)
  | unexpectedValue (name : String)
  | valueMissing (name : String)
  | invalidValue (name value : String)
  | repeated (name : String)
  | argumentMissing
  deriving DecidableEq

def UsageError.message : UsageError → String
  | commandMissing => "a command is required"
  | unknownCommand text => "unrecognized command '" ++ text ++ "'"
  | unknownArgument text => "unexpected argument '" ++ text ++ "' found"
  | unexpectedValue name => "no value is expected for '--" ++ name ++ "'"
  | valueMissing name => "a value is required for '--" ++ name ++ "'"
  | invalidValue name value => "invalid value '" ++ value ++ "' for '" ++ name ++ "'"
  | repeated name => "the argument '--" ++ name ++ "' cannot be used multiple times"
  | argumentMissing => "a required argument was not provided"

structure CommandOption where
  long : String
  short : Option Char
  accepts : Option (String → Bool)

structure Signature where
  positionals : Nat
  options : List CommandOption

structure Arguments where
  positionals : List String
  options : List (String × String)

inductive Interruption where
  | help
  | wrong (error : UsageError)
  deriving DecidableEq

namespace Arguments

def empty : Arguments := ⟨[], []⟩

def addOption (arguments : Arguments) (option : CommandOption) (value : String) :
    Except Interruption Arguments :=
  if (arguments.options.lookup option.long).isSome then .error (.wrong (.repeated option.long))
  else if option.accepts.all (· value) then
    .ok { arguments with options := arguments.options ++ [(option.long, value)] }
  else .error (.wrong (.invalidValue option.long value))

def addPositional (signature : Signature) (arguments : Arguments) (value : String) :
    Except Interruption Arguments :=
  if signature.positionals ≤ arguments.positionals.length then
    .error (.wrong (.unknownArgument value))
  else if value.isEmpty then .error (.wrong (.invalidValue "path" value))
  else .ok { arguments with positionals := arguments.positionals ++ [value] }

/-- An option after two dashes, with its value after an equals sign or none. The option that still
wants its value is handed on. -/
def addLong (signature : Signature) (arguments : Arguments) (text : List Char) :
    Except Interruption (Arguments × Option CommandOption) :=
  let name := String.ofList (text.takeWhile (· ≠ '='))
  let value := match text.dropWhile (· ≠ '=') with
    | [] => none
    | _ :: value => some (String.ofList value)
  match signature.options.find? (·.long = name), value with
  | some option, none =>
    if option.accepts.isSome then .ok (arguments, some option)
    else (arguments.addOption option "").map (·, none)
  | some option, some value =>
    if option.accepts.isSome then (arguments.addOption option value).map (·, none)
    else .error (.wrong (.unexpectedValue name))
  | none, none =>
    .error (if name = "help" then .help else .wrong (.unknownArgument ("--" ++ name)))
  | none, some _ => .error (.wrong (.unknownArgument ("--" ++ name)))

def addShort (signature : Signature) (arguments : Arguments) :
    List Char → Except Interruption (Arguments × Option CommandOption)
  | [] => .ok (arguments, none)
  | letter :: rest =>
    match signature.options.find? (·.short = some letter) with
    | none =>
      .error (if letter = 'h' then .help
        else .wrong (.unknownArgument ("-" ++ String.singleton letter)))
    | some option =>
      if option.accepts.isNone then
        match arguments.addOption option "" with
        | .ok arguments => addShort signature arguments rest
        | .error interruption => .error interruption
      else match rest with
        | [] => .ok (arguments, some option)
        | '=' :: value => (arguments.addOption option (String.ofList value)).map (·, none)
        | value => (arguments.addOption option (String.ofList value)).map (·, none)

def looksLikeOption (text : List Char) : Bool :=
  match text with
  | '-' :: _ :: _ => true
  | _ => false

/-- Reads arguments. After two dashes alone, all others are positional; an option that waits for
its value takes no argument that looks like an option. -/
def read (signature : Signature) (onlyPositional : Bool) (waiting : Option CommandOption)
    (arguments : Arguments) : List String → Except Interruption Arguments
  | [] =>
    match waiting with
    | some option => .error (.wrong (.valueMissing option.long))
    | none => .ok arguments
  | text :: rest =>
    match waiting with
    | some option =>
      if looksLikeOption text.toList then .error (.wrong (.valueMissing option.long))
      else match arguments.addOption option text with
        | .ok arguments => read signature onlyPositional none arguments rest
        | .error interruption => .error interruption
    | none =>
      if onlyPositional ∨ ¬ looksLikeOption text.toList then
        match arguments.addPositional signature text with
        | .ok arguments => read signature onlyPositional none arguments rest
        | .error interruption => .error interruption
      else if text = "--" then read signature true none arguments rest
      else
        match (match text.toList with
          | '-' :: '-' :: long => arguments.addLong signature long
          | short => arguments.addShort signature short.tail) with
        | .ok (arguments, waiting) => read signature onlyPositional waiting arguments rest
        | .error interruption => .error interruption

def has (arguments : Arguments) (name : String) : Bool :=
  (arguments.options.lookup name).isSome

end Arguments

/-- An address in decimal, or in hexadecimal after `$` or `0x`. -/
def readAddress (text : String) : Option UInt16 :=
  let number := match text.toList with
    | '$' :: digits => Text.readNumber 16 0xFFFF digits
    | '0' :: 'x' :: digits => Text.readNumber 16 0xFFFF digits
    | digits => Text.readNumber 10 0xFFFF digits
  number.map UInt16.ofNat

def readLimit (text : String) : Option Nat := Text.readNumber 10 Settings.greatestSteps text.toList

structure RunOptions where
  name : String
  loadAddress : UInt16
  start : Option UInt16
  maxSteps : Option Nat
  minimal : Bool
  screen : Bool
  deriving DecidableEq

inductive Command where
  | assemble (name dest : String)
  | check (name : String) (symbols : Bool)
  | run (options : RunOptions)
  deriving DecidableEq

inductive CommandName where
  | assemble
  | check
  | run
  deriving DecidableEq

namespace CommandName

def ofString? : String → Option CommandName
  | "assemble" => some assemble
  | "check" => some check
  | "run" => some run
  | _ => none

def signature : CommandName → Signature
  | assemble => ⟨2, []⟩
  | check => ⟨1, [⟨"symbols", some 's', none⟩]⟩
  | run => ⟨1,
    [⟨"load-address", some 'l', some fun text => (readAddress text).isSome⟩,
     ⟨"start", some 's', some fun text => (readAddress text).isSome⟩,
     ⟨"max-steps", none, some fun text => (readLimit text).isSome⟩,
     ⟨"minimal", some 'm', none⟩,
     ⟨"screen", none, none⟩]⟩

def command (name : CommandName) (arguments : Arguments) : Except Interruption Command :=
  match name, arguments.positionals with
  | assemble, [source, dest] => .ok (.assemble source dest)
  | check, [source] => .ok (.check source (arguments.has "symbols"))
  | run, [source] =>
    .ok (.run
      { name := source
        loadAddress := ((arguments.options.lookup "load-address").bind readAddress).getD 0
        start := (arguments.options.lookup "start").bind readAddress
        maxSteps := (arguments.options.lookup "max-steps").bind readLimit
        minimal := arguments.has "minimal"
        screen := arguments.has "screen" })
  | _, _ => .error (.wrong .argumentMissing)

end CommandName

inductive HelpTopic where
  | program
  | command (name : CommandName)
  | help
  deriving DecidableEq

def HelpTopic.ofString? : String → Option HelpTopic
  | "help" => some help
  | text => (CommandName.ofString? text).map command

inductive Invocation where
  | execute (command : Command)
  | showVersion
  | showHelp (topic : HelpTopic)
  | refuse (error : UsageError)
  deriving DecidableEq

namespace Invocation

def ofCommand (name : CommandName) (texts : List String) : Invocation :=
  match (Arguments.read name.signature false none .empty texts).bind name.command with
  | .ok command => execute command
  | .error .help => showHelp (.command name)
  | .error (.wrong error) => refuse error

def ofHelp : List String → Invocation
  | [] => showHelp .program
  | topic :: rest =>
    match HelpTopic.ofString? topic, rest with
    | some topic, [] => showHelp topic
    | some _, extra :: _ => refuse (.unknownCommand extra)
    | none, _ => refuse (.unknownCommand topic)

def parse : List String → Invocation
  | [] => refuse .commandMissing
  | first :: rest =>
    match CommandName.ofString? first, first.toList with
    | some name, _ => ofCommand name rest
    | none, '-' :: 'h' :: _ => showHelp .program
    | none, '-' :: 'V' :: _ => showVersion
    | none, '-' :: '-' :: name =>
      if name = "help".toList then showHelp .program
      else if name = "version".toList then showVersion
      else refuse (.unknownArgument first)
    | none, '-' :: _ => refuse (.unknownArgument first)
    | none, _ => if first = "help" then ofHelp rest else refuse (.unknownCommand first)

end Invocation

end EightBit
