import EightBit.Event

namespace EightBit

structure Settings where
  tracing : Bool
  maxSteps : Nat
  deriving DecidableEq

inductive SettingsError where
  | notInitialized
  | initializedTwice
  deriving DecidableEq

def SettingsError.message : SettingsError → String
  | notInitialized => "tried to access environment state before initialization"
  | initializedTwice => "tried to initialize environment state multiple times"

namespace Settings

def defaultMaxSteps : Nat := 1000000

def stepsVariable : String := "RASM8_MAX_STEPS"

def traceVariable : String := "RASM8_TRACE"

def greatestSteps : Nat := 0xFFFFFFFFFFFFFFFF

def readSteps (text : String) : Option Nat :=
  Text.readNumber 10 greatestSteps (Text.trim text.toList)

def ofEnvironment (environment : String → Option String) : Settings where
  tracing := environment traceVariable = some "1"
  maxSteps := ((environment stepsVariable).bind readSteps).getD defaultMaxSteps

def events (environment : String → Option String) : List Event :=
  match environment stepsVariable with
  | none => []
  | some text => if (readSteps text).isNone then [.stepLimitIgnored text] else []

/-- Fills the place where settings are kept; it can be filled once. -/
def fill (kept : Option Settings) (settings : Settings) :
    Except SettingsError (Option Settings) :=
  match kept with
  | none => .ok (some settings)
  | some _ => .error .initializedTwice

def get (kept : Option Settings) : Except SettingsError Settings :=
  match kept with
  | none => .error .notInitialized
  | some settings => .ok settings

end Settings

end EightBit
