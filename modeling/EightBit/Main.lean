import EightBit.Session

open EightBit

def showEvent (event : Event) : IO Unit :=
  match event.severity with
  | .error | .warning | .trace => IO.eprintln (event.severity.name ++ " " ++ event.message)
  | .debug => pure ()

def perform : Session → IO UInt32
  | .finish code => pure (UInt32.ofNat code)
  | .print text next => do
    IO.print text
    perform next
  | .complain text next => do
    IO.eprint text
    perform next
  | .tell events next => do
    events.forM showEvent
    perform next
  | .read path next => do
    let content ← (some <$> IO.FS.readBinFile path).catchExceptions fun _ => pure none
    perform (next content)
  | .write path bytes next => do
    let written ← (IO.FS.writeBinFile path ⟨bytes.toArray⟩ *> pure true).catchExceptions
      fun _ => pure false
    perform (next written)

def main (arguments : List String) : IO UInt32 := do
  let steps ← IO.getEnv Settings.stepsVariable
  let trace ← IO.getEnv Settings.traceVariable
  let environment (name : String) : Option String :=
    if name = Settings.stepsVariable then steps
    else if name = Settings.traceVariable then trace
    else none
  perform (Session.start arguments environment)
