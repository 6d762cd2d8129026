import Multiparty.CommandLine
import Multiparty.Config.File

/-!
# The trial program

Runs a trial with the parameters of the command line and writes one line for each event.
-/

open Multiparty

/-- The line that reports an event. -/
def eventLine (e : Trial.Event) : String :=
  (if e.isError then "ERROR " else "INFO ") ++ e.message ++
    String.join (e.particulars.map fun (name, value) => " " ++ name ++ "=" ++ value)

/-- Loads the configuration file, if one is named. -/
def loadConfig (path : Option String) : IO (Except String ProtocolConfig) := do
  match path with
  | none => pure (.ok {})
  | some path =>
    try
      let bytes ← IO.FS.readBinFile path
      match ProtocolConfig.parse bytes.toList with
      | .ok config => pure (.ok config)
      | .error _ => pure (.error "malformed configuration")
    catch e => pure (.error (toString e))

/-- Runs the program; the exit code is zero if the trial has succeeded. -/
def main (args : List String) : IO UInt32 := do
  match CommandLine.parse args with
  | .error e =>
    IO.eprintln e.message
    pure 1
  | .ok .help =>
    IO.print CommandLine.helpText
    pure 0
  | .ok (.run arguments) =>
    match ← loadConfig arguments.config with
    | .error e =>
      IO.eprintln ("Error: " ++ e)
      pure 1
    | .ok config =>
      let (events, outcome) := Trial.run arguments.settings config
      for e in events do
        IO.println (eventLine e)
      match outcome with
      | .ok () => pure 0
      | .error e =>
        IO.eprintln ("Error: " ++ e.message.getD "too large")
        pure 1
