import ReplicatedLog.Demonstration

/-!
# The program

Reads the configuration file that the arguments name, runs the demonstration, and writes what it
reports. A number that leaves its word ends the program with the exit code 101.
-/

namespace ReplicatedLog.Demonstration

/-- The contents of the configuration file that the arguments name, if they name one. -/
def readFile (arguments : List String) : IO (Except IoFault ByteArray) := do
  match configPath? arguments with
  | none => return .error .notFound
  | some path =>
    try
      return .ok (← IO.FS.readBinFile path)
    catch
      | .noFileOrDirectory _ _ _ => return .error .notFound
      | failure => return .error (.other (toString failure))

/-- Runs the demonstration and writes what it leaves behind. Gives the exit code. -/
def program (arguments : List String) : IO UInt32 := do
  let contents ← readFile arguments
  match run arguments fun _ => contents with
  | .error _ =>
    IO.eprintln "a number left its word"
    return 101
  | .ok outcome =>
    for line in outcome.output do
      IO.println line.render
    IO.eprint outcome.errorText
    return UInt32.ofNat outcome.exitCode

end ReplicatedLog.Demonstration

/-- Runs the program. -/
def main (arguments : List String) : IO UInt32 := ReplicatedLog.Demonstration.program arguments
