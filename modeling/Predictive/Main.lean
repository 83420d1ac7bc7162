import Predictive.CommandLine

/-! The program: it reads what the command line asks for and prints the outcome. -/

namespace Predictive.CommandLine

def readSource (s : Source) : IO (Option String) := do
  try
    match s with
    | .file path => return some (← IO.FS.readFile path)
    | .standardInput => return some (← (← IO.getStdin).readToEnd)
  catch _ => return none

end Predictive.CommandLine

open Predictive.CommandLine in
def main (arguments : List String) : IO UInt32 := do
  match ← execute readSource arguments with
  | some outcome =>
    IO.print outcome.standardOutput
    IO.eprint outcome.standardError
    return outcome.exitCode.toUInt32
  | none => return 1
