/-
# The program

Runs the command line and passes its outcome on.
-/
import BitCircuit.CommandLine

/-- Prints what the command line returns and ends with its code. -/
def main (args : List String) : IO UInt32 := do
  let outcome := BitCircuit.CommandLine.run args
  (← IO.getStdout).putStr outcome.stdout
  (← IO.getStderr).putStr outcome.stderr
  return outcome.exitCode.toUInt32
