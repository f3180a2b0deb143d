import Comprehension.CommandLine.Invocation

/-!
# The program

The standard input is read only where the response depends on it, and not from a terminal.
-/

open Comprehension.CommandLine

/-- Answers the arguments of the program. -/
def main (arguments : List String) : IO UInt32 := do
  let invocation := Invocation.ofArguments arguments
  let stdin ← IO.getStdin
  let input? ←
    if invocation.readsInput && !(← stdin.isTty) then some <$> stdin.readToEnd else pure none
  let response := invocation.respond input?
  IO.print response.output
  IO.eprint response.errors
  return UInt32.ofNat response.exitCode
