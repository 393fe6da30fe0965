import Descent.NestedList.CommandLine

/-!
# The program

Writes what `CommandLine.respond` answers to the arguments, and exits with its code.
-/

def main (args : List String) : IO UInt32 := do
  match Descent.NestedList.CommandLine.respond args with
  | some report =>
    (← IO.getStderr).putStr report.stderr
    (← IO.getStdout).putStr report.stdout
    return report.exit
  | none => return 1
