import Descent.NestedList

/-!
# The command line of nested lists

The first argument is read as a nested list and printed as it was understood; without one, an example
is read. The switch `-v`, anywhere and any number of times, sends the log to the error stream.

A value is written out by recursion, so a high one takes much of the stack. While a parse is under way its
messages have the room that the parse has. Its last message and the answer are written when it is over, with
the room that the host leaves to any command, and a command that has not enough of it is broken off: it
prints nothing and exits with 1, and the error stream ends in what the host says about it.
-/

namespace Descent.NestedList.CommandLine

/-- What the command writes and the code it exits with. -/
structure Report where
  stdout : String
  stderr : String
  exit : UInt32
  deriving DecidableEq

/-- What a host does about values that are too high to be written; without a bound it writes them all. -/
structure Host where
  /-- the height of a value in the answer -/
  answerRoom : Option Nat := none
  /-- the height of a value in the last message of the log -/
  messageRoom : Option Nat := none
  /-- what is said of a command that is broken off -/
  complaint : String := ""

def fits (room : Option Nat) (v : Value) : Bool := room.all (v.height ≤ ·)

def verboseSwitch : String := "-v"

def defaultText : String := "[1, [2, 3], []]"

def textOf (args : List String) : String :=
  (args.filter (· ≠ verboseSwitch)).headD defaultText

def logLines (log : Log) : String :=
  String.join (log.map fun e => "DEBUG:miniparsec:" ++ e.message ++ "\n")

namespace Host

/-- A command that is broken off after it wrote to the error stream. -/
def breakOff (host : Host) (written : String) : Report := ⟨"", written ++ host.complaint, 1⟩

def answer (host : Host) (v : Value) (written : String) : Report :=
  if fits host.answerRoom v then ⟨v.render ++ "\n", written, 0⟩ else host.breakOff written

/-- The report on a parse, with or without its log. -/
def conclude (host : Host) (verbose : Bool) (log : Log) : Outcome → Report
  | .ok v =>
    if verbose then
      if fits host.messageRoom v then host.answer v (logLines log)
      else host.breakOff (logLines log.dropLast)
    else host.answer v ""
  | .err e => ⟨"Parsing Failed: " ++ e.message ++ "\n", if verbose then logLines log else "", 1⟩

/-- What the command does with its arguments. It has no answer only if the parse has none. -/
def respond (host : Host) (args : List String) : Option Report :=
  let parsed := parse (textOf args)
  parsed.result?.map (host.conclude (args.contains verboseSwitch) parsed.log)

end Host

/-- What the command does where no value is too high. -/
def respond (args : List String) : Option Report := Host.respond {} args

end Descent.NestedList.CommandLine
