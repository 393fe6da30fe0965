import Descent.State
import Descent.Value.Printer

/-!
# Outcomes and replies

A parser replies with the state it finished in and with an outcome: a value, or what was expected
there. What can be expected is one type, and its wording is in one place, `Expected.describe`.
-/

namespace Descent

/-- What was expected where a parser failed. -/
inductive Expected where
  /-- any character -/
  | aChar
  | endOfInput
  | theChar (c : Char)
  /-- a character of the wanted class -/
  | satisfying
  /-- an alternative beyond the last one -/
  | alternative
  /-- progress by the items of a repetition -/
  | progress
  /-- progress by an item and the separator before it -/
  | separatedProgress
  | shallowerNesting
  /-- what the grammar's author names -/
  | named (reason : String)
  deriving DecidableEq

namespace Expected

def describe : Expected → String
  | aChar => "a char"
  | endOfInput => "end of input"
  | theChar c => "the char `" ++ String.singleton c ++ "`"
  | satisfying => "satisfy"
  | alternative => "no match"
  | progress => "many: parser succeeded without consuming input"
  | separatedProgress => "sep_by1: separator and parser consumed no input"
  | shallowerNesting => "shallower nesting"
  | named reason => reason

def message (e : Expected) : String := "expecting " ++ e.describe

end Expected

inductive Outcome where
  | ok (v : Value)
  | err (e : Expected)
  deriving DecidableEq

namespace Outcome

def isOk : Outcome → Bool
  | ok _ => true
  | err _ => false

def toExcept : Outcome → Except Expected Value
  | ok v => .ok v
  | err e => .error e

def render : Outcome → String
  | ok v => "Ok(value=" ++ v.render ++ ")"
  | err e => "Err(error=Expecting(reason=" ++ Text.Quoted.quote e.describe ++ "))"

end Outcome

/-- The state a parser finished in, and how it came out. -/
structure Reply where
  state : State
  outcome : Outcome
  deriving DecidableEq

end Descent
