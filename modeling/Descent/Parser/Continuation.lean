import Descent.Parser
import Descent.Value.Operations

/-!
# Continuations

What a grammar may do with a value once it is read. Each is meant for values of one kind and says what
it does with all others.
-/

namespace Descent

/-- The parser that follows a value. -/
abbrev Continuation := Value → Parser

namespace Continuation

open Descent.Parser

def yield (f : Value → Value) : Continuation := fun v => succeed (f v)

/-- Fails, with the text that was read, or a question mark, in the reason. -/
def reject (reason : String) : Continuation := fun v =>
  fail (.named (reason ++ v.asText?.getD "?"))

def proceed (p : Parser) : Continuation := fun _ => p

def keep (p : Parser) : Continuation := fun v => p.map fun w => .tuple [v, w]

def again : Continuation := fun v => text (v.asText?.getD "")

/-- Reads `p` as many times as the number that was read says: never, unless it is positive. -/
def times (p : Parser) : Continuation := fun v => count (v.asInt?.getD 0).toNat p

/-- Goes on with `yes` after the value `w`, and with `no` after every other one. -/
def ifEqual (w : Value) (yes no : Parser) : Continuation := fun v => if v = w then yes else no

def within (p : Parser) : Continuation := fun v =>
  subrun p (.ofString (v.asText?.getD ""))

end Continuation

end Descent
