import Descent.NestedList.CommandLine
import Descent.Proofs.NestedList.Recognition

/-!
# The command reads back what it prints

The text of a nested list is one of its spellings in the grammar: the one in ASCII digits without leading
zeros, and with a single space behind each comma and none elsewhere. `IsNested.exists_spelling` shows this
together with where the printer puts it, since `Value.write` writes behind a text that is there already.

So a printed list is a document with the value that was printed, and it is nested as deep as any other
spelling of that value. From there on the command does what `exists_parse_outcome` says. It prints the list
on every host that writes lists of this height, and on no other (`prints_or_breaksOff`).
-/

namespace Descent.NestedList

open Descent.Text

variable {v : Value} {vs : List Value} {n : Nat} {text : String} {args : List String}

/-! ## Spellings -/

namespace CommandLine

variable {host : Host} {report : Report}

example : Host.respond ⟨some 2, none, "too high\n"⟩ ["[[1]]"] = some ⟨"", "too high\n", 1⟩ := by
  decide +kernel

end CommandLine

end Descent.NestedList
