import Descent.Behaviour.Loops
import Descent.Parser

/-!
# The meaning of parsers

`eval` gives the behaviour of a parser, within a number of levels of nesting. Each combinator takes one
level for its operands; loops take none for their rounds. With no level left the evaluation is
`tooDeep`, which no combinator recovers from, and only the end of a run turns it into a failure.

A run starts a parser at the beginning of a text and keeps its outcome. It has none only if a separated list
goes on for ever.
-/

namespace Descent

/-- What a parser does, within `depth` levels. -/
def eval (g : Grammar) : (depth : Nat) → Parser → Behaviour
  | 0, _ => fun _ => .tooDeep
  | depth + 1, p => fun s =>
    match p with
    | .succeed v => pure ⟨s, .ok v⟩
    | .fail e => pure ⟨s, .err e⟩
    | .anyChar => pure s.readChar
    | .endOfInput => pure s.readEnd
    | .text expected => pure (s.readText (.str expected) expected.toList)
    | .bind p f => (eval g depth p).bind (fun v => eval g depth (f v)) s
    | .orElse p q => (eval g depth p).orElse (eval g depth q) s
    | .attempt p => (eval g depth p).attempt s
    | .label e p => (eval g depth p).label e s
    | .many p => (eval g depth p).many s
    | .sepBy1 p sep => (eval g depth p).sepBy1 (eval g depth sep) s
    | .trace name p => (eval g depth p).trace name s
    | .rule name => eval g depth (g name) s
    | .subrun p source =>
      (eval g depth p (.start source)).settle source.size >>= fun o => pure ⟨s, o⟩

/-! ## One level of nesting -/

section
variable (g : Grammar) (depth : Nat)

theorem eval_zero (p : Parser) (s : State) : eval g 0 p s = .tooDeep := rfl

theorem eval_succeed (v : Value) (s : State) :
    eval g (depth + 1) (.succeed v) s = pure ⟨s, .ok v⟩ := rfl

theorem eval_fail (e : Expected) (s : State) :
    eval g (depth + 1) (.fail e) s = pure ⟨s, .err e⟩ := rfl

theorem eval_anyChar (s : State) : eval g (depth + 1) .anyChar s = pure s.readChar := rfl

theorem eval_endOfInput (s : State) : eval g (depth + 1) .endOfInput s = pure s.readEnd := rfl

theorem eval_text (expected : String) (s : State) :
    eval g (depth + 1) (.text expected) s =
      pure (s.readText (.str expected) expected.toList) := rfl

theorem eval_bind (p : Parser) (f : Value → Parser) :
    eval g (depth + 1) (.bind p f) = (eval g depth p).bind fun v => eval g depth (f v) := rfl

theorem eval_orElse (p q : Parser) :
    eval g (depth + 1) (.orElse p q) = (eval g depth p).orElse (eval g depth q) := rfl

theorem eval_attempt (p : Parser) : eval g (depth + 1) (.attempt p) = (eval g depth p).attempt := rfl

theorem eval_label (e : Expected) (p : Parser) :
    eval g (depth + 1) (.label e p) = (eval g depth p).label e := rfl

theorem eval_many (p : Parser) : eval g (depth + 1) (.many p) = (eval g depth p).many := rfl

theorem eval_sepBy1 (p sep : Parser) :
    eval g (depth + 1) (.sepBy1 p sep) = (eval g depth p).sepBy1 (eval g depth sep) := rfl

theorem eval_trace (name : String) (p : Parser) :
    eval g (depth + 1) (.trace name p) = (eval g depth p).trace name := rfl

theorem eval_rule (name : String) :
    eval g (depth + 1) (.rule name) = eval g depth (g name) := rfl

theorem eval_subrun (p : Parser) (source : Source) (s : State) :
    eval g (depth + 1) (.subrun p source) s =
      (eval g depth p (.start source)).settle source.size >>= fun o => pure ⟨s, o⟩ := rfl

end

/-! ## Runs -/

def nestingLimit : Nat := 100000

def runWithin (limit : Nat) (g : Grammar) (p : Parser) (source : Source) : Evaluation Outcome :=
  (eval g limit p (.start source)).settle source.size

def run (g : Grammar) (p : Parser) (text : String) : Evaluation Outcome :=
  runWithin nestingLimit g p (.ofString text)

end Descent
