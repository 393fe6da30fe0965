import Descent.Outcome

/-!
# Parsers

A parser is a tree of combinators. What follows a value is given as a function of that value, so a
grammar may depend on what has been read; recursion goes through named rules, which a `Grammar`
explains. The meaning of a parser is `Descent.eval`. Single characters, sequences, choices among many and
the other repetitions are combinations of these.
-/

namespace Descent

inductive Parser where
  /-- Succeeds with a value and reads nothing. -/
  | succeed (v : Value)
  /-- Fails and reads nothing. -/
  | fail (reason : Expected)
  /-- Reads one character. -/
  | anyChar
  /-- Succeeds at the end of the source, and steps beyond it. -/
  | endOfInput
  /-- Reads a given text. -/
  | text (expected : String)
  /-- Goes on with the parser for the value of `p`; a failure of `p` itself reads nothing. -/
  | bind (p : Parser) (f : Value → Parser)
  /-- Tries `q` if `p` failed without reading. -/
  | orElse (p q : Parser)
  /-- A failure reads nothing. -/
  | attempt (p : Parser)
  /-- Gives the reason for failures that read nothing. -/
  | label (reason : Expected) (p : Parser)
  /-- Repeats `p` until it fails. -/
  | many (p : Parser)
  /-- Repeats `p` with `sep` between, at least once. -/
  | sepBy1 (p sep : Parser)
  /-- Logs how `p` starts and replies. -/
  | trace (name : String) (p : Parser)
  /-- The parser that the grammar has under a name. -/
  | rule (name : String)
  /-- The outcome of a run of `p` over another text; reads nothing. -/
  | subrun (p : Parser) (source : Source)

abbrev Grammar := String → Parser

/-- The grammar of a list of rules; of two rules with one name the first counts. -/
def Grammar.ofList (rules : List (String × Parser)) : Grammar := fun name =>
  (rules.lookup name).getD (.fail (.named ("the rule " ++ name)))

namespace Parser

/-! ## Single characters

A character is read before it is looked at, so a parser that rejects a character has moved past it. -/

def char (c : Char) : Parser := anyChar.bind fun v =>
  if v.char? = some c then succeed .unit else fail (.theChar c)

def satisfy (pred : Char → Bool) : Parser := anyChar.bind fun v =>
  if v.char?.any pred then succeed v else fail .satisfying

/-! ## Sequences

`map` and its kin turn a failure of their operand into one that reads nothing, as every `bind` does. Of two
parsers in sequence, `seqRight` alone reports a failure of the second one where the second one reports it;
`seqLeft` and `both` report it where the second one began. -/

def map (f : Value → Value) (p : Parser) : Parser := p.bind fun v => succeed (f v)

def replace (w : Value) (p : Parser) : Parser := p.map fun _ => w

def discard (p : Parser) : Parser := p.replace .unit

/-- Reads `p`, then `q`, and keeps the value of `q`. -/
def seqRight (p q : Parser) : Parser := p.bind fun _ => q

/-- Reads `p`, then `q`, and keeps the value of `p`. -/
def seqLeft (p q : Parser) : Parser := p.bind fun v => q.bind fun _ => succeed v

/-- Reads `p`, then `q`, and keeps both values. -/
def both (p q : Parser) : Parser := p.bind fun v => q.bind fun w => succeed (.tuple [v, w])

/-! ## Choice -/

/-- The first of the parsers that does not fail without reading. -/
def oneOf (ps : List Parser) : Parser := ps.foldr orElse (fail .alternative)

@[simp] theorem oneOf_nil : oneOf [] = fail .alternative := rfl

@[simp] theorem oneOf_cons (p : Parser) (ps : List Parser) :
    oneOf (p :: ps) = p.orElse (oneOf ps) := rfl

/-! ## Repetitions -/

def many1 (p : Parser) : Parser := p.bind fun v => (many p).map (Value.cons v)

def sepBy (p sep : Parser) : Parser := oneOf [sepBy1 p sep, succeed (.list [])]

def count : Nat → Parser → Parser
  | 0, _ => succeed (.list [])
  | n + 1, p => p.bind fun v => (count n p).map (Value.cons v)

end Parser

end Descent
