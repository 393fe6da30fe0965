import Descent.Eval
import Descent.Value.Operations

/-!
# Nested lists

The grammar of nested lists of numbers, such as `[1, [2, 3], []]`. Spaces may stand before the
document, and after every number, bracket and comma. A number may have leading zeros, and decimal digits of
any script; characters that count without being decimal digits, such as superscripts, are part of none.
Lists are traced under the name `list`.
-/

namespace Descent.NestedList

open Descent.Parser

def spaces : Parser := many (char ' ')

def lexeme (p : Parser) : Parser := p.seqLeft spaces

def number : Parser := (lexeme (many1 (satisfy Text.isDecimal))).map Value.toInteger

def comma : Parser := lexeme (char ',')

def list : Parser :=
  trace "list" ((lexeme (char '[')).seqRight (sepBy (rule "value") comma)
    |>.seqLeft (lexeme (char ']')))

def value : Parser := oneOf [number, list]

def grammar : Grammar := .ofList [("value", value)]

/-- A value with nothing but spaces around it. -/
def document : Parser := (spaces.seqRight (rule "value")).seqLeft endOfInput

def parse (text : String) : Evaluation Outcome := run grammar document text

end Descent.NestedList
