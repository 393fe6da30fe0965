import Descent.Value

/-!
# The text of a value

Lists stand in brackets and tuples in parentheses, items are separated by a comma and a space, and a
tuple of one item keeps a trailing comma.

A text is shown between single quotes, or between double quotes when it holds a single quote and no
double one. Inside, the backslash and the quote in use are escaped, line breaks and tabs have their
letters, and the other control characters of ASCII are written as two hexadecimal digits.
-/

namespace Descent.Text.Quoted

/-- The quote for a text: the double one only where that saves an escape. -/
def quoteFor (text : List Char) : Char :=
  if text.contains '\'' && !text.contains '"' then '"' else '\''

def escape (q c : Char) : List Char :=
  if c = q ∨ c = '\\' then ['\\', c]
  else if c = '\n' then ['\\', 'n']
  else if c = '\r' then ['\\', 'r']
  else if c = '\t' then ['\\', 't']
  else if c.toNat < 0x20 ∨ c.toNat = 0x7f then
    ['\\', 'x', Nat.digitChar (c.toNat / 16), Nat.digitChar (c.toNat % 16)]
  else [c]

def quote (text : String) : String :=
  let q := quoteFor text.toList
  String.ofList (q :: text.toList.flatMap (escape q) ++ [q])

end Descent.Text.Quoted

namespace Descent.Value

mutual

def write (out : String) : Value → String
  | unit => out ++ "None"
  | bool true => out ++ "True"
  | bool false => out ++ "False"
  | int n => out ++ toString n
  | str text => out ++ Text.Quoted.quote text
  | list items => writeItems (out ++ "[") items ++ "]"
  | tuple [v] => write (out ++ "(") v ++ ",)"
  | tuple items => writeItems (out ++ "(") items ++ ")"

def writeItems (out : String) : List Value → String
  | [] => out
  | v :: vs => writeTail (write out v) vs

/-- Writes the items that follow the first one, each after its separator. -/
def writeTail (out : String) : List Value → String
  | [] => out
  | v :: vs => writeTail (write (out ++ ", ") v) vs

end

def render (v : Value) : String := write "" v

mutual

/-- How many values are being written at once, one inside the other. -/
def height : Value → Nat
  | list items => heightAmong items + 1
  | tuple items => heightAmong items + 1
  | unit | bool _ | int _ | str _ => 1

def heightAmong : List Value → Nat
  | [] => 0
  | v :: vs => max (height v) (heightAmong vs)

end

end Descent.Value
