import Descent.Text.CharClass
import Descent.Value

/-!
# Operations on values

The functions that a parser may apply to what it has read. Each is meant for values of one shape and
leaves every other value as it is, so that all of them are total. A truth value is not an integer.
-/

namespace Descent.Value

/-! ## Views -/

def asText? : Value → Option String
  | str s => some s
  | _ => none

def asInt? : Value → Option Int
  | int n => some n
  | _ => none

def joined? : Value → Option String
  | list vs => (vs.mapM asText?).map String.join
  | _ => none

theorem mapM_asText?_ofChar (cs : List Char) :
    (cs.map ofChar).mapM asText? = some (cs.map String.singleton) := by
  induction cs with
  | nil => rfl
  | cons c cs ih => simp [List.mapM_cons, ih, asText?, ofChar]

theorem joined?_ofChar (cs : List Char) :
    joined? (list (cs.map ofChar)) = some (String.ofList cs) := by
  have hjoin : String.join (cs.map String.singleton) = String.ofList cs := by
    apply String.toList_injective
    simp [String.toList_join, List.flatMap_map]
  rw [joined?, mapM_asText?_ofChar, Option.map_some, hjoin]

def ints? : Value → Option (List Int)
  | list vs => vs.mapM asInt?
  | _ => none

/-! ## Integers -/

def increment : Value → Value
  | int n => int (n + 1)
  | v => v

def negate : Value → Value
  | int n => int (-n)
  | v => v

def sum (v : Value) : Value :=
  match ints? v with
  | some ns => int (ns.foldl (· + ·) 0)
  | none => v

/-- One more than the largest of a list of integers, and 1 for the empty list. -/
def depth (v : Value) : Value :=
  match ints? v with
  | some [] => int 1
  | some (n :: ns) => int (1 + ns.foldl max n)
  | none => v

theorem ints?_int (ns : List Int) : ints? (list (ns.map int)) = some ns := by
  rw [ints?]
  induction ns with
  | nil => rfl
  | cons n ns ih => simp [List.mapM_cons, ih, asInt?]

theorem foldl_max_natCast (n : Nat) (ns : List Nat) :
    (ns.map fun m : Nat => (m : Int)).foldl max (n : Int) = (max n (ns.foldr max 0) : Nat) := by
  induction ns generalizing n with
  | nil => simp
  | cons m ns ih =>
    have hmax : max (n : Int) m = (max n m : Nat) := by omega
    rw [List.map_cons, List.foldl_cons, List.foldr_cons, hmax, ih, Nat.max_assoc]

theorem depth_int (ns : List Nat) :
    depth (list (ns.map fun n : Nat => int n)) = int (1 + ns.foldr max 0 : Nat) := by
  have hints : ints? (list (ns.map fun n : Nat => int n)) = some (ns.map fun n : Nat => (n : Int)) := by
    rw [← ints?_int, List.map_map]
    rfl
  rw [depth, hints]
  cases ns with
  | nil => rfl
  | cons n ns =>
    simp only [List.map_cons, foldl_max_natCast, List.foldr_cons]
    rfl

/-- One step of a calculation: an operator and its right operand. A sign that is neither plus nor
minus multiplies. -/
def calculate (n : Int) (sign : String) (m : Int) : Int :=
  if sign = "+" then n + m else if sign = "-" then n - m else n * m

def asStep? : Value → Option (String × Int)
  | tuple [str sign, int m] => some (sign, m)
  | _ => none

/-- Works through a calculation from the left: a first operand and a list of steps. -/
def arithmetic : Value → Value
  | tuple [int n, list steps] =>
    match steps.mapM asStep? with
    | some pairs => int (pairs.foldl (fun acc step => calculate acc step.1 step.2) n)
    | none => tuple [int n, list steps]
  | v => v

/-! ## Texts and sequences -/

/-- Twice an integer, or a text or list repeated. -/
def double : Value → Value
  | int n => int (n * 2)
  | str s => str (s ++ s)
  | list vs => list (vs ++ vs)
  | v => v

def length : Value → Value
  | str s => int s.length
  | list vs => int vs.length
  | tuple vs => int vs.length
  | v => v

def join (v : Value) : Value :=
  match joined? v with
  | some s => str s
  | none => v

def chars? (v : Value) : Option (List Char) := (asText? v <|> joined? v).map String.toList

/-- The integer that the characters denote in base ten, in digits of any script. -/
def toInteger (v : Value) : Value :=
  match (chars? v).bind Text.Numeral.read? with
  | some n => int n
  | none => v

/-- As `toInteger`, in the digits of ASCII only. -/
def toNumber (v : Value) : Value :=
  if (chars? v).any (·.all Char.isDigit) then toInteger v else v

theorem toInteger_ofChar {digits : List Char} (h : Text.Numeral.isNumeral digits) :
    toInteger (list (digits.map ofChar)) = int (Text.Numeral.value digits) := by
  unfold toInteger chars?
  rw [joined?_ofChar]
  simp [asText?, Text.Numeral.read?, h]

def upper : Value → Value
  | str s => str (s.map Char.toUpper)
  | v => v

def reverse : Value → Value
  | str s => str (String.ofList s.toList.reverse)
  | list vs => list vs.reverse
  | v => v

/-! ## Pairs and lists -/

def first : Value → Value
  | tuple [v, _] => v
  | v => v

def second : Value → Value
  | tuple [_, w] => w
  | v => v

def singleton (v : Value) : Value := list [v]

def consPair : Value → Value
  | tuple [v, list vs] => list (v :: vs)
  | v => v

end Descent.Value
