/-!
# Values

Parsers are data here, read from a description, so what they produce has one type for all of them:
nothing, truth values, unbounded integers, texts, lists and tuples. Equality tells a list from a
tuple and a truth value from an integer; `same_eq_true_iff` says that the test for it is exact.
-/

namespace Descent

inductive Value where
  | unit
  | bool (b : Bool)
  | int (n : Int)
  | str (text : String)
  | list (items : List Value)
  | tuple (items : List Value)
  deriving Inhabited

namespace Value

mutual

def same : Value → Value → Bool
  | unit, unit => true
  | bool a, bool b => a == b
  | int m, int n => m == n
  | str s, str t => s == t
  | list vs, list ws => sameItems vs ws
  | tuple vs, tuple ws => sameItems vs ws
  | _, _ => false

def sameItems : List Value → List Value → Bool
  | [], [] => true
  | v :: vs, w :: ws => same v w && sameItems vs ws
  | _, _ => false

end

mutual

theorem same_eq_true_iff : (v w : Value) → (same v w = true ↔ v = w)
  | unit, w => by cases w <;> simp [same]
  | bool _, w => by cases w <;> simp [same]
  | int _, w => by cases w <;> simp [same]
  | str _, w => by cases w <;> simp [same]
  | list vs, w => by
    cases w <;> simp [same]
    exact sameItems_eq_true_iff vs _
  | tuple vs, w => by
    cases w <;> simp [same]
    exact sameItems_eq_true_iff vs _

theorem sameItems_eq_true_iff : (vs ws : List Value) → (sameItems vs ws = true ↔ vs = ws)
  | [], ws => by cases ws <;> simp [sameItems]
  | v :: vs, ws => by
    cases ws with
    | nil => simp [sameItems]
    | cons w ws => simp [sameItems, same_eq_true_iff v w, sameItems_eq_true_iff vs ws]

end

instance : DecidableEq Value := fun v w =>
  decidable_of_iff (same v w = true) (same_eq_true_iff v w)

def ofChar (c : Char) : Value := str (String.singleton c)

def char? : Value → Option Char
  | str s =>
    match s.toList with
    | [c] => some c
    | _ => none
  | _ => none

@[simp] theorem char?_ofChar (c : Char) : char? (ofChar c) = some c := by
  simp [char?, ofChar]

/-- Puts a value in front of a list; anything else is left as it is. -/
def cons (v : Value) : Value → Value
  | list vs => list (v :: vs)
  | w => w

@[simp] theorem cons_list (v : Value) (vs : List Value) : cons v (list vs) = list (v :: vs) := rfl

end Value

end Descent
