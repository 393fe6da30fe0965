import Descent.Value.Printer

/-!
# States

A parser starts from a state and ends in one: a place in a source text. The position is any integer.
Before the start and beyond the end there is no character; a position before the start is not at the
end, and every position beyond the last character is.
-/

namespace Descent

/-- A text under parse, its characters by position. -/
abbrev Source := Array Char

namespace Source

def ofString (text : String) : Source := text.toList.toArray

def text (source : Source) : String := String.ofList source.toList

def charAt? (source : Source) (index : Int) : Option Char :=
  if index < 0 then none else source[index.toNat]?

end Source

structure State where
  position : Int
  source : Source
  deriving DecidableEq

namespace State

def start (source : Source) : State := ⟨0, source⟩

/-- The same source, `n` characters further on. -/
def advance (s : State) (n : Int) : State := { s with position := s.position + n }

def atEnd (s : State) : Bool := s.source.size ≤ s.position

def peek? (s : State) : Option Char := s.source.charAt? s.position

def describe (s : State) : String := s!"offset {s.position} of {s.source.size}"

def render (s : State) : String :=
  s!"State(position={s.position}, source={Text.Quoted.quote s.source.text})"

@[simp] theorem advance_source (s : State) (n : Int) : (s.advance n).source = s.source := rfl

@[simp] theorem advance_position (s : State) (n : Int) :
    (s.advance n).position = s.position + n := rfl

end State

end Descent
