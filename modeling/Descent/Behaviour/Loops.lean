import Descent.Behaviour

/-!
# Loops

`Behaviour.many p` repeats `p` until it fails and then stands where that last attempt began, so it
reports no failure of `p`. A success of `p` that goes nowhere, or that begins beyond the end, would
repeat for ever; it is reported as a failure. Every other round moves on within the source or steps
beyond its end, hence `State.rounds` is enough of them.

A separated list is read as a chain of links, each an item and the separator after it, and one last
item. A separator that fails ends the list before itself, whatever it read. A separator that succeeds
has to be followed by an item: if that item fails, the failure goes back through the links, the latest
first, and the first link whose separator read nothing ends the list there; past all links the failure
stands after the first separator.
-/

namespace Descent

/-- The number of rounds that a loop can begin from `s` when each moves forward: one for each character
left, one at the end and one beyond it. -/
def State.rounds (s : State) : Nat := (s.source.size - s.position).toNat + 2

/-! ## Repetition -/

namespace Behaviour

/-- Where a repetition stands, and the values read so far, the latest first. -/
structure Progress where
  current : State
  values : List Value

@[inline] def manyRound (p : Behaviour) (now : Progress) :
    Evaluation (Evaluation.Round Progress Reply) :=
  p now.current >>= fun
    | ⟨_, .err _⟩ => pure (.done ⟨now.current, .ok (.list now.values.reverse)⟩)
    | ⟨next, .ok v⟩ =>
      if next.position = now.current.position ∨ now.current.source.size < now.current.position then
        pure (.done ⟨now.current, .err .progress⟩)
      else pure (.again ⟨next, v :: now.values⟩)

def many (p : Behaviour) : Behaviour := fun s =>
  Evaluation.iterate (manyRound p) s.rounds ⟨s, []⟩

end Behaviour

/-! ## Separated lists -/

/-- An item and the separator after it, with the states on both sides of the separator. -/
structure Link where
  item : Value
  before : State
  after : State

namespace Link

def items (chain : List Link) : List Value := (chain.map (·.item)).reverse

/-- What becomes of a chain when no item follows its latest link. -/
def unwind (e : Expected) (latest : Link) : List Link → Reply
  | [] =>
    if latest.after.position = latest.before.position then
      ⟨latest.before, .ok (.list (items [latest]))⟩
    else ⟨latest.after, .err e⟩
  | earlier :: chain =>
    if latest.after.position = latest.before.position then
      ⟨latest.before, .ok (.list (items (latest :: earlier :: chain)))⟩
    else unwind e earlier chain

end Link

namespace Behaviour

/-- Where a separated list stands: after its last item so far, with the links before that item. -/
structure Chain where
  current : State
  last : Value
  links : List Link

@[inline] def sepByRound (p sep : Behaviour) (c : Chain) :
    Evaluation (Evaluation.Round Chain Reply) :=
  sep c.current >>= fun
    | ⟨_, .err _⟩ => pure (.done ⟨c.current, .ok (.list (Link.items c.links ++ [c.last]))⟩)
    | ⟨after, .ok _⟩ =>
      let link : Link := ⟨c.last, c.current, after⟩
      p after >>= fun
        | ⟨_, .err e⟩ => pure (.done (link.unwind e c.links))
        | ⟨next, .ok v⟩ =>
          if next.position = c.current.position then
            pure (.done ⟨c.current, .err .separatedProgress⟩)
          else pure (.again ⟨next, v, link :: c.links⟩)

/-- One or more `p` with `sep` between. A round that begins beyond the end and succeeds does so again
for ever: nothing it can see has changed. -/
def sepBy1 (p sep : Behaviour) : Behaviour :=
  p.bind fun v s => Evaluation.iterate (sepByRound p sep) s.rounds ⟨s, v, []⟩

end Behaviour

end Descent
