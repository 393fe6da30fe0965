import Descent.Evaluation

/-!
# Behaviours

What a parser does is a function from the state it starts in. The three ways to read are functions of
the state; each combinator of parsers is one of behaviours. Where a failure is reported, and when
another alternative is tried, is decided here, and only positions are compared for it.
`Evaluation.settle` says what the end of a run makes of the evaluation of its parser.
-/

namespace Descent

/-- What a parser does from each state. -/
abbrev Behaviour := State → Evaluation Reply

namespace State

def readChar (s : State) : Reply :=
  match s.peek? with
  | some c => ⟨s.advance 1, .ok (.ofChar c)⟩
  | none => ⟨s, .err .aChar⟩

def readEnd (s : State) : Reply :=
  if s.atEnd then ⟨s.advance 1, .ok .unit⟩ else ⟨s, .err .endOfInput⟩

/-- Reads the characters of a text and then succeeds with `v`; stops before the first character that
is not the wanted one. -/
def readText (v : Value) : State → List Char → Reply
  | s, [] => ⟨s, .ok v⟩
  | s, c :: rest =>
    match s.peek? with
    | some d => if d = c then readText v (s.advance 1) rest else ⟨s, .err (.theChar c)⟩
    | none => ⟨s, .err .aChar⟩

end State

namespace Behaviour

/-- The reply of `f v` for the value `v` of `p`; a failure of `p` is reported where `p` started. -/
@[inline] def bind (p : Behaviour) (f : Value → Behaviour) : Behaviour := fun s =>
  p s >>= fun
    | ⟨s', .ok v⟩ => f v s'
    | ⟨_, .err e⟩ => pure ⟨s, .err e⟩

/-- The reply of `q` if `p` failed at the position where it started, and else that of `p`. -/
@[inline] def orElse (p q : Behaviour) : Behaviour := fun s =>
  p s >>= fun r =>
    match r.outcome with
    | .ok _ => pure r
    | .err _ => if r.state.position = s.position then q s else pure r

/-- A failure is reported where `p` started. -/
@[inline] def attempt (p : Behaviour) : Behaviour := fun s =>
  p s >>= fun r =>
    match r.outcome with
    | .ok _ => pure r
    | .err e => pure ⟨s, .err e⟩

/-- A failure at the position where `p` started is given another reason. -/
@[inline] def label (reason : Expected) (p : Behaviour) : Behaviour := fun s =>
  p s >>= fun r =>
    match r.outcome with
    | .ok _ => pure r
    | .err _ => if r.state.position = s.position then pure ⟨r.state, .err reason⟩ else pure r

@[inline] def trace (name : String) (p : Behaviour) : Behaviour := fun s => do
  Evaluation.note (.trying name s)
  let r ← p s
  Evaluation.note (.ofReply name r)
  pure r

variable {b : Behaviour} {f : Value → Behaviour} {s t : State} {l : Log} {v : Value} {e : Expected}

theorem bind_of_ok (hb : b s = ⟨l, .returned ⟨t, .ok v⟩⟩) : b.bind f s = (f v t).after l := by
  unfold Behaviour.bind
  rw [hb, Evaluation.returned_bind]
  rfl

/-- A failure of the first step is reported where the sequence started. -/
theorem bind_of_err (hb : b s = ⟨l, .returned ⟨t, .err e⟩⟩) :
    b.bind f s = ⟨l, .returned ⟨s, .err e⟩⟩ := by
  unfold Behaviour.bind
  rw [hb, Evaluation.returned_bind]
  exact congrArg (Evaluation.mk · _) (List.append_nil l)

end Behaviour

namespace Evaluation

/-- The outcome of a run over `size` characters whose evaluation this is. Nesting beyond the limit is
a failure of the run, and the run leaves one event. -/
@[inline] def settle (size : Nat) (x : Evaluation Reply) : Evaluation Outcome :=
  match x with
  | ⟨log, .returned r⟩ =>
    ⟨log ++ [.stopped size r.state.position r.outcome], .returned r.outcome⟩
  | ⟨log, .tooDeep⟩ => ⟨log ++ [.exceeded size], .returned (.err .shallowerNesting)⟩
  | ⟨log, .endless⟩ => ⟨log, .endless⟩

end Evaluation

end Descent
