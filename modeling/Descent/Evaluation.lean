import Descent.Outcome

/-!
# Evaluations and their logs

A traced parser leaves an event when it starts and one when it replies; a run leaves one event when it
is over. `Event.message` is the line shown for an event.

Evaluating a parser leaves a log and comes to one of three ends: it returns, it nests beyond the limit,
or it is a loop that never ends. Evaluations are a monad: a later step is reached only if the earlier
one returned, and the logs follow each other. `Evaluation.iterate` is the one loop of the library;
`iterate_succ` gives it as a recursion, though it runs without nesting.
-/

namespace Descent

/-! ## Events -/

inductive Event where
  | trying (name : String) (start : State)
  | failed (name : String) (stop : State) (reason : Expected)
  | matched (name : String) (v : Value) (stop : State)
  /-- A run over `size` characters came to its end. -/
  | stopped (size : Nat) (position : Int) (outcome : Outcome)
  /-- A run over `size` characters nested too deep. -/
  | exceeded (size : Nat)
  deriving DecidableEq

abbrev Log := List Event

namespace Event

def ofReply (name : String) : Reply → Event
  | ⟨stop, .ok v⟩ => matched name v stop
  | ⟨stop, .err e⟩ => failed name stop e

def message : Event → String
  | trying name s => s!"{name}: trying at {s.describe}"
  | failed name s e => s!"{name}: failed at {s.describe}, {e.message}"
  | matched name v s => s!"{name}: matched {v.render}, now at {s.describe}"
  | stopped size position outcome =>
    s!"run over {size} chars stopped at {position}: {outcome.render}"
  | exceeded size => s!"run over {size} chars exceeded the recursion limit"

end Event

/-! ## Evaluations -/

inductive Ending (α : Type) where
  | returned (a : α)
  | tooDeep
  | endless
  deriving DecidableEq

/-- What an evaluation logs, and how it ends. -/
structure Evaluation (α : Type) where
  log : Log
  ending : Ending α
  deriving DecidableEq

namespace Evaluation

variable {α β σ : Type}

@[inline] protected def pure (a : α) : Evaluation α := ⟨[], .returned a⟩

@[inline] protected def bind (x : Evaluation α) (f : α → Evaluation β) : Evaluation β :=
  match x with
  | ⟨log, .returned a⟩ => let y := f a; ⟨log ++ y.log, y.ending⟩
  | ⟨log, .tooDeep⟩ => ⟨log, .tooDeep⟩
  | ⟨log, .endless⟩ => ⟨log, .endless⟩

instance : Monad Evaluation where
  pure := Evaluation.pure
  bind := Evaluation.bind

def tooDeep : Evaluation α := ⟨[], .tooDeep⟩

def endless : Evaluation α := ⟨[], .endless⟩

@[inline] def note (e : Event) : Evaluation Unit := ⟨[e], .returned ()⟩

def result? (x : Evaluation α) : Option α :=
  match x.ending with
  | .returned a => some a
  | .tooDeep => none
  | .endless => none

/-! ## Laws -/

theorem pure_eq (a : α) : (pure a : Evaluation α) = ⟨[], .returned a⟩ := rfl

@[simp] theorem returned_bind (log : Log) (a : α) (f : α → Evaluation β) :
    (⟨log, .returned a⟩ : Evaluation α) >>= f = ⟨log ++ (f a).log, (f a).ending⟩ := rfl

@[simp] theorem tooDeep_bind (log : Log) (f : α → Evaluation β) :
    (⟨log, .tooDeep⟩ : Evaluation α) >>= f = ⟨log, .tooDeep⟩ := rfl

@[simp] theorem endless_bind (log : Log) (f : α → Evaluation β) :
    (⟨log, .endless⟩ : Evaluation α) >>= f = ⟨log, .endless⟩ := rfl

instance : LawfulMonad Evaluation := LawfulMonad.mk' Evaluation
  (by rintro α ⟨log, a | _ | _⟩ <;> simp [Functor.map, Evaluation.bind, Evaluation.pure])
  (by intro α β a f; simp [pure_eq])
  (by
    rintro α β γ ⟨log, a | _ | _⟩ f g <;> simp
    rcases f a with ⟨log', b | _ | _⟩ <;> simp)

/-! ## What was logged before -/

/-- The evaluation `x`, with `l` logged before it. -/
def after (x : Evaluation α) (l : Log) : Evaluation α := ⟨l ++ x.log, x.ending⟩

@[simp] theorem after_nil (x : Evaluation α) : x.after [] = x := rfl

@[simp] theorem after_after (x : Evaluation α) (l l' : Log) :
    (x.after l).after l' = x.after (l' ++ l) := by
  simp [after]

@[simp] theorem after_bind (x : Evaluation α) (l : Log) (f : α → Evaluation β) :
    x.after l >>= f = (x >>= f).after l := by
  rcases x with ⟨log, a | _ | _⟩ <;> simp [after]

theorem eq_of_ending {x : Evaluation α} {a : α} (h : x.ending = .returned a) :
    x = ⟨x.log, .returned a⟩ := by
  rw [← h]

/-! ## Loops -/

/-- A round of a loop asks for another one or ends the loop. -/
inductive Round (σ α : Type) where
  | again (next : σ)
  | done (result : α)

/-- The rounds of a loop, with the events of the earlier rounds at hand, the latest first. -/
def iterateAfter (round : σ → Evaluation (Round σ α)) : Nat → σ → Log → Evaluation α
  | 0, _, past => ⟨past.reverse, .endless⟩
  | n + 1, x, past =>
    match round x with
    | ⟨log, .returned (.again next)⟩ => iterateAfter round n next (log.reverse ++ past)
    | ⟨log, .returned (.done a)⟩ => ⟨past.reverse ++ log, .returned a⟩
    | ⟨log, .tooDeep⟩ => ⟨past.reverse ++ log, .tooDeep⟩
    | ⟨log, .endless⟩ => ⟨past.reverse ++ log, .endless⟩

/-- At most `n` rounds from `x`. A loop that asks for one more is endless: `n` is a number of rounds
after which nothing new can happen. -/
def iterate (round : σ → Evaluation (Round σ α)) (n : Nat) (x : σ) : Evaluation α :=
  iterateAfter round n x []

theorem iterateAfter_eq (round : σ → Evaluation (Round σ α)) (n : Nat) (x : σ) (past : Log) :
    iterateAfter round n x past =
      ⟨past.reverse ++ (iterate round n x).log, (iterate round n x).ending⟩ := by
  induction n generalizing x past with
  | zero => simp [iterate, iterateAfter]
  | succ n ih =>
    unfold iterate iterateAfter
    rcases round x with ⟨log, (next | a) | _ | _⟩
    · simp [ih next (log.reverse ++ past), ih next log.reverse]
    all_goals simp

@[simp] theorem iterate_zero (round : σ → Evaluation (Round σ α)) (x : σ) :
    iterate round 0 x = endless := rfl

/-- A loop is its first round, followed by the rest of the loop if that round asks for it. -/
theorem iterate_succ (round : σ → Evaluation (Round σ α)) (n : Nat) (x : σ) :
    iterate round (n + 1) x = round x >>= fun
      | .again next => iterate round n next
      | .done a => pure a := by
  rw [iterate, iterateAfter]
  rcases round x with ⟨log, (next | a) | _ | _⟩ <;> simp [iterateAfter_eq, pure_eq]

end Evaluation

end Descent
