import Descent.Behaviour

/-!
# What evaluations return

Three ways to speak of how an evaluation ends, each of which passes through `bind` and the rounds of a
loop:

* `x.Ensures P`: whatever `x` returns fulfils `P`; `x` need not return.
* `x.Shallow`: neither `x` nor a run inside it nests beyond the limit.
* `x.Gives a`: `x` is shallow and returns `a`.

Two evaluations are compared in two ways. `x.Approximates y`: `y` is `x` itself, provided that `x` is
shallow; so an evaluation stands to the same one with more levels at hand. `x.Related R y`: both end in
the same manner, and what they return is related by `R`.
-/

namespace Descent

def Event.isExceeded : Event → Bool
  | exceeded _ => true
  | _ => false

namespace Evaluation

variable {α β σ : Type}

/-- What a round has to fulfil for a loop with invariant `I` and postcondition `P`. -/
def Round.Holds (I : σ → Prop) (P : α → Prop) : Round σ α → Prop
  | .again x => I x
  | .done a => P a

/-! ## Postconditions -/

def Ensures (x : Evaluation α) (P : α → Prop) : Prop := ∀ a, x.ending = .returned a → P a

theorem result?_eq_some_iff {x : Evaluation α} {a : α} :
    x.result? = some a ↔ x.ending = .returned a := by
  rcases x with ⟨log, a | _ | _⟩ <;> simp [result?]

theorem bind_returns_iff {x : Evaluation α} {f : α → Evaluation β} {b : β} :
    (x >>= f).ending = .returned b ↔
      ∃ a, x.ending = .returned a ∧ (f a).ending = .returned b := by
  rcases x with ⟨log, a | _ | _⟩ <;> simp

@[simp] theorem ensures_pure_iff {a : α} {P : α → Prop} :
    (pure a : Evaluation α).Ensures P ↔ P a := by
  simp [Ensures, pure_eq]

theorem ensures_tooDeep (P : α → Prop) : (tooDeep : Evaluation α).Ensures P := by
  intro a h
  cases h

theorem Ensures.mono {x : Evaluation α} {P Q : α → Prop} (h : x.Ensures P)
    (hPQ : ∀ a, P a → Q a) : x.Ensures Q := fun a ha => hPQ a (h a ha)

theorem Ensures.bind {x : Evaluation α} {f : α → Evaluation β} {P : α → Prop} {Q : β → Prop}
    (hx : x.Ensures P) (hf : ∀ a, P a → (f a).Ensures Q) : (x >>= f).Ensures Q := by
  intro b hb
  obtain ⟨a, ha, hb⟩ := bind_returns_iff.1 hb
  exact hf a (hx a ha) b hb

theorem ensures_iterate {round : σ → Evaluation (Round σ α)} {I : σ → Prop} {P : α → Prop}
    (hround : ∀ x, I x → (round x).Ensures (Round.Holds I P)) (n : Nat) {x : σ} (hx : I x) :
    (iterate round n x).Ensures P := by
  induction n generalizing x with
  | zero =>
    intro a h
    cases h
  | succ n ih =>
    rw [iterate_succ]
    refine (hround x hx).bind fun r hr => ?_
    cases r with
    | again y => exact ih hr
    | done a => exact ensures_pure_iff.2 hr

/-! ## Nesting -/

/-- Neither the evaluation nor a run inside it nests beyond the limit. -/
def Shallow (x : Evaluation α) : Prop :=
  x.ending ≠ .tooDeep ∧ ∀ e ∈ x.log, e.isExceeded = false

instance [DecidableEq α] (x : Evaluation α) : Decidable x.Shallow :=
  inferInstanceAs (Decidable (_ ∧ _))

@[simp] theorem shallow_pure (a : α) : (pure a : Evaluation α).Shallow := by
  simp [Shallow, pure_eq]

@[simp] theorem not_shallow_tooDeep : ¬ (tooDeep : Evaluation α).Shallow := by
  simp [Shallow, tooDeep]

@[simp] theorem shallow_endless : (endless : Evaluation α).Shallow := by
  simp [Shallow, endless]

@[simp] theorem shallow_note_iff {e : Event} : (note e).Shallow ↔ e.isExceeded = false := by
  simp [Shallow, note]

theorem shallow_bind_iff {x : Evaluation α} {f : α → Evaluation β} :
    (x >>= f).Shallow ↔ x.Shallow ∧ ∀ a, x.ending = .returned a → (f a).Shallow := by
  rcases x with ⟨log, a | _ | _⟩
  · simp only [returned_bind, Shallow, List.mem_append, Ending.returned.injEq, forall_eq',
      ne_eq, reduceCtorEq, not_false_eq_true, true_and, or_imp, forall_and]
    exact and_left_comm
  all_goals simp [Shallow]

theorem Shallow.bind {x : Evaluation α} {f : α → Evaluation β} {P : α → Prop} (hx : x.Shallow)
    (hP : x.Ensures P) (hf : ∀ a, P a → (f a).Shallow) : (x >>= f).Shallow :=
  shallow_bind_iff.2 ⟨hx, fun a ha => hf a (hP a ha)⟩

/-- A loop is shallow if its rounds are, for as long as an invariant holds. -/
theorem shallow_iterate {round : σ → Evaluation (Round σ α)} {I : σ → Prop}
    (hround : ∀ x, I x → (round x).Shallow)
    (hI : ∀ x, I x → (round x).Ensures (Round.Holds I fun _ => True)) (n : Nat) {x : σ}
    (hx : I x) : (iterate round n x).Shallow := by
  induction n generalizing x with
  | zero => exact shallow_endless
  | succ n ih =>
    rw [iterate_succ]
    refine (hround x hx).bind (hI x hx) fun r hr => ?_
    cases r with
    | again y => exact ih hr
    | done a => exact shallow_pure a

@[simp] theorem shallow_settle_iff {size : Nat} {x : Evaluation Reply} :
    (x.settle size).Shallow ↔ x.Shallow := by
  rcases x with ⟨log, r | _ | _⟩
  · simp [settle, Shallow, Event.isExceeded, or_imp, forall_and]
  · simp [settle, Shallow, Event.isExceeded, or_imp, forall_and]
  · simp [settle, Shallow]

/-! ## Shallow results -/

/-- The evaluation is shallow and returns `a`. -/
structure Gives (x : Evaluation α) (a : α) : Prop where
  shallow : x.Shallow
  ending : x.ending = .returned a

instance [DecidableEq α] (x : Evaluation α) (a : α) : Decidable (x.Gives a) :=
  decidable_of_iff (x.Shallow ∧ x.ending = .returned a) ⟨fun h => ⟨h.1, h.2⟩, fun h => ⟨h.1, h.2⟩⟩

theorem Gives.unique {x : Evaluation α} {a b : α} (ha : x.Gives a) (hb : x.Gives b) : a = b := by
  have h := ha.ending.symm.trans hb.ending
  exact Ending.returned.inj h

@[simp] theorem gives_pure_iff {a b : α} : (pure a : Evaluation α).Gives b ↔ b = a := by
  constructor
  · rintro ⟨-, h⟩
    exact (Ending.returned.inj h).symm
  · rintro rfl
    exact ⟨shallow_pure b, rfl⟩

@[simp] theorem not_gives_tooDeep (a : α) : ¬ (tooDeep : Evaluation α).Gives a :=
  fun h => not_shallow_tooDeep h.shallow

@[simp] theorem not_gives_endless (a : α) : ¬ (endless : Evaluation α).Gives a := by
  rintro ⟨-, h⟩
  cases h

theorem gives_bind_iff {x : Evaluation α} {f : α → Evaluation β} {b : β} :
    (x >>= f).Gives b ↔ ∃ a, x.Gives a ∧ (f a).Gives b := by
  constructor
  · rintro ⟨hs, he⟩
    obtain ⟨a, ha, hb⟩ := bind_returns_iff.1 he
    obtain ⟨hx, hf⟩ := shallow_bind_iff.1 hs
    exact ⟨a, ⟨hx, ha⟩, ⟨hf a ha, hb⟩⟩
  · rintro ⟨a, ⟨hx, ha⟩, ⟨hf, hb⟩⟩
    refine ⟨shallow_bind_iff.2 ⟨hx, fun a' ha' => ?_⟩, bind_returns_iff.2 ⟨a, ha, hb⟩⟩
    rw [ha] at ha'
    exact Ending.returned.inj ha' ▸ hf

theorem gives_iterate_succ_iff {round : σ → Evaluation (Round σ α)} {n : Nat} {x : σ} {a : α} :
    (iterate round (n + 1) x).Gives a ↔
      (∃ y, (round x).Gives (.again y) ∧ (iterate round n y).Gives a) ∨
        (round x).Gives (.done a) := by
  rw [iterate_succ, gives_bind_iff]
  constructor
  · rintro ⟨y | b, hr, h⟩
    · exact .inl ⟨y, hr, h⟩
    · exact .inr (gives_pure_iff.1 h ▸ hr)
  · rintro (⟨y, hr, h⟩ | hr)
    · exact ⟨.again y, hr, h⟩
    · exact ⟨.done a, hr, gives_pure_iff.2 rfl⟩

theorem Gives.settle {x : Evaluation Reply} {r : Reply} (h : x.Gives r) (size : Nat) :
    (x.settle size).Gives r.outcome := by
  refine ⟨shallow_settle_iff.2 h.shallow, ?_⟩
  rcases x with ⟨log, ending⟩
  cases h.ending
  rfl

/-! ## Approximation -/

/-- `y` is `x`, if `x` is shallow. -/
def Approximates (x y : Evaluation α) : Prop := x.Shallow → y = x

theorem Approximates.refl (x : Evaluation α) : x.Approximates x := fun _ => rfl

theorem tooDeep_approximates (x : Evaluation α) : (tooDeep : Evaluation α).Approximates x :=
  fun h => absurd h not_shallow_tooDeep

theorem Approximates.bind {x x' : Evaluation α} {f f' : α → Evaluation β}
    (hx : x.Approximates x') (hf : ∀ a, (f a).Approximates (f' a)) :
    (x >>= f).Approximates (x' >>= f') := by
  intro h
  obtain ⟨hs, hfs⟩ := shallow_bind_iff.1 h
  rw [hx hs]
  rcases x with ⟨log, a | _ | _⟩
  · rw [returned_bind, returned_bind, hf a (hfs a rfl)]
  all_goals rfl

theorem Approximates.iterate {round round' : σ → Evaluation (Round σ α)}
    (h : ∀ x, (round x).Approximates (round' x)) (n : Nat) (x : σ) :
    (iterate round n x).Approximates (iterate round' n x) := by
  induction n generalizing x with
  | zero => exact .refl _
  | succ n ih =>
    rw [iterate_succ, iterate_succ]
    refine (h x).bind fun r => ?_
    cases r with
    | again y => exact ih y
    | done a => exact .refl _

theorem Approximates.settle {size : Nat} {x x' : Evaluation Reply} (h : x.Approximates x') :
    (x.settle size).Approximates (x'.settle size) := by
  intro hs
  rw [h (shallow_settle_iff.1 hs)]

/-! ## Related endings -/

variable {α' β' σ' : Type}

inductive EndingsRelated (R : α → α' → Prop) : Ending α → Ending α' → Prop
  | returned {a : α} {b : α'} (h : R a b) : EndingsRelated R (.returned a) (.returned b)
  | tooDeep : EndingsRelated R .tooDeep .tooDeep
  | endless : EndingsRelated R .endless .endless

/-- The two evaluations end in the same manner, with related results if they return. -/
def Related (R : α → α' → Prop) (x : Evaluation α) (y : Evaluation α') : Prop :=
  EndingsRelated R x.ending y.ending

inductive Round.Related (J : σ → σ' → Prop) (R : α → α' → Prop) : Round σ α → Round σ' α' → Prop
  | again {x : σ} {y : σ'} (h : J x y) : Round.Related J R (.again x) (.again y)
  | done {a : α} {b : α'} (h : R a b) : Round.Related J R (.done a) (.done b)

variable {R : α → α' → Prop} {S : β → β' → Prop}

theorem related_pure {a : α} {b : α'} (h : R a b) :
    (pure a : Evaluation α).Related R (pure b) := .returned h

theorem Related.results {x : Evaluation α} {y : Evaluation α'} {a : α} {b : α'}
    (h : x.Related R y) (ha : x.ending = .returned a) (hb : y.ending = .returned b) : R a b := by
  rw [Related, ha, hb] at h
  cases h with
  | returned h => exact h

theorem Related.mono {R' : α → α' → Prop} {x : Evaluation α} {y : Evaluation α'}
    (h : x.Related R y) (hR : ∀ a b, R a b → R' a b) : x.Related R' y := by
  rcases x with ⟨log, ending⟩
  rcases y with ⟨log', ending'⟩
  cases h with
  | returned h => exact .returned (hR _ _ h)
  | tooDeep => exact .tooDeep
  | endless => exact .endless

theorem Related.bind {x : Evaluation α} {y : Evaluation α'} {f : α → Evaluation β}
    {f' : α' → Evaluation β'} (h : x.Related R y) (hf : ∀ a b, R a b → (f a).Related S (f' b)) :
    (x >>= f).Related S (y >>= f') := by
  rcases x with ⟨log, ending⟩
  rcases y with ⟨log', ending'⟩
  cases h with
  | returned h => exact hf _ _ h
  | tooDeep => exact .tooDeep
  | endless => exact .endless

theorem Related.iterate {round : σ → Evaluation (Round σ α)} {round' : σ' → Evaluation (Round σ' α')}
    {J : σ → σ' → Prop} (hround : ∀ x y, J x y → (round x).Related (Round.Related J R) (round' y))
    (n : Nat) {x : σ} {y : σ'} (h : J x y) :
    (iterate round n x).Related R (iterate round' n y) := by
  induction n generalizing x y with
  | zero => exact .endless
  | succ n ih =>
    rw [iterate_succ, iterate_succ]
    refine (hround x y h).bind fun r r' hr => ?_
    cases hr with
    | again h => exact ih h
    | done h => exact related_pure h

end Evaluation

end Descent
