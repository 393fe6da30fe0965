import Descent.Proofs.Reply

/-!
# How deep parsers nest

Each combinator takes one level for its operands, and the rounds of a loop take none. So a parser without
rules nests no deeper than it is high (`Parser.Fits`), however long the text (`eval_shallow`). How deep a
rule nests depends on the text; the rules for behaviours say what has to be known of the states that
its operands come to, and for a loop this is an invariant of its rounds.
-/

namespace Descent

open Evaluation

namespace Behaviour

variable {p q sep : Behaviour} {s : State}

theorem shallow_bind {f : Value → Behaviour} (hp : (p s).Shallow)
    (hf : ∀ t v, (p s).Gives ⟨t, .ok v⟩ → (f v t).Shallow) : (p.bind f s).Shallow := by
  refine shallow_bind_iff.2 ⟨hp, ?_⟩
  rintro ⟨t, v | e⟩ hreturn
  · exact hf t v ⟨hp, hreturn⟩
  · exact shallow_pure _

theorem shallow_orElse (hp : (p s).Shallow) (hq : (q s).Shallow) : (p.orElse q s).Shallow := by
  refine shallow_bind_iff.2 ⟨hp, ?_⟩
  rintro ⟨t, v | e⟩ -
  · exact shallow_pure _
  · by_cases h : t.position = s.position
    · simp only [if_pos h]
      exact hq
    · simp only [if_neg h]
      exact shallow_pure _

theorem shallow_attempt (hp : (p s).Shallow) : (p.attempt s).Shallow := by
  refine shallow_bind_iff.2 ⟨hp, ?_⟩
  rintro ⟨t, v | e⟩ - <;> exact shallow_pure _

theorem shallow_label (hp : (p s).Shallow) (e : Expected) : (p.label e s).Shallow := by
  refine shallow_bind_iff.2 ⟨hp, ?_⟩
  rintro ⟨t, v | e'⟩ -
  · exact shallow_pure _
  · by_cases h : t.position = s.position
    · simp only [if_pos h]
      exact shallow_pure _
    · simp only [if_neg h]
      exact shallow_pure _

theorem shallow_trace (hp : (p s).Shallow) (name : String) : (p.trace name s).Shallow := by
  refine shallow_bind_iff.2 ⟨shallow_note_iff.2 rfl, fun _ _ => ?_⟩
  refine shallow_bind_iff.2 ⟨hp, fun r _ => ?_⟩
  have hclose : (note (.ofReply name r)).Shallow := by
    obtain ⟨t, v | e⟩ := r <;> exact shallow_note_iff.2 rfl
  exact shallow_bind_iff.2 ⟨hclose, fun _ _ => shallow_pure r⟩

theorem shallow_many {I : State → Prop} (hp : ∀ s, I s → (p s).Shallow)
    (hI : ∀ s t v, I s → (p s).Gives ⟨t, .ok v⟩ → I t) (hs : I s) : (p.many s).Shallow := by
  have hround : ∀ now : Progress, I now.current → (manyRound p now).Shallow := by
    intro now hnow
    refine shallow_bind_iff.2 ⟨hp _ hnow, ?_⟩
    rintro ⟨t, v | e⟩ -
    · simp only
      split <;> exact shallow_pure _
    · exact shallow_pure _
  refine shallow_iterate hround (fun now hnow => ?_) _ hs
  intro x hx
  obtain ⟨⟨t, v | e⟩, hreturn, hx⟩ := bind_returns_iff.1 hx
  · have ht : I t := hI _ t v hnow ⟨hp _ hnow, hreturn⟩
    simp only at hx
    split at hx <;> cases hx
    · trivial
    · exact ht
  · cases hx
    trivial

theorem shallow_sepBy1 {I J : State → Prop} (hp : ∀ s, I s → (p s).Shallow)
    (hsep : ∀ s, J s → (sep s).Shallow) (hIJ : ∀ s t v, I s → (p s).Gives ⟨t, .ok v⟩ → J t)
    (hJI : ∀ s t v, J s → (sep s).Gives ⟨t, .ok v⟩ → I t) (hs : I s) : (p.sepBy1 sep s).Shallow := by
  have hround : ∀ c : Chain, J c.current → (sepByRound p sep c).Shallow := by
    intro c hc
    refine shallow_bind_iff.2 ⟨hsep _ hc, ?_⟩
    rintro ⟨a, w | e⟩ hreturn
    · have ha : I a := hJI _ a w hc ⟨hsep _ hc, hreturn⟩
      refine shallow_bind_iff.2 ⟨hp _ ha, ?_⟩
      rintro ⟨t, v | e⟩ -
      · simp only
        split <;> exact shallow_pure _
      · exact shallow_pure _
    · exact shallow_pure _
  refine shallow_bind (hp s hs) fun t v hitem => ?_
  refine shallow_iterate hround (fun c hc => ?_) _ (hIJ s t v hs hitem)
  intro x hx
  obtain ⟨⟨a, w | e⟩, hreturn, hx⟩ := bind_returns_iff.1 hx
  · have ha : I a := hJI _ a w hc ⟨hsep _ hc, hreturn⟩
    obtain ⟨⟨t, v | e⟩, hreturn, hx⟩ := bind_returns_iff.1 hx
    · have ht : J t := hIJ _ t v ha ⟨hp _ ha, hreturn⟩
      simp only at hx
      split at hx <;> cases hx
      · trivial
      · exact ht
    · cases hx
      trivial
  · cases hx
    trivial

end Behaviour

/-! ## Parsers without rules -/

/-- The parser is at most so many levels high, and there are no rules in it. -/
@[simp] def Parser.Fits : Nat → Parser → Prop
  | 0, _ => False
  | n + 1, .bind p f => p.Fits n ∧ ∀ v, (f v).Fits n
  | n + 1, .orElse p q => p.Fits n ∧ q.Fits n
  | n + 1, .attempt p => p.Fits n
  | n + 1, .label _ p => p.Fits n
  | n + 1, .many p => p.Fits n
  | n + 1, .sepBy1 p sep => p.Fits n ∧ sep.Fits n
  | n + 1, .trace _ p => p.Fits n
  | _ + 1, .rule _ => False
  | n + 1, .subrun p _ => p.Fits n
  | _ + 1, _ => True

@[simp] theorem Parser.fits_ite {n : Nat} {p q : Parser} {c : Prop} [Decidable c] :
    (if c then p else q).Fits n ↔ if c then p.Fits n else q.Fits n := by
  split <;> rfl

theorem Parser.Fits.mono {m n : Nat} {p : Parser} (h : p.Fits m) (hmn : m ≤ n) : p.Fits n := by
  induction m generalizing n p with
  | zero => cases h
  | succ m ih =>
    obtain ⟨n, rfl⟩ : ∃ k, n = k + 1 := ⟨n - 1, by omega⟩
    have ih : ∀ {q : Parser}, q.Fits m → q.Fits n := fun hq => ih hq (by omega)
    cases p with
    | bind p f => exact ⟨ih h.1, fun v => ih (h.2 v)⟩
    | orElse | sepBy1 => exact ⟨ih h.1, ih h.2⟩
    | attempt | label | many | trace | subrun => exact ih h
    | rule => cases h
    | succeed | fail | anyChar | endOfInput | text => trivial

theorem Parser.Fits.raise {n : Nat} {p : Parser} (h : p.Fits n) (k : Nat) : p.Fits (n + k) :=
  h.mono (Nat.le_add_right n k)

/-- A parser without rules needs no more levels than it has, whatever it reads. -/
theorem eval_shallow (g : Grammar) {n depth : Nat} {p : Parser} (hp : p.Fits n) (h : n ≤ depth)
    (s : State) : (eval g depth p s).Shallow := by
  induction n generalizing depth p s with
  | zero => cases hp
  | succ n ih =>
    obtain ⟨depth, rfl⟩ : ∃ d, depth = d + 1 := ⟨depth - 1, by omega⟩
    have ih : ∀ {q : Parser}, q.Fits n → ∀ s, (eval g depth q s).Shallow :=
      fun hq s => ih hq (by omega) s
    cases p with
    | succeed | fail | anyChar | endOfInput | text => exact shallow_pure _
    | bind p f =>
      rw [eval_bind]
      exact Behaviour.shallow_bind (ih hp.1 s) fun t v _ => ih (hp.2 v) t
    | orElse p q =>
      rw [eval_orElse]
      exact Behaviour.shallow_orElse (ih hp.1 s) (ih hp.2 s)
    | attempt p =>
      rw [eval_attempt]
      exact Behaviour.shallow_attempt (ih hp s)
    | label e p =>
      rw [eval_label]
      exact Behaviour.shallow_label (ih hp s) e
    | many p =>
      rw [eval_many]
      exact Behaviour.shallow_many (I := fun _ => True) (fun s _ => ih hp s)
        (fun _ _ _ _ _ => trivial) trivial
    | sepBy1 p sep =>
      rw [eval_sepBy1]
      exact Behaviour.shallow_sepBy1 (I := fun _ => True) (J := fun _ => True)
        (fun s _ => ih hp.1 s) (fun s _ => ih hp.2 s) (fun _ _ _ _ _ => trivial)
        (fun _ _ _ _ _ => trivial) trivial
    | trace name p =>
      rw [eval_trace]
      exact Behaviour.shallow_trace (ih hp s) name
    | rule name => cases hp
    | subrun p source =>
      rw [eval_subrun]
      exact shallow_bind_iff.2 ⟨shallow_settle_iff.2 (ih hp _), fun _ _ => shallow_pure _⟩

/-! ## Replies within a limit -/

theorem Replies.gives {g : Grammar} {depth : Nat} {p : Parser} {s : State} {r : Reply}
    (h : Replies g p s r) (hshallow : (eval g depth p s).Shallow) : (eval g depth p s).Gives r := by
  obtain ⟨depth', h⟩ := h
  rcases Nat.le_total depth depth' with hle | hle
  · exact eval_approximates g hle p s hshallow ▸ h
  · exact (eval_approximates g hle p s h.shallow).symm ▸ h

theorem Replies.run_result? {g : Grammar} {p : Parser} {text : String} {r : Reply}
    (h : Replies g p (.start (.ofString text)) r)
    (hshallow : (eval g nestingLimit p (.start (.ofString text))).Shallow) :
    (run g p text).result? = some r.outcome :=
  result?_eq_some_iff.2 ((h.gives hshallow).settle _).ending

end Descent
