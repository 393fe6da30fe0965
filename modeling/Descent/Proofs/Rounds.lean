import Descent.Proofs.Repetition

/-!
# Rounds of loops

`Turns round n x l y` follows a loop over `n` rounds, each of which asks for another one, without any
bound on their number; `Turns.iterate` says what `iterate` makes of them. The loops are given
`State.rounds` rounds, and this is no restriction. A repetition never asks for so many
(`turns_manyRound_le`): each of its rounds leaves less ahead. Nor does a separated list that does not read
the end of the input (`turns_sepByRound_le`). Any other separated list that asks for so many goes on for
ever (`turns_sepByRound_forever`): it has come beyond the end, where all rounds are alike.
-/

namespace Descent

namespace Evaluation

variable {α β σ : Type}

/-! ## Rounds -/

variable {round : σ → Evaluation (Round σ α)} {m n : Nat} {x y z : σ} {l l' : Log}

/-- What follows a round of a loop that has `n` more. -/
def Round.proceed (round : σ → Evaluation (Round σ α)) (n : Nat) : Round σ α → Evaluation α
  | .again y => iterate round n y
  | .done a => pure a

theorem iterate_succ_eq (round : σ → Evaluation (Round σ α)) (n : Nat) (x : σ) :
    iterate round (n + 1) x = round x >>= Round.proceed round n := iterate_succ round n x

/-- From `x` the loop comes to `y` in `n` rounds, which log `l`. -/
inductive Turns (round : σ → Evaluation (Round σ α)) : Nat → σ → Log → σ → Prop
  | start (x : σ) : Turns round 0 x [] x
  | next {n : Nat} {x y z : σ} {l l' : Log} : round x = ⟨l, .returned (.again y)⟩ →
      Turns round n y l' z → Turns round (n + 1) x (l ++ l') z

theorem Turns.iterate (h : Turns round n x l y) (m : Nat) :
    iterate round (n + m) x = (iterate round m y).after l := by
  induction h with
  | start x => rw [Nat.zero_add, after_nil]
  | next hround _ ih =>
    rw [Nat.add_right_comm, iterate_succ_eq, hround, returned_bind, Round.proceed, ih]
    exact after_after ..

theorem Turns.trans (h : Turns round m x l y) (h' : Turns round n y l' z) :
    Turns round (m + n) x (l ++ l') z := by
  induction h with
  | start x => rwa [Nat.zero_add]
  | next hround _ ih =>
    rw [Nat.add_right_comm, List.append_assoc]
    exact .next hround (ih h')

theorem Turns.split (h : Turns round (m + n) x l z) :
    ∃ y l₁ l₂, Turns round m x l₁ y ∧ Turns round n y l₂ z := by
  induction m generalizing x l with
  | zero => exact ⟨x, [], l, .start x, by rwa [Nat.zero_add] at h⟩
  | succ m ih =>
    rw [Nat.add_right_comm] at h
    cases h with
    | next hround h =>
      obtain ⟨y, l₁, l₂, h₁, h₂⟩ := ih h
      exact ⟨y, _, l₂, .next hround h₁, h₂⟩

theorem Turns.unique (h : Turns round n x l y) (h' : Turns round n x l' z) : l = l' ∧ y = z := by
  induction h generalizing l' with
  | start x =>
    cases h'
    exact ⟨rfl, rfl⟩
  | next hround _ ih =>
    cases h' with
    | next hround' h' =>
      cases hround.symm.trans hround'
      obtain ⟨rfl, rfl⟩ := ih h'
      exact ⟨rfl, rfl⟩

/-- Two rounds of a loop are the same, with as many to come, or they have different numbers. -/
theorem Turns.same_or_ne {k k' rounds : Nat} (h : Turns round k x l y) (h' : Turns round k' x l' z)
    (hk : k + (m + 1) = rounds) (hk' : k' + (n + 1) = rounds) :
    (k = k' ∧ m = n ∧ l = l' ∧ y = z) ∨ k ≠ k' := by
  by_cases heq : k = k'
  · subst heq
    exact .inl ⟨rfl, by omega, h.unique h'⟩
  · exact .inr heq

/-- What a loop logs in its first rounds, and in the one behind these, is the first that it logs. -/
theorem Turns.prefix_log (h : Turns round m x l y) (h' : Turns round n x l' z) (hlt : m < n) :
    l ++ (round y).log <+: l' := by
  induction h generalizing n l' with
  | start x =>
    cases h' with
    | start => cases hlt
    | next hround _ =>
      rw [hround]
      exact List.prefix_append _ _
  | next hround _ ih =>
    cases h' with
    | start => cases hlt
    | next hround' h' =>
      cases hround.symm.trans hround'
      rw [List.append_assoc]
      exact (List.prefix_append_right_inj _).2 (ih h' (Nat.lt_of_succ_lt_succ hlt))

/-- A loop with rounds to spare returns when one of its rounds ends it. -/
theorem Turns.returns {a : α} (h : Turns round m x l y)
    (hdone : (round y).ending = .returned (.done a)) (hlt : m < n) :
    (Evaluation.iterate round n x).ending = .returned a := by
  obtain ⟨k, rfl⟩ : ∃ k, n = m + (k + 1) := ⟨n - m - 1, by omega⟩
  rw [h.iterate]
  show (Evaluation.iterate round (k + 1) y).ending = .returned a
  rw [iterate_succ_eq]
  exact bind_returns_iff.2 ⟨.done a, hdone, rfl⟩

theorem Related.returns {α' : Type} {R : α → α' → Prop} {x : Evaluation α} {y : Evaluation α'} {a : α}
    (h : x.Related R y) (ha : x.ending = .returned a) : ∃ b, y.ending = .returned b ∧ R a b := by
  rw [Related, ha] at h
  generalize y.ending = e at h
  cases h with
  | returned h => exact ⟨_, rfl, h⟩

/-- Loops that start in related states, and whose rounds keep to these, make as many rounds. -/
theorem Turns.related {α' σ' : Type} {J : σ → σ' → Prop} {R : α → α' → Prop}
    {round' : σ' → Evaluation (Round σ' α')} {x' : σ'}
    (hround : ∀ x y, J x y → (round x).Related (Round.Related J R) (round' y))
    (h : Turns round n x l z) (hx : J x x') : ∃ l' z', Turns round' n x' l' z' ∧ J z z' := by
  induction h generalizing x' with
  | start x => exact ⟨[], x', .start x', hx⟩
  | next hfirst _ ih =>
    obtain ⟨_, hagain, hkeeps⟩ := (hround _ _ hx).returns (congrArg Evaluation.ending hfirst)
    cases hkeeps with
    | again hkeeps =>
      obtain ⟨l', z', hrest, hz⟩ := ih hkeeps
      exact ⟨_, z', .next (eq_of_ending hagain) hrest, hz⟩

end Evaluation

open Evaluation

/-! ## Repetitions -/

section
variable {b d : Behaviour}

theorem manyRound_again_iff {now next : Behaviour.Progress} :
    (Behaviour.manyRound b now).ending = .returned (.again next) ↔
      ∃ t v, (b now.current).ending = .returned ⟨t, .ok v⟩ ∧ ¬ NoProgress now.current t ∧
        next = ⟨t, v :: now.values⟩ := by
  refine bind_returns_iff.trans ⟨?_, ?_⟩
  · rintro ⟨⟨t, v | e⟩, hb, h⟩
    · simp only at h
      split at h <;> cases h
      exact ⟨t, v, hb, ‹_›, rfl⟩
    · cases h
  · rintro ⟨t, v, hb, hguard, rfl⟩
    refine ⟨_, hb, ?_⟩
    simp only [if_neg hguard]
    rfl

theorem sepByRound_again_iff {c c' : Behaviour.Chain} :
    (Behaviour.sepByRound b d c).ending = .returned (.again c') ↔
      ∃ a w t v, (d c.current).ending = .returned ⟨a, .ok w⟩ ∧ (b a).ending = .returned ⟨t, .ok v⟩ ∧
        t.position ≠ c.current.position ∧ c' = ⟨t, v, ⟨c.last, c.current, a⟩ :: c.links⟩ := by
  refine bind_returns_iff.trans ⟨?_, ?_⟩
  · rintro ⟨⟨a, w | e⟩, hd, h⟩
    · obtain ⟨⟨t, v | e⟩, hb, h⟩ := bind_returns_iff.1 h
      · simp only at h
        split at h <;> cases h
        exact ⟨a, w, t, v, hd, hb, ‹_›, rfl⟩
      · cases h
    · cases h
  · rintro ⟨a, w, t, v, hd, hb, hmoved, rfl⟩
    refine ⟨_, hd, bind_returns_iff.2 ⟨_, hb, ?_⟩⟩
    simp only [if_neg hmoved]
    rfl

theorem sepByRound_done_iff {c : Behaviour.Chain} {r : Reply} :
    (Behaviour.sepByRound b d c).ending = .returned (.done r) ↔
      (∃ a e, (d c.current).ending = .returned ⟨a, .err e⟩ ∧
        r = ⟨c.current, .ok (.list (Link.items c.links ++ [c.last]))⟩) ∨
      ∃ a w, (d c.current).ending = .returned ⟨a, .ok w⟩ ∧
        ((∃ t e, (b a).ending = .returned ⟨t, .err e⟩ ∧
          r = Link.unwind e ⟨c.last, c.current, a⟩ c.links) ∨
        ∃ t v, (b a).ending = .returned ⟨t, .ok v⟩ ∧ t.position = c.current.position ∧
          r = ⟨c.current, .err .separatedProgress⟩) := by
  refine bind_returns_iff.trans ⟨?_, ?_⟩
  · rintro ⟨⟨a, w | e⟩, hd, h⟩
    · obtain ⟨⟨t, v | e⟩, hb, h⟩ := bind_returns_iff.1 h
      · simp only at h
        split at h <;> cases h
        exact .inr ⟨a, w, hd, .inr ⟨t, v, hb, ‹_›, rfl⟩⟩
      · cases h
        exact .inr ⟨a, w, hd, .inl ⟨t, e, hb, rfl⟩⟩
    · cases h
      exact .inl ⟨a, e, hd, rfl⟩
  · rintro (⟨a, e, hd, rfl⟩ | ⟨a, w, hd, ⟨t, e, hb, rfl⟩ | ⟨t, v, hb, hstill, rfl⟩⟩)
    · exact ⟨_, hd, rfl⟩
    · exact ⟨_, hd, bind_returns_iff.2 ⟨_, hb, rfl⟩⟩
    · refine ⟨_, hd, bind_returns_iff.2 ⟨_, hb, ?_⟩⟩
      simp only [if_pos hstill]
      rfl

end

variable {g : Grammar} {p sep : Parser} {depth n : Nat} {l : Log}

theorem turns_manyRound_le {x y : Behaviour.Progress}
    (h : Turns (Behaviour.manyRound (eval g depth p)) n x l y) : n ≤ x.current.ahead := by
  induction h with
  | start x => exact Nat.zero_le _
  | @next n x y z l l' hround _ ih =>
    obtain ⟨t, v, hp, hguard, rfl⟩ := manyRound_again_iff.1 (congrArg Evaluation.ending hround)
    have hleads : x.current.Leads t := eval_leads g depth p x.current _ hp
    have hahead := hleads.ahead_lt hguard
    exact Nat.lt_of_le_of_lt ih hahead

/-! ## Separated lists -/

theorem sepByRound_forward {c c' : Behaviour.Chain}
    (h : (Behaviour.sepByRound (eval g depth p) (eval g depth sep) c).ending = .returned (.again c')) :
    c.current.Leads c'.current ∧ c.current.position < c'.current.position := by
  obtain ⟨a, w, t, v, hsep, hp, hmoved, rfl⟩ := sepByRound_again_iff.1 h
  have hleads : c.current.Leads t :=
    (eval_leads g depth sep _ _ hsep).trans (eval_leads g depth p _ _ hp)
  have hforward := hleads.forward
  refine ⟨hleads, ?_⟩
  show c.current.position < t.position
  omega

theorem turns_sepByRound_le (hp : EndFree g p) (hsep : EndFree g sep) {x y : Behaviour.Chain}
    (h : Turns (Behaviour.sepByRound (eval g depth p) (eval g depth sep)) n x l y) :
    n ≤ (x.current.source.size - x.current.position).toNat := by
  induction h with
  | start x => exact Nat.zero_le _
  | @next n x y z l l' hround _ ih =>
    have hagain := congrArg Evaluation.ending hround
    obtain ⟨hleads, hforward⟩ := sepByRound_forward hagain
    obtain ⟨a, w, t, v, hfirst, hsecond, -, rfl⟩ := sepByRound_again_iff.1 hagain
    have hwithin : x.current.Within t :=
      State.within_passage.trans (eval_within depth hsep _ _ hfirst) (eval_within depth hp _ _ hsecond)
    have hsource : t.source = x.current.source := hleads.source
    have hbound := hwithin.bound
    simp only [hsource] at ih hforward
    omega

theorem turns_sepByRound_position {x y : Behaviour.Chain}
    (h : Turns (Behaviour.sepByRound (eval g depth p) (eval g depth sep)) n x l y) :
    y.current.source = x.current.source ∧ x.current.position + n ≤ y.current.position := by
  induction h with
  | start x => exact ⟨rfl, by omega⟩
  | next hround _ ih =>
    obtain ⟨hleads, hforward⟩ := sepByRound_forward (congrArg Evaluation.ending hround)
    exact ⟨ih.1.trans hleads.source, by have := ih.2; omega⟩

/-- Beyond the end, a round that asks for another one gets one that does the same. -/
theorem sepByRound_again_of_beyond {c c' : Behaviour.Chain}
    (h : (Behaviour.sepByRound (eval g depth p) (eval g depth sep) c).ending = .returned (.again c'))
    (hbeyond : c.current.source.size < c.current.position) :
    c'.current.source.size < c'.current.position ∧
      ∃ c'', (Behaviour.sepByRound (eval g depth p) (eval g depth sep) c').ending =
        .returned (.again c'') := by
  obtain ⟨hleads, hforward⟩ := sepByRound_forward h
  obtain ⟨a, w, t, v, hsep, hp, hmoved, rfl⟩ := sepByRound_again_iff.1 h
  have halike : c.current.Alike t := hleads.alike (.inr hbeyond)
  obtain ⟨⟨a', _⟩, hsep', ha, rfl⟩ := (eval_uniform g depth sep _ _ halike).returns hsep
  obtain ⟨⟨t', _⟩, hp', ht, rfl⟩ := (eval_uniform g depth p _ _ (ha.alike halike)).returns hp
  have hmoved' : t'.position ≠ t.position :=
    ((ha.trans ht).position_eq_iff (.refl _ _)).not.1 hmoved
  exact ⟨halike.beyond_iff.1 hbeyond, _, sepByRound_again_iff.2 ⟨a', w, t', v, hsep', hp', hmoved', rfl⟩⟩

/-- From the first state beyond the end on, each round asks for another one. -/
theorem turns_sepByRound_of_beyond (n : Nat) {c : Behaviour.Chain}
    (hbeyond : c.current.source.size < c.current.position)
    (hround : ∃ c', (Behaviour.sepByRound (eval g depth p) (eval g depth sep) c).ending =
      .returned (.again c')) :
    ∃ l z, Turns (Behaviour.sepByRound (eval g depth p) (eval g depth sep)) n c l z := by
  induction n generalizing c with
  | zero => exact ⟨[], c, .start c⟩
  | succ n ih =>
    obtain ⟨c', hagain⟩ := hround
    obtain ⟨hbeyond', hnext⟩ := sepByRound_again_of_beyond hagain hbeyond
    obtain ⟨l, z, hrest⟩ := ih hbeyond' hnext
    exact ⟨_, z, .next (eq_of_ending hagain) hrest⟩

/-- A separated list that asks for more rounds than it is given goes on for ever. -/
theorem turns_sepByRound_forever {x y : Behaviour.Chain}
    (h : Turns (Behaviour.sepByRound (eval g depth p) (eval g depth sep)) x.current.rounds x l y)
    (n : Nat) :
    ∃ l z, Turns (Behaviour.sepByRound (eval g depth p) (eval g depth sep)) n x l z := by
  obtain ⟨m, hm⟩ : ∃ m, x.current.rounds = x.current.ahead + (m + 1) :=
    ⟨x.current.rounds - x.current.ahead - 1, by have := x.current.ahead_lt_rounds; omega⟩
  rw [hm] at h
  obtain ⟨u, l₁, l₂, hbefore, hbehind⟩ := h.split
  obtain ⟨hsource, hposition⟩ := turns_sepByRound_position hbefore
  have hbeyond : u.current.source.size < u.current.position := by
    rw [hsource]
    unfold State.ahead at hposition
    omega
  cases hbehind with
  | next hround _ =>
    obtain ⟨l', z, hrest⟩ :=
      turns_sepByRound_of_beyond n hbeyond ⟨_, congrArg Evaluation.ending hround⟩
    have hall := hbefore.trans hrest
    rw [Nat.add_comm] at hall
    obtain ⟨z', l'', _, hfirst, -⟩ := hall.split
    exact ⟨l'', z', hfirst⟩

/-- A separated list that comes to an end does so with rounds to spare. -/
theorem turns_sepByRound_lt_rounds {x y : Behaviour.Chain} {r : Reply}
    (h : Turns (Behaviour.sepByRound (eval g depth p) (eval g depth sep)) n x l y)
    (hdone : (Behaviour.sepByRound (eval g depth p) (eval g depth sep) y).ending =
      .returned (.done r)) : n < x.current.rounds := by
  by_contra hge
  obtain ⟨m, rfl⟩ : ∃ m, n = x.current.rounds + m := ⟨n - x.current.rounds, by omega⟩
  obtain ⟨u, l₁, l₂, hfirst, -⟩ := h.split
  -- The list goes on for ever, so one round more than `n` is asked for as well, and it begins in `y`.
  obtain ⟨l', z, hlonger⟩ := turns_sepByRound_forever hfirst (x.current.rounds + m + 1)
  obtain ⟨y', l₃, l₄, hsame, hnext⟩ := hlonger.split
  cases (h.unique hsame).2
  cases hnext with
  | next hround _ =>
    rw [hround] at hdone
    cases hdone

end Descent
