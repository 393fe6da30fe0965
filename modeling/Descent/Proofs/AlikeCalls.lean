import Descent.Proofs.Limit

/-!
# Calls from alike states

From alike states a parser comes to the same outcome (`eval_uniform`), and it does so by alike calls: each
call that it makes from the one state it makes from the other as well, of the same parser, within as many
levels and from an alike state (`Enters.alike`). Hence it nests as deep from both, the runs inside included,
and replies from the one state if it does from the other (`Replies.exists_alike`).
-/

namespace Descent

open Evaluation

variable {g : Grammar} {p : Parser} {c c' : Call} {K : Context} {s t : State} {r : Reply}

theorem exists_eval_eq_of_alike {n : Nat} {o : Outcome} {l : Log} {u : State} (ha : s.Alike t)
    (h : eval g n p s = ⟨l, .returned ⟨u, o⟩⟩) :
    ∃ l' u', eval g n p t = ⟨l', .returned ⟨u', o⟩⟩ ∧ State.Abreast s t u u' := by
  obtain ⟨⟨u', _⟩, hreturns, hu, rfl⟩ :=
    (eval_uniform g n p s t ha).returns (congrArg Evaluation.ending h)
  exact ⟨_, u', eq_of_ending hreturns, hu⟩

/-- The rounds of a repetition are made from an alike state as well, and come to an alike one. -/
theorem manyTurns_alike {n k : Nat} {l : Log} {now : Behaviour.Progress} (ha : s.Alike t)
    (h : Turns (Behaviour.manyRound (eval g n p)) k ⟨s, []⟩ l now) : ∃ l' now',
      Turns (Behaviour.manyRound (eval g n p)) k ⟨t, []⟩ l' now' ∧ now.current.Alike now'.current := by
  have hfirst : Behaviour.Progress.Alike s t ⟨s, []⟩ ⟨t, []⟩ := ⟨.refl s t, rfl⟩
  obtain ⟨l', now', hturns, hnow⟩ :=
    h.related (Behaviour.manyRound_alike (eval_uniform g n p) ha) hfirst
  exact ⟨l', now', hturns, hnow.current.alike ha⟩

/-- The rounds of a separated list are made behind an alike first item as well, and come to an alike state. -/
theorem sepByTurns_alike {n k : Nat} {sep : Parser} {v : Value} {l : Log} {d : Behaviour.Chain}
    (ha : s.Alike t)
    (h : Turns (Behaviour.sepByRound (eval g n p) (eval g n sep)) k ⟨s, v, []⟩ l d) : ∃ l' d',
      Turns (Behaviour.sepByRound (eval g n p) (eval g n sep)) k ⟨t, v, []⟩ l' d' ∧
        d.current.Alike d'.current := by
  have hfirst : Behaviour.Chain.Alike s t ⟨s, v, []⟩ ⟨t, v, []⟩ := ⟨.refl s t, rfl, .nil⟩
  obtain ⟨l', d', hturns, hd⟩ := h.related
    (Behaviour.sepByRound_alike (eval_uniform g n p) (eval_uniform g n sep) ha) hfirst
  exact ⟨l', d', hturns, hd.current.alike ha⟩

theorem Enters.alike (h : Enters g c K c') (ha : c.state.Alike s) : ∃ K' t,
    Enters g ⟨c.depth, c.parser, s⟩ K' ⟨c'.depth, c'.parser, t⟩ ∧ c'.state.Alike t := by
  cases h with
  | bindFirst n p f => exact ⟨_, s, .bindFirst n p f s, ha⟩
  | orElseFirst n p q => exact ⟨_, s, .orElseFirst n p q s, ha⟩
  | attempt n p => exact ⟨_, s, .attempt n p s, ha⟩
  | label n e p => exact ⟨_, s, .label n e p s, ha⟩
  | trace n name p => exact ⟨_, s, .trace n name p s, ha⟩
  | rule n name => exact ⟨_, s, .rule n name s, ha⟩
  | sepBy1First n p sep => exact ⟨_, s, .sepBy1First n p sep s, ha⟩
  | bindNext hp =>
    obtain ⟨l', t, hp', ht⟩ := exists_eval_eq_of_alike ha hp
    exact ⟨_, t, .bindNext hp', ht.alike ha⟩
  | orElseSecond hp hstill =>
    obtain ⟨l', t, hp', ht⟩ := exists_eval_eq_of_alike ha hp
    exact ⟨_, s, .orElseSecond hp' ((ht.position_eq_iff (.refl _ s)).1 hstill), ha⟩
  | many hturns hrounds =>
    obtain ⟨l', now, hturns', hnow⟩ := manyTurns_alike ha hturns
    exact ⟨_, now.current, .many hturns' (hrounds.trans ha.rounds_eq), hnow⟩
  | sepBy1Separator hp hturns hrounds =>
    obtain ⟨_, u, hp', hu⟩ := exists_eval_eq_of_alike ha hp
    have hitem := hu.alike ha
    obtain ⟨_, d, hturns', hd⟩ := sepByTurns_alike hitem hturns
    exact ⟨_, d.current, .sepBy1Separator hp' hturns' (hrounds.trans hitem.rounds_eq), hd⟩
  | sepBy1Item hp hturns hrounds hsep =>
    obtain ⟨_, u, hp', hu⟩ := exists_eval_eq_of_alike ha hp
    have hitem := hu.alike ha
    obtain ⟨_, d, hturns', hd⟩ := sepByTurns_alike hitem hturns
    obtain ⟨_, b, hsep', hb⟩ := exists_eval_eq_of_alike hd hsep
    exact ⟨_, b, .sepBy1Item hp' hturns' (hrounds.trans hitem.rounds_eq) hsep', hb.alike hd⟩

/-- All calls that a call comes to, in the runs inside it too, are come to from an alike state. -/
theorem Causes.alike (h : Causes g c c') (ha : c.state.Alike s) : ∃ t,
    Causes g ⟨c.depth, c.parser, s⟩ ⟨c'.depth, c'.parser, t⟩ ∧ c'.state.Alike t := by
  induction h with
  | refl => exact ⟨s, .refl, ha⟩
  | tail _ hstep ih =>
    obtain ⟨t, hcauses, ht⟩ := ih
    obtain ⟨K, henters⟩ | hstarts := hstep
    · obtain ⟨K', u, henters', hu⟩ := henters.alike ht
      exact ⟨u, hcauses.tail (.inl ⟨K', henters'⟩), hu⟩
    · -- The inner run has a text of its own, and starts it in the same state.
      cases hstarts with
      | subrun n p source => exact ⟨_, hcauses.tail (.inr (.subrun n p source t)), .refl _⟩

theorem shallow_of_alike {n : Nat} (h : (eval g n p s).Shallow) (ha : s.Alike t) :
    (eval g n p t).Shallow := by
  refine shallow_iff_causes (c := ⟨n, p, t⟩).2 fun c' hcauses => ?_
  obtain ⟨u, hcauses', -⟩ := hcauses.alike ha.symm
  exact shallow_iff_causes (c := ⟨n, p, s⟩).1 h ⟨c'.depth, c'.parser, u⟩ hcauses'

theorem Replies.exists_alike (h : Replies g p s r) (ha : s.Alike t) :
    ∃ r', Replies g p t r' ∧ Reply.Alike s t r r' := by
  obtain ⟨n, h⟩ := h
  obtain ⟨r', hreturns, hr'⟩ := (eval_uniform g n p s t ha).returns h.ending
  exact ⟨r', ⟨n, shallow_of_alike h.shallow ha, hreturns⟩, hr'⟩

end Descent
