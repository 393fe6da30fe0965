import Descent.Proofs.Alike

/-!
# Repetition as a recursion

`Repeats g p s vs t` is what a repetition is meant to do: `p` is applied again and again, gives the values
`vs`, and fails at `t`. The recursive definition `Parser.manyRecursive` does just that, at the price of a
few levels of nesting for each round (`replies_manyRecursive_iff`).

The loop does the same as long as each round makes a difference. A round that ends in a state alike to
the one where it began is one that goes on for ever (`not_repeats_of_alike`), and the guards of the loop
find these rounds: the position is the same, or it was beyond the end already. So the loop either has
the result of the recursion or stops at a guard, and the latter only when there is no such result
(`repeats_or_stuck`).
-/

namespace Descent

open Evaluation Filter

variable {g : Grammar} {p : Parser} {name : String} {s t u : State} {v : Value} {r : Reply}

/-- Repetition of `p` as the body of the recursive rule `name`. -/
def Parser.manyRecursive (name : String) (p : Parser) : Parser :=
  oneOf [p.bind fun v => (rule name).map (Value.cons v), succeed (.list [])]

/-- From `s`, repetition of `p` gives the values `vs` and comes to `t`, where `p` fails. -/
inductive Repeats (g : Grammar) (p : Parser) : State → List Value → State → Prop
  | stop {s t : State} {e : Expected} : Replies g p s ⟨t, .err e⟩ → Repeats g p s [] s
  | more {s t u : State} {v : Value} {vs : List Value} :
      Replies g p s ⟨t, .ok v⟩ → Repeats g p t vs u → Repeats g p s (v :: vs) u

/-- A repetition of `p` from the first state comes to apply `p` at the second. -/
inductive Applies (g : Grammar) (p : Parser) : State → State → Prop
  | here (s : State) : Applies g p s s
  | next {s t u : State} {v : Value} :
      Replies g p s ⟨t, .ok v⟩ → Applies g p t u → Applies g p s u

/-! ## The recursion -/

/-- By induction on the number of levels: each round of the recursion takes some. -/
theorem repeats_of_gives_rule (hrec : g name = .manyRecursive name p) (depth : Nat)
    (h : (eval g depth (.rule name) s).Gives r) :
    ∃ vs t, Repeats g p s vs t ∧ r = ⟨t, .ok (.list vs)⟩ := by
  induction depth using Nat.strongRecOn generalizing s r with
  | ind depth ih =>
    obtain ⟨a, ha, h⟩ := gives_rule_inv h
    rw [hrec] at h
    obtain ⟨b, hb, ⟨t, w, hitem, rfl⟩ | ⟨t, e, hitem, rfl⟩⟩ := gives_oneOf_succeed_inv h
    all_goals obtain ⟨c, hc, ⟨u, v, hp, hmap⟩ | ⟨u, e', hp, hstart⟩⟩ := gives_bind_inv hitem
    · obtain ⟨d, hd, ⟨x, w', hrule, hcons⟩ | ⟨x, e, -, hbad⟩⟩ := gives_map_inv hmap
      · obtain ⟨vs, _, hrest, hlist⟩ := ih d (by omega) hrule
        cases hlist
        cases hcons
        exact ⟨v :: vs, _, .more ⟨c, hp⟩ hrest, rfl⟩
      · cases hbad
    · cases hstart
    · obtain ⟨d, hd, ⟨x, w', -, hbad⟩ | ⟨x, e', hrule, -⟩⟩ := gives_map_inv hmap
      · cases hbad
      · obtain ⟨vs, _, -, hlist⟩ := ih d (by omega) hrule
        cases hlist
    · cases hstart
      exact ⟨[], s, .stop ⟨c, hp⟩, if_pos rfl⟩

theorem Repeats.replies_rule {vs : List Value} (hrec : g name = .manyRecursive name p)
    (h : Repeats g p s vs t) : Replies g (.rule name) s ⟨t, .ok (.list vs)⟩ := by
  induction h with
  | @stop s t e hp =>
    rw [replies_rule_iff, hrec, Parser.manyRecursive, replies_oneOf_succeed_iff]
    exact .inr ⟨s, e, hp.bind_err, (if_pos rfl).symm⟩
  | @more s t u v vs hp _ ih =>
    rw [replies_rule_iff, hrec, Parser.manyRecursive, replies_oneOf_succeed_iff]
    exact .inl ⟨u, .list (v :: vs), hp.bind (ih.map (Value.cons v)), rfl⟩

theorem replies_manyRecursive_iff (hrec : g name = .manyRecursive name p) :
    Replies g (.rule name) s r ↔ ∃ vs t, Repeats g p s vs t ∧ r = ⟨t, .ok (.list vs)⟩ := by
  constructor
  · rintro ⟨depth, h⟩
    exact repeats_of_gives_rule hrec depth h
  · rintro ⟨vs, t, h, rfl⟩
    exact h.replies_rule hrec

/-! ## Rounds without end -/

theorem not_repeats_of_alike {vs : List Value} (hp : Replies g p s ⟨t, .ok v⟩) (ha : s.Alike t) :
    ¬ Repeats g p s vs u := by
  intro h
  induction h generalizing t v with
  | stop hfail => cases hp.unique hfail
  | more hp' hrest ih =>
    cases hp.unique hp'
    cases hrest with
    | stop hfail => cases (hp.alike ha hfail).outcome
    | more hp'' hrest' => exact ih hp'' ((hp.alike ha hp'').state.alike ha)

/-- A guard of the loop fires: the round from `s` to `t` stays in place, or begins beyond the end. -/
abbrev NoProgress (s t : State) : Prop := t.position = s.position ∨ s.source.size < s.position

/-- Where a guard of the loop fires, the round ends in a state alike to its start. -/
theorem State.Leads.alike (h : s.Leads t) (hguard : NoProgress s t) : s.Alike t := by
  have hsource := h.source
  have hforward := h.forward
  rcases hguard with hstill | hbeyond
  · obtain rfl : t = s := by
      cases s
      cases t
      simp_all
    exact .refl _
  · refine State.alike_of_beyond hbeyond ?_
    rw [hsource]
    omega

/-- A repetition that starts at `s` comes to a round in which a guard of the loop fires. -/
inductive Stuck (g : Grammar) (p : Parser) : State → Prop
  | here {s t : State} {v : Value} : Replies g p s ⟨t, .ok v⟩ →
      NoProgress s t → Stuck g p s
  | later {s t : State} {v : Value} : Replies g p s ⟨t, .ok v⟩ → Stuck g p t → Stuck g p s

theorem Stuck.not_repeats {vs : List Value} (h : Stuck g p s) : ¬ Repeats g p s vs t := by
  intro hrep
  induction h generalizing vs with
  | here hp hguard => exact not_repeats_of_alike hp (hp.leads.alike hguard) hrep
  | later hp _ ih =>
    cases hrep with
    | stop hfail => cases hp.unique hfail
    | more hp' hrest =>
      cases hp.unique hp'
      exact ih hrest

/-- The number of characters ahead, and one more for the end; nothing is ahead of a state beyond it. -/
def State.ahead (s : State) : Nat := (s.source.size + 1 - s.position).toNat

theorem State.ahead_lt_rounds (s : State) : s.ahead < s.rounds := by
  unfold ahead rounds
  omega

theorem State.Leads.ahead_lt (h : s.Leads t)
    (hguard : ¬ NoProgress s t) : t.ahead < s.ahead := by
  have hforward := h.forward
  unfold State.ahead
  rw [h.source]
  omega

/-- A repetition whose applications all return comes to its end or to a guard: until then there is less
and less ahead. -/
theorem repeats_or_stuck (happly : ∀ t, Applies g p s t → ∃ r, Replies g p t r) :
    (∃ vs t, Repeats g p s vs t) ∨ Stuck g p s := by
  induction hn : s.ahead using Nat.strongRecOn generalizing s with
  | ind n ih =>
    obtain ⟨⟨t, v | e⟩, hp⟩ := happly s (.here s)
    · by_cases hguard : NoProgress s t
      · exact .inr (.here hp hguard)
      · have hleads : s.Leads t := hp.leads
        have hahead : t.ahead < n := hn ▸ hleads.ahead_lt hguard
        rcases ih t.ahead hahead (fun u hu => happly u (.next hp hu)) rfl with ⟨vs, u, h⟩ | h
        · exact .inl ⟨v :: vs, u, .more hp h⟩
        · exact .inr (.later hp h)
    · exact .inl ⟨[], s, .stop hp⟩

/-! ## The loop -/

/-- The loop of a repetition, standing at `s` after the values `past`, the latest first. -/
def manyLoop (g : Grammar) (p : Parser) (depth rounds : Nat) (s : State) (past : List Value) :
    Evaluation Reply :=
  iterate (Behaviour.manyRound (eval g depth p)) rounds ⟨s, past⟩

theorem gives_manyRound_iff {b : Behaviour} {now : Behaviour.Progress}
    {x : Round Behaviour.Progress Reply} : (Behaviour.manyRound b now).Gives x ↔
      (∃ t e, (b now.current).Gives ⟨t, .err e⟩ ∧
        x = .done ⟨now.current, .ok (.list now.values.reverse)⟩) ∨
      ∃ t v, (b now.current).Gives ⟨t, .ok v⟩ ∧
        x = if NoProgress now.current t then .done ⟨now.current, .err .progress⟩
          else .again ⟨t, v :: now.values⟩ := by
  refine gives_bind_iff.trans ⟨?_, ?_⟩
  · rintro ⟨⟨t, v | e⟩, hp, h⟩
    · refine .inr ⟨t, v, hp, ?_⟩
      by_cases hguard : NoProgress now.current t
      · simp only [if_pos hguard] at h ⊢
        exact gives_pure_iff.1 h
      · simp only [if_neg hguard] at h ⊢
        exact gives_pure_iff.1 h
    · exact .inl ⟨t, e, hp, gives_pure_iff.1 h⟩
  · rintro (⟨t, e, hp, rfl⟩ | ⟨t, v, hp, rfl⟩)
    · exact ⟨_, hp, gives_pure_iff.2 rfl⟩
    · refine ⟨_, hp, ?_⟩
      simp only
      split <;> exact gives_pure_iff.2 rfl

section
variable {rounds : Nat} {past : List Value}

theorem manyLoop_stop {e : Expected} (hp : Replies g p s ⟨t, .err e⟩) :
    ∀ᶠ depth in atTop,
      (manyLoop g p depth (rounds + 1) s past).Gives ⟨s, .ok (.list past.reverse)⟩ := by
  filter_upwards [hp.eventually] with depth hp
  exact gives_iterate_succ_iff.2 (.inr (gives_manyRound_iff.2 (.inl ⟨t, e, hp, rfl⟩)))

theorem manyLoop_guard (hp : Replies g p s ⟨t, .ok v⟩)
    (hguard : NoProgress s t) :
    ∀ᶠ depth in atTop, (manyLoop g p depth (rounds + 1) s past).Gives ⟨s, .err .progress⟩ := by
  filter_upwards [hp.eventually] with depth hp
  refine gives_iterate_succ_iff.2 (.inr (gives_manyRound_iff.2 ?_))
  exact .inr ⟨t, v, hp, (if_pos hguard).symm⟩

theorem manyLoop_again (hp : Replies g p s ⟨t, .ok v⟩)
    (hguard : ¬ NoProgress s t)
    (hloop : ∀ᶠ depth in atTop, (manyLoop g p depth rounds t (v :: past)).Gives r) :
    ∀ᶠ depth in atTop, (manyLoop g p depth (rounds + 1) s past).Gives r := by
  filter_upwards [hp.eventually, hloop] with depth hp hloop
  refine gives_iterate_succ_iff.2 (.inl ⟨_, gives_manyRound_iff.2 ?_, hloop⟩)
  exact .inr ⟨t, v, hp, (if_neg hguard).symm⟩

theorem Repeats.eventually_gives {vs : List Value} (h : Repeats g p s vs t)
    (hrounds : s.ahead < rounds) : ∀ᶠ depth in atTop,
      (manyLoop g p depth rounds s past).Gives ⟨t, .ok (.list (past.reverse ++ vs))⟩ := by
  induction h generalizing rounds past with
  | stop hp =>
    obtain ⟨n, rfl⟩ : ∃ n, rounds = n + 1 := ⟨rounds - 1, by omega⟩
    simpa using manyLoop_stop hp
  | @more s t u v vs hp hrest ih =>
    obtain ⟨n, rfl⟩ : ∃ n, rounds = n + 1 := ⟨rounds - 1, by omega⟩
    have hleads : s.Leads t := hp.leads
    have hguard : ¬ NoProgress s t := fun h =>
      not_repeats_of_alike hp (hleads.alike h) (.more hp hrest)
    have hahead := hleads.ahead_lt hguard
    have hloop := @ih n (v :: past) (by omega)
    rw [List.reverse_cons, List.append_assoc] at hloop
    exact manyLoop_again hp hguard hloop

theorem Stuck.eventually_gives (h : Stuck g p s) (hrounds : s.ahead < rounds) :
    ∃ t, ∀ᶠ depth in atTop, (manyLoop g p depth rounds s past).Gives ⟨t, .err .progress⟩ := by
  induction h generalizing rounds past with
  | here hp hguard =>
    obtain ⟨n, rfl⟩ : ∃ n, rounds = n + 1 := ⟨rounds - 1, by omega⟩
    exact ⟨_, manyLoop_guard hp hguard⟩
  | @later s t v hp _ ih =>
    obtain ⟨n, rfl⟩ : ∃ n, rounds = n + 1 := ⟨rounds - 1, by omega⟩
    by_cases hguard : NoProgress s t
    · exact ⟨s, manyLoop_guard hp hguard⟩
    · have hleads : s.Leads t := hp.leads
      have hahead := hleads.ahead_lt hguard
      obtain ⟨u, hloop⟩ := @ih n (v :: past) (by omega)
      exact ⟨u, manyLoop_again hp hguard hloop⟩

end

theorem replies_many_of_eventually
    (hloop : ∀ᶠ depth in atTop, (manyLoop g p depth s.rounds s []).Gives r) :
    Replies g (.many p) s r :=
  replies_of_eventually_succ hloop

theorem Repeats.replies_many {vs : List Value} (h : Repeats g p s vs t) :
    Replies g (.many p) s ⟨t, .ok (.list vs)⟩ :=
  replies_many_of_eventually (h.eventually_gives s.ahead_lt_rounds)

/-- A repetition that has to have a first round fails if there is none, and makes no difference otherwise. -/
theorem Repeats.exists_many1_reply {vs : List Value} (h : Repeats g p s vs t) :
    ∃ o, Replies g (Parser.many1 p) s ⟨t, o⟩ ∧
      if vs = [] then ∃ u e, Replies g p s ⟨u, .err e⟩ ∧ o = .err e else o = .ok (.list vs) := by
  cases h with
  | @stop _ u e hfail =>
    refine ⟨.err e, hfail.bind_err, ?_⟩
    rw [if_pos rfl]
    exact ⟨u, e, hfail, rfl⟩
  | more hp hrest =>
    refine ⟨_, hp.bind (hrest.replies_many.map (Value.cons _)), ?_⟩
    rw [if_neg (List.cons_ne_nil _ _)]
    rfl

theorem Repeats.replies_many1 {vs : List Value} (h : Repeats g p s (v :: vs) t) :
    Replies g (Parser.many1 p) s ⟨t, .ok (.list (v :: vs))⟩ := by
  obtain ⟨o, hreply, ho⟩ := h.exists_many1_reply
  rw [if_neg (List.cons_ne_nil _ _)] at ho
  exact ho ▸ hreply

/-- What the loop gives is a repetition that has come to its end, or the failure of a guard. -/
theorem repeats_or_stuck_of_gives_loop {depth rounds : Nat} {past : List Value}
    (h : (manyLoop g p depth rounds s past).Gives r) :
    (∃ vs t, Repeats g p s vs t ∧ r = ⟨t, .ok (.list (past.reverse ++ vs))⟩) ∨
      Stuck g p s ∧ ∃ t, r = ⟨t, .err .progress⟩ := by
  induction rounds generalizing s past with
  | zero => exact absurd h (not_gives_endless r)
  | succ rounds ih =>
    obtain ⟨y, hround, hrest⟩ | hround := gives_iterate_succ_iff.1 h
    all_goals obtain ⟨t, e, hp, hx⟩ | ⟨t, v, hp, hx⟩ := gives_manyRound_iff.1 hround
    all_goals have hp : Replies g p s _ := ⟨depth, hp⟩
    · cases hx
    · by_cases hguard : NoProgress s t
      · rw [if_pos hguard] at hx
        cases hx
      · rw [if_neg hguard] at hx
        cases hx
        obtain ⟨vs, u, hrepeats, rfl⟩ | ⟨hstuck, u, rfl⟩ := ih hrest
        · exact .inl ⟨v :: vs, u, .more hp hrepeats, by simp⟩
        · exact .inr ⟨.later hp hstuck, u, rfl⟩
    · cases hx
      exact .inl ⟨[], s, .stop hp, by simp⟩
    · by_cases hguard : NoProgress s t
      · rw [if_pos hguard] at hx
        cases hx
        exact .inr ⟨.here hp hguard, s, rfl⟩
      · rw [if_neg hguard] at hx
        cases hx

theorem Stuck.replies_many (h : Stuck g p s) : ∃ t, Replies g (.many p) s ⟨t, .err .progress⟩ := by
  obtain ⟨t, hloop⟩ := h.eventually_gives s.ahead_lt_rounds
  exact ⟨t, replies_many_of_eventually hloop⟩

/-- The loop has the replies of repetitions that come to an end, and others only where it is stuck. -/
theorem Replies.repeats_or_stuck (h : Replies g (.many p) s r) :
    (∃ vs t, Repeats g p s vs t ∧ r = ⟨t, .ok (.list vs)⟩) ∨
      Stuck g p s ∧ ∃ t, r = ⟨t, .err .progress⟩ := by
  obtain ⟨depth, h⟩ := h.exists_succ
  exact repeats_or_stuck_of_gives_loop h

/-! ## Agreement -/

/-- Wherever the applications of `p` return, the loop has the reply of the recursive definition if that
comes to an end, and its progress failure exactly if it does not. -/
theorem many_agrees_with_recursion (hrec : g name = .manyRecursive name p)
    (happly : ∀ t, Applies g p s t → ∃ r, Replies g p t r) :
    (∀ r, Replies g (.rule name) s r → Replies g (.many p) s r) ∧
      ((¬ ∃ r, Replies g (.rule name) s r) ↔ ∃ t e, Replies g (.many p) s ⟨t, .err e⟩ ∧
        e.describe = "many: parser succeeded without consuming input") := by
  rcases repeats_or_stuck happly with ⟨vs, t, h⟩ | h
  · have hrule := h.replies_rule hrec
    refine ⟨fun r hr => hr.unique hrule ▸ h.replies_many, fun hnone => absurd ⟨_, hrule⟩ hnone, ?_⟩
    rintro ⟨u, e, herr, -⟩
    cases h.replies_many.unique herr
  · have hnone : ¬ ∃ r, Replies g (.rule name) s r := by
      rintro ⟨r, hr⟩
      obtain ⟨vs, u, hrep, -⟩ := (replies_manyRecursive_iff hrec).1 hr
      exact h.not_repeats hrep
    obtain ⟨t, hmany⟩ := h.replies_many
    exact ⟨fun r hr => absurd ⟨r, hr⟩ hnone, fun _ => ⟨t, .progress, hmany, rfl⟩, fun _ => hnone⟩

/-- The end of the input, repeated: the loop stops beyond the end, where the recursion goes on. -/
theorem many_agrees_with_recursion_endOfInput :
    let g : Grammar := fun name => .manyRecursive name .endOfInput
    let s : State := .start #[]
    (∀ t, Applies g .endOfInput s t → ∃ r, Replies g .endOfInput t r) ∧
      Replies g (.many .endOfInput) s ⟨⟨1, #[]⟩, .err .progress⟩ ∧
      ¬ ∃ r, Replies g (.rule "ends") s r := by
  intro g s
  have happly : ∀ t, Applies g .endOfInput s t → ∃ r, Replies g .endOfInput t r :=
    fun t _ => ⟨t.readEnd, 1, gives_pure_iff.2 rfl⟩
  have hmany : Replies g (.many .endOfInput) s ⟨⟨1, #[]⟩, .err .progress⟩ := ⟨2, by decide⟩
  have h := many_agrees_with_recursion (rfl : g "ends" = _) happly
  exact ⟨happly, hmany, h.2.2 ⟨_, _, hmany, rfl⟩⟩

end Descent
