import Descent.Proofs.Beyond
import Descent.Proofs.Choice

/-!
# Lists that may be empty

A list that may be empty is a choice: a separated list, or else nothing. The choice looks at the position of
a failure and not at what has failed, so what matters is which failures of the list are at its start. An item
that fails at the start is one. A list that ends in a separator fails behind one that has moved
(`Link.unwind_cases`), hence never at the start. And a list that stands still fails where it does so: behind
the first item, if that one has not moved, this is the start again (`sepBy1_declines_iff`). There the choice
takes a list with an item in it for one without.
-/

namespace Descent

open Evaluation Descent.Parser

variable {g : Grammar} {p sep : Parser} {s t a c : State} {v w : Value} {r : Reply} {n k : Nat} {l : Log}

/-! ## The last round -/

/-- A chain that comes undone ends the list, or else fails behind a separator that has moved. -/
theorem Link.unwind_cases (e : Expected) (latest : Link) (chain : List Link) :
    (∃ t vs, vs ≠ [] ∧ latest.unwind e chain = ⟨t, .ok (.list vs)⟩) ∨
      ∃ link ∈ latest :: chain, link.after.position ≠ link.before.position ∧
        latest.unwind e chain = ⟨link.after, .err e⟩ := by
  induction chain generalizing latest with
  | nil =>
    unfold unwind
    by_cases hstill : latest.after.position = latest.before.position
    · rw [if_pos hstill]
      exact .inl ⟨_, _, by simp [items], rfl⟩
    · rw [if_neg hstill]
      exact .inr ⟨latest, List.mem_cons_self, hstill, rfl⟩
  | cons earlier chain ih =>
    unfold unwind
    by_cases hstill : latest.after.position = latest.before.position
    · rw [if_pos hstill]
      exact .inl ⟨_, _, by simp [items], rfl⟩
    · rw [if_neg hstill]
      obtain hlist | ⟨link, hmem, hmoved, hr⟩ := ih earlier
      · exact .inl hlist
      · exact .inr ⟨link, List.mem_cons_of_mem _ hmem, hmoved, hr⟩

namespace Behaviour

structure Chain.Forward (s : State) (d : Chain) : Prop where
  current : s.Leads d.current
  links : ∀ link ∈ d.links, s.Leads link.before ∧ link.before.Leads link.after

theorem Chain.forward_start (s : State) (v : Value) : Chain.Forward s ⟨s, v, []⟩ :=
  ⟨State.leads_passage.refl s, fun _ hmem => absurd hmem List.not_mem_nil⟩

theorem Chain.Forward.link {d : Chain} (hd : d.Forward s) (ha : d.current.Leads a) :
    ∀ link ∈ ⟨d.last, d.current, a⟩ :: d.links, s.Leads link.before ∧ link.before.Leads link.after := by
  intro link hmem
  obtain rfl | hmem := List.mem_cons.1 hmem
  · exact ⟨hd.current, ha⟩
  · exact hd.links link hmem

theorem Chain.Forward.again {d d' : Chain} (hd : d.Forward s)
    (h : (sepByRound (eval g n p) (eval g n sep) d).ending = .returned (.again d')) : d'.Forward s := by
  obtain ⟨hleads, -⟩ := sepByRound_forward h
  obtain ⟨a, w, t, v, hsep, -, -, rfl⟩ := sepByRound_again_iff.1 h
  exact ⟨hd.current.trans hleads, hd.link (eval_leads g n sep _ _ hsep)⟩

theorem Chain.Forward.turns {d d' : Chain} (hd : d.Forward s)
    (h : Turns (sepByRound (eval g n p) (eval g n sep)) k d l d') : d'.Forward s := by
  induction h with
  | start d => exact hd
  | next hround _ ih => exact ih (hd.again (congrArg Evaluation.ending hround))

end Behaviour

/-- A separator and the item behind it both succeed at `s`, and neither moves. -/
def StandsStill (g : Grammar) (n : Nat) (p sep : Parser) (s : State) : Prop :=
  ∃ a w t v, (eval g n sep s).ending = .returned ⟨a, .ok w⟩ ∧ a.position = s.position ∧
    (eval g n p a).ending = .returned ⟨t, .ok v⟩ ∧ t.position = a.position

theorem StandsStill.round {d : Behaviour.Chain} (h : StandsStill g n p sep d.current) :
    (Behaviour.sepByRound (eval g n p) (eval g n sep) d).ending =
      .returned (.done ⟨d.current, .err .separatedProgress⟩) := by
  obtain ⟨a, w, t, v, hsep, ha, hp, ht⟩ := h
  exact sepByRound_done_iff.2 (.inr ⟨a, w, hsep, .inr ⟨t, v, hp, ht.trans ha, rfl⟩⟩)

/-- The last round leaves a list with an item in it, or a failure ahead of the start, or it stands still. -/
theorem sepByRound_done_cases {d : Behaviour.Chain} (hd : d.Forward s)
    (h : (Behaviour.sepByRound (eval g n p) (eval g n sep) d).ending = .returned (.done r)) :
    (∃ t vs, vs ≠ [] ∧ r = ⟨t, .ok (.list vs)⟩) ∨
      (∃ t e, s.position < t.position ∧ r = ⟨t, .err e⟩) ∨
      (StandsStill g n p sep d.current ∧ r = ⟨d.current, .err .separatedProgress⟩) := by
  obtain ⟨a, e, -, hr⟩ | ⟨a, w, hsep, ⟨t, e, -, hr⟩ | ⟨t, v, hp, hstill, hr⟩⟩ := sepByRound_done_iff.1 h
  · exact .inl ⟨_, _, by simp, hr⟩
  · have hleads : d.current.Leads a := eval_leads g n sep _ _ hsep
    obtain ⟨t, vs, hne, hlist⟩ | ⟨link, hmem, hmoved, herr⟩ :=
      Link.unwind_cases e ⟨d.last, d.current, a⟩ d.links
    · exact .inl ⟨t, vs, hne, hr.trans hlist⟩
    · obtain ⟨hbefore, hafter⟩ := hd.link hleads link hmem
      have hstart := hbefore.forward
      have hforward := hafter.forward
      exact .inr (.inl ⟨link.after, e, by omega, hr.trans herr⟩)
  · -- The round compares its two ends only, but nothing moves backward in between.
    have hseparator : d.current.position ≤ a.position := (eval_leads g n sep _ _ hsep).forward
    have hitem : a.position ≤ t.position := (eval_leads g n p _ _ hp).forward
    exact .inr (.inr ⟨⟨a, w, t, v, hsep, by omega, hp, by omega⟩, hr⟩)

/-! ## Standing still -/

/-- From `s` a separated list comes to `t` with its first item and to `c` with `k` more, and there it stands
still. -/
def StallsAt (g : Grammar) (n : Nat) (p sep : Parser) (s t : State) (k : Nat) (c : State) : Prop :=
  ∃ v l d, (eval g n p s).ending = .returned ⟨t, .ok v⟩ ∧
    Turns (Behaviour.sepByRound (eval g n p) (eval g n sep)) k ⟨t, v, []⟩ l d ∧ d.current = c ∧
    StandsStill g n p sep c

theorem StallsAt.position (h : StallsAt g n p sep s t k c) :
    s.position ≤ t.position ∧ t.position + k ≤ c.position := by
  obtain ⟨v, l, d, hp, hturns, rfl, -⟩ := h
  exact ⟨(eval_leads g n p _ _ hp).forward, (turns_sepByRound_position hturns).2⟩

theorem StallsAt.eq_of_zero (h : StallsAt g n p sep s t 0 c) : c = t := by
  obtain ⟨v, l, d, -, hturns, rfl, -⟩ := h
  cases hturns
  rfl

/-- A list stands still at the start only if the first item has not moved and no other one has been read. -/
theorem StallsAt.position_eq_iff (h : StallsAt g n p sep s t k c) :
    c.position = s.position ↔ k = 0 ∧ t.position = s.position := by
  obtain ⟨hitem, hmore⟩ := h.position
  constructor
  · intro hc
    omega
  · intro ⟨hk, ht⟩
    subst hk
    rw [h.eq_of_zero, ht]

theorem sepBy1_returns_iff : (eval g (n + 1) (.sepBy1 p sep) s).ending = .returned r ↔
    (∃ t v, (eval g n p s).ending = .returned ⟨t, .ok v⟩ ∧
      (iterate (Behaviour.sepByRound (eval g n p) (eval g n sep)) t.rounds ⟨t, v, []⟩).ending =
        .returned r) ∨
    ∃ t e, (eval g n p s).ending = .returned ⟨t, .err e⟩ ∧ r = ⟨s, .err e⟩ := by
  rw [eval_sepBy1]
  refine bind_returns_iff.trans ⟨?_, ?_⟩
  · intro h
    obtain ⟨⟨t, v | e⟩, hp, h⟩ := h
    · exact .inl ⟨t, v, hp, h⟩
    · cases h
      exact .inr ⟨t, e, hp, rfl⟩
  · intro h
    obtain ⟨t, v, hp, h⟩ | ⟨t, e, hp, rfl⟩ := h
    · exact ⟨_, hp, h⟩
    · exact ⟨_, hp, rfl⟩

theorem StallsAt.sepBy1 (h : StallsAt g n p sep s t k c) :
    (eval g (n + 1) (.sepBy1 p sep) s).ending = .returned ⟨c, .err .separatedProgress⟩ := by
  obtain ⟨v, l, d, hp, hturns, rfl, hstill⟩ := h
  have hrounds : k < t.rounds := turns_sepByRound_lt_rounds hturns hstill.round
  exact sepBy1_returns_iff.2 (.inl ⟨t, v, hp, hturns.returns hstill.round hrounds⟩)

/-- Of the replies of a separated list those are at its start that tell of an item which is not there, or
of a round behind the first item in which nothing has moved. -/
theorem sepBy1_reply_cases (h : (eval g (n + 1) (.sepBy1 p sep) s).ending = .returned r) :
    (∃ t vs, vs ≠ [] ∧ r = ⟨t, .ok (.list vs)⟩) ∨
      (∃ t e, s.position < t.position ∧ r = ⟨t, .err e⟩) ∨
      (∃ t e, (eval g n p s).ending = .returned ⟨t, .err e⟩ ∧ r = ⟨s, .err e⟩) ∨
      ∃ t k c, StallsAt g n p sep s t k c ∧ r = ⟨c, .err .separatedProgress⟩ := by
  obtain ⟨t, v, hp, hloop⟩ | hitem := sepBy1_returns_iff.1 h
  · obtain ⟨k, m, l, d, -, hturns, hdone⟩ := exists_turns_of_iterate hloop
    have hfirst : s.Leads t := eval_leads g n p _ _ hp
    have hforward := (Behaviour.Chain.forward_start t v).turns hturns
    obtain hlist | ⟨u, e, hahead, hr⟩ | ⟨hstill, hr⟩ := sepByRound_done_cases hforward hdone
    · exact .inl hlist
    · exact .inr (.inl ⟨u, e, Int.lt_of_le_of_lt hfirst.forward hahead, hr⟩)
    · exact .inr (.inr (.inr ⟨t, k, d.current, ⟨v, l, d, hp, hturns, rfl, hstill⟩, hr⟩))
  · exact .inr (.inr (.inl hitem))

theorem sepBy1_declines_iff :
    (∃ r, (eval g (n + 1) (.sepBy1 p sep) s).ending = .returned r ∧ r.Declines s) ↔
      (∃ t e, (eval g n p s).ending = .returned ⟨t, .err e⟩) ∨
      ∃ t c, StallsAt g n p sep s t 0 c ∧ t.position = s.position := by
  constructor
  · intro ⟨r, hr, hdeclines⟩
    obtain ⟨t, vs, -, rfl⟩ | ⟨t, e, hahead, rfl⟩ | ⟨t, e, hp, -⟩ | ⟨t, k, c, hstalls, rfl⟩ :=
      sepBy1_reply_cases hr
    · exact absurd hdeclines (Reply.not_declines_ok s t _)
    · have hstill := Reply.declines_err_iff.1 hdeclines
      omega
    · exact .inl ⟨t, e, hp⟩
    · obtain ⟨hk, ht⟩ := hstalls.position_eq_iff.1 (Reply.declines_err_iff.1 hdeclines)
      subst hk
      exact .inr ⟨t, c, hstalls, ht⟩
  · intro h
    obtain ⟨t, e, hp⟩ | ⟨t, c, hstalls, ht⟩ := h
    · exact ⟨_, sepBy1_returns_iff.2 (.inr ⟨t, e, hp, rfl⟩), rfl, rfl⟩
    · exact ⟨_, hstalls.sepBy1, rfl, hstalls.position_eq_iff.2 ⟨rfl, ht⟩⟩

/-! ## The choice -/

theorem sepBy_of_declines (h : (eval g (n + 1) (.sepBy1 p sep) s).ending = .returned r)
    (hr : r.Declines s) : (eval g (n + 2) (p.sepBy sep) s).ending = .returned ⟨s, .ok (.list [])⟩ := by
  cases n with
  | zero =>
    -- The item would have no level.
    obtain ⟨t, v, hp, -⟩ | ⟨t, e, hp, -⟩ := sepBy1_returns_iff.1 h <;> cases hp
  | succ m =>
    unfold sepBy
    rw [oneOf_cons, eval_orElse_of_declines (eq_of_ending h) hr]
    rfl

theorem sepBy_of_not_declines
    (h : ¬ ∃ r, (eval g (n + 1) (.sepBy1 p sep) s).ending = .returned r ∧ r.Declines s) :
    eval g (n + 2) (p.sepBy sep) s = eval g (n + 1) (.sepBy1 p sep) s :=
  eval_orElse_of_not_declines fun r hr hdeclines => h ⟨r, hr, hdeclines⟩

theorem sepBy_empty_iff (h : (eval g (n + 2) (p.sepBy sep) s).ending = .returned r) :
    r.outcome = .ok (.list []) ↔
      ∃ r', (eval g (n + 1) (.sepBy1 p sep) s).ending = .returned r' ∧ r'.Declines s := by
  constructor
  · intro hempty
    by_contra hnot
    rw [sepBy_of_not_declines hnot] at h
    obtain ⟨t, vs, hne, rfl⟩ | ⟨t, e, -, rfl⟩ | ⟨t, e, -, rfl⟩ | ⟨t, k, c, -, rfl⟩ := sepBy1_reply_cases h
    · cases hempty
      exact hne rfl
    all_goals cases hempty
  · intro ⟨r', hr', hdeclines⟩
    rw [sepBy_of_declines hr' hdeclines] at h
    cases h
    rfl

/-- A list that stands still fails where it does so, and so does the list that may be empty, unless this is
behind a first item that has not moved: then the failure is one at the start, and the list that may be empty
is empty. Otherwise it is empty only if there is no first item. -/
theorem sepBy_reports_stall_but_at_start (g : Grammar) (n : Nat) (p sep : Parser) (s : State) :
    (∀ t k c, StallsAt g n p sep s t k c →
      (eval g (n + 1) (.sepBy1 p sep) s).ending = .returned ⟨c, .err .separatedProgress⟩ ∧
      (c.position = s.position ↔ k = 0 ∧ t.position = s.position) ∧
      (eval g (n + 2) (p.sepBy sep) s).ending = .returned
        (if k = 0 ∧ t.position = s.position then ⟨s, .ok (.list [])⟩
          else ⟨c, .err .separatedProgress⟩)) ∧
    ∀ r, (eval g (n + 2) (p.sepBy sep) s).ending = .returned r →
      (r.outcome = .ok (.list []) ↔
        (∃ t e, (eval g n p s).ending = .returned ⟨t, .err e⟩) ∨
        ∃ t c, StallsAt g n p sep s t 0 c ∧ t.position = s.position) := by
  refine ⟨fun t k c hstalls => ⟨hstalls.sepBy1, hstalls.position_eq_iff, ?_⟩, fun r hr => ?_⟩
  · by_cases hstart : k = 0 ∧ t.position = s.position
    · rw [if_pos hstart]
      exact sepBy_of_declines hstalls.sepBy1 ⟨rfl, hstalls.position_eq_iff.2 hstart⟩
    · have hnot : ¬ ∃ r, (eval g (n + 1) (.sepBy1 p sep) s).ending = .returned r ∧ r.Declines s := by
        intro ⟨r, hr, hdeclines⟩
        cases hstalls.sepBy1.symm.trans hr
        exact hstart (hstalls.position_eq_iff.1 (Reply.declines_err_iff.1 hdeclines))
      rw [if_neg hstart, sepBy_of_not_declines hnot]
      exact hstalls.sepBy1
  · exact (sepBy_empty_iff hr).trans sepBy1_declines_iff

/-- A list of `a`, each of which may be missing, without separators: from `aa` it comes to the end with two
items, and there it stands still. -/
theorem sepBy_reports_stall_behind_items :
    let g : Grammar := .rule
    let p : Parser := oneOf [char 'a', succeed .unit]
    let sep : Parser := succeed .unit
    let s : State := .start #['a', 'a']
    StallsAt g 4 p sep s (s.advance 1) 1 (s.advance 2) ∧
      (eval g 6 (p.sepBy sep) s).ending = .returned ⟨s.advance 2, .err .separatedProgress⟩ ∧
      ¬ ((∃ t e, (eval g 4 p s).ending = .returned ⟨t, .err e⟩) ∨
        ∃ t c, StallsAt g 4 p sep s t 0 c ∧ t.position = s.position) := by
  intro g p sep s
  have hfirst : (eval g 4 p s).ending = .returned ⟨s.advance 1, .ok .unit⟩ := by decide +kernel
  have hround : (Behaviour.sepByRound (eval g 4 p) (eval g 4 sep) ⟨s.advance 1, .unit, []⟩).ending =
      .returned (.again ⟨s.advance 2, .unit, [⟨.unit, s.advance 1, s.advance 1⟩]⟩) :=
    sepByRound_again_iff.2 ⟨s.advance 1, .unit, s.advance 2, .unit, by decide +kernel,
      by decide +kernel, by decide, rfl⟩
  have hstill : StandsStill g 4 p sep (s.advance 2) :=
    ⟨s.advance 2, .unit, s.advance 2, .unit, by decide +kernel, rfl, by decide +kernel, rfl⟩
  have hstalls : StallsAt g 4 p sep s (s.advance 1) 1 (s.advance 2) :=
    ⟨.unit, _, _, hfirst, .next (eq_of_ending hround) (.start _), rfl, hstill⟩
  obtain ⟨hreports, hempty⟩ := sepBy_reports_stall_but_at_start g 4 p sep s
  obtain ⟨-, -, hlist⟩ := hreports _ _ _ hstalls
  have hmoved : ¬ (1 = 0 ∧ (s.advance 1).position = s.position) := by decide
  rw [if_neg hmoved] at hlist
  refine ⟨hstalls, hlist, fun hstart => ?_⟩
  cases (hempty _ hlist).2 hstart

/-- A value in place of the item and another one in place of the separator stand still at once. -/
theorem not_sepBy_reports_stall :
    ¬ ∀ (g : Grammar) (n : Nat) (p sep : Parser) (s t : State) (k : Nat) (c : State),
      StallsAt g n p sep s t k c → ∃ u,
        (eval g (n + 2) (p.sepBy sep) s).ending = .returned ⟨u, .err .separatedProgress⟩ := by
  intro hreports
  have hstill : StandsStill .rule 1 (succeed (.int 1)) (succeed (.int 2)) (.start #[]) :=
    ⟨.start #[], .int 2, .start #[], .int 1, rfl, rfl, rfl, rfl⟩
  have hstalls : StallsAt .rule 1 (succeed (.int 1)) (succeed (.int 2)) (.start #[]) (.start #[]) 0
      (.start #[]) := ⟨.int 1, _, _, rfl, .start _, rfl, hstill⟩
  obtain ⟨u, hu⟩ := hreports _ _ _ _ _ _ _ _ hstalls
  have hempty : (eval .rule 3 ((succeed (.int 1)).sepBy (succeed (.int 2))) (.start #[])).ending =
      .returned ⟨.start #[], .ok (.list [])⟩ := by decide +kernel
  cases hempty.symm.trans hu

end Descent
