import Descent.Proofs.Repetition

/-!
# Separated lists as a recursion

By its recursive definition a separated list is an item, and then either nothing or a separator and
the list again. When an item fails, each of the nested lists decides for itself what becomes of it:
`Link.absorb` is what the one around a separator makes of the reply of the list behind it.
`Continues g p sep v s r` puts these decisions in a row for the list that stands at `s` after the
item `v`.

The loop keeps the links it has come through and makes the same decisions in the end, the latest link
first: `Link.unwind` is `Link.absorb` of one link after the other (`Link.unwind_eq_windUp`). That leaves
rounds without progress. As with `many`, a round between alike states goes on for ever in the
recursion (`not_continues_of_alike`); the loop stops if it did not move at all (`Stalls`), and beyond the
end it is endless as well.
-/

namespace Descent

open Evaluation Filter

variable {g : Grammar} {p sep : Parser} {name : String} {s t a : State} {u v w : Value} {r : Reply}

/-- A separated list as the body of the recursive rule `name`. -/
def Parser.sepBy1Recursive (name : String) (p sep : Parser) : Parser :=
  p.bind fun v =>
    oneOf [(attempt sep).bind fun _ => (rule name).map (Value.cons v), succeed (.list [v])]

namespace Link

/-- The reply of a list whose first link is this one, from the reply of the list behind it. -/
def absorb (link : Link) : Reply → Reply
  | ⟨t, .ok vs⟩ => ⟨t, .ok (.cons link.item vs)⟩
  | ⟨_, .err e⟩ =>
    if link.after.position = link.before.position then ⟨link.before, .ok (.list [link.item])⟩
    else ⟨link.after, .err e⟩

/-- The reply of a list from the reply behind its links, of which the latest comes first. -/
def windUp (chain : List Link) (r : Reply) : Reply := chain.foldl (fun r link => link.absorb r) r

@[simp] theorem items_cons (link : Link) (chain : List Link) :
    items (link :: chain) = items chain ++ [link.item] := by
  simp [items]

theorem windUp_cons (link : Link) (chain : List Link) (r : Reply) :
    windUp (link :: chain) r = windUp chain (link.absorb r) := rfl

theorem windUp_ok (chain : List Link) (t : State) (vs : List Value) :
    windUp chain ⟨t, .ok (.list vs)⟩ = ⟨t, .ok (.list (items chain ++ vs))⟩ := by
  induction chain generalizing vs with
  | nil => rfl
  | cons link chain ih =>
    rw [windUp_cons, absorb, Value.cons_list, ih]
    simp

theorem unwind_eq_windUp (e : Expected) (latest : Link) (chain : List Link) (t : State) :
    latest.unwind e chain = windUp (latest :: chain) ⟨t, .err e⟩ := by
  induction chain generalizing latest t with
  | nil => rfl
  | cons earlier chain ih =>
    rw [unwind, windUp_cons, absorb]
    split
    · rw [windUp_ok, items_cons]
    · exact ih earlier latest.after

end Link

/-! ## The recursion -/

/-- A list that stands at `s` after the item `v` comes to the reply `r`, in which `v` is the first item. -/
inductive Continues (g : Grammar) (p sep : Parser) : Value → State → Reply → Prop
  | last {v : Value} {s t : State} {e : Expected} :
      Replies g sep s ⟨t, .err e⟩ → Continues g p sep v s ⟨s, .ok (.list [v])⟩
  | trailing {v w : Value} {s a t : State} {e : Expected} :
      Replies g sep s ⟨a, .ok w⟩ → Replies g p a ⟨t, .err e⟩ →
        Continues g p sep v s (Link.absorb ⟨v, s, a⟩ ⟨a, .err e⟩)
  | more {u v w : Value} {s a t : State} {r : Reply} :
      Replies g sep s ⟨a, .ok w⟩ → Replies g p a ⟨t, .ok u⟩ → Continues g p sep u t r →
        Continues g p sep v s (Link.absorb ⟨v, s, a⟩ r)

/-- A list that starts at `s` comes to the reply `r`. -/
inductive Separates (g : Grammar) (p sep : Parser) : State → Reply → Prop
  | noItem {s t : State} {e : Expected} :
      Replies g p s ⟨t, .err e⟩ → Separates g p sep s ⟨s, .err e⟩
  | item {v : Value} {s t : State} {r : Reply} :
      Replies g p s ⟨t, .ok v⟩ → Continues g p sep v t r → Separates g p sep s r

theorem Continues.step (hsep : Replies g sep s ⟨a, .ok w⟩) (h : Separates g p sep a r) :
    Continues g p sep v s (Link.absorb ⟨v, s, a⟩ r) := by
  cases h with
  | noItem hp => exact .trailing hsep hp
  | item hp hrest => exact .more hsep hp hrest

theorem separates_of_gives_rule (hrec : g name = .sepBy1Recursive name p sep) (depth : Nat)
    (h : (eval g depth (.rule name) s).Gives r) : Separates g p sep s r := by
  induction depth using Nat.strongRecOn generalizing s r with
  | ind depth ih =>
    obtain ⟨i, hi, h⟩ := gives_rule_inv h
    rw [hrec] at h
    obtain ⟨j, hj, ⟨t, v, hp, h⟩ | ⟨t, e, hp, rfl⟩⟩ := gives_bind_inv h
    · refine .item ⟨j, hp⟩ ?_
      obtain ⟨k, hk, ⟨x, ws, hlink, rfl⟩ | ⟨x, e, hlink, rfl⟩⟩ := gives_oneOf_succeed_inv h
      all_goals obtain ⟨l, hl, ⟨a, w, htry, hmap⟩ | ⟨a, e', htry, hstart⟩⟩ := gives_bind_inv hlink
      · obtain ⟨m, hm, ⟨_, _, hsep, ha⟩ | ⟨_, _, -, hbad⟩⟩ := gives_attempt_inv htry
        · cases ha
          obtain ⟨n, hn, ⟨_, vs, hrule, hcons⟩ | ⟨_, _, -, hbad⟩⟩ := gives_map_inv hmap
          · cases hcons
            exact .step ⟨m, hsep⟩ (ih n (by omega) hrule)
          · cases hbad
        · cases hbad
      · cases hstart
      · obtain ⟨m, hm, ⟨_, _, hsep, ha⟩ | ⟨_, _, -, hbad⟩⟩ := gives_attempt_inv htry
        · cases ha
          obtain ⟨n, hn, ⟨_, _, -, hbad⟩ | ⟨y, _, hrule, herr⟩⟩ := gives_map_inv hmap
          · cases hbad
          · cases herr
            exact .step ⟨m, hsep⟩ (ih n (by omega) hrule)
        · cases hbad
      · cases hstart
        obtain ⟨m, hm, ⟨_, _, -, hbad⟩ | ⟨y, _, hsep, -⟩⟩ := gives_attempt_inv htry
        · cases hbad
        · rw [if_pos rfl]
          exact .last ⟨m, hsep⟩
    · exact .noItem ⟨j, hp⟩

/-- What follows an item in the recursion, from the reply of the list behind a separator. -/
theorem replies_absorb (hsep : Replies g sep s ⟨a, .ok w⟩) (h : Replies g (.rule name) a r) :
    Replies g (Parser.oneOf [(Parser.attempt sep).bind fun _ => (Parser.rule name).map (Value.cons v),
      .succeed (.list [v])]) s (Link.absorb ⟨v, s, a⟩ r) := by
  have htry : Replies g (.attempt sep) s ⟨a, .ok w⟩ := replies_attempt_iff.2 (.inl ⟨a, w, hsep, rfl⟩)
  rw [replies_oneOf_succeed_iff]
  obtain ⟨t, vs | e⟩ := r
  · exact .inl ⟨t, .cons v vs, htry.bind (h.map (Value.cons v)), rfl⟩
  · have hmap : Replies g ((Parser.rule name).map (Value.cons v)) a ⟨a, .err e⟩ :=
      replies_map_iff.2 (.inr ⟨t, e, h, rfl⟩)
    exact .inr ⟨a, e, htry.bind hmap, rfl⟩

theorem Continues.replies (hrec : g name = .sepBy1Recursive name p sep)
    (h : Continues g p sep v s r) :
    Replies g (Parser.oneOf [(Parser.attempt sep).bind fun _ => (Parser.rule name).map (Value.cons v),
      .succeed (.list [v])]) s r := by
  induction h with
  | @last v s t e hsep =>
    rw [replies_oneOf_succeed_iff]
    have htry : Replies g (.attempt sep) s ⟨s, .err e⟩ :=
      replies_attempt_iff.2 (.inr ⟨t, e, hsep, rfl⟩)
    exact .inr ⟨s, e, htry.bind_err, (if_pos rfl).symm⟩
  | @trailing v w s a t e hsep hp =>
    refine replies_absorb hsep (replies_rule_iff.2 ?_)
    rw [hrec]
    exact hp.bind_err
  | more hsep hp _ ih =>
    refine replies_absorb hsep (replies_rule_iff.2 ?_)
    rw [hrec]
    exact hp.bind ih

theorem replies_sepBy1Recursive_iff (hrec : g name = .sepBy1Recursive name p sep) :
    Replies g (.rule name) s r ↔ Separates g p sep s r := by
  constructor
  · rintro ⟨depth, h⟩
    exact separates_of_gives_rule hrec depth h
  · intro h
    rw [replies_rule_iff, hrec]
    cases h with
    | noItem hp => exact hp.bind_err
    | item hp hrest => exact hp.bind (hrest.replies hrec)

/-! ## Rounds without end -/

/-- Rounds that begin in alike states move equally far. -/
theorem abreast_of_round {s' a' t' : State} {w' u' : Value} (hsep : Replies g sep s ⟨a, .ok w⟩)
    (hp : Replies g p a ⟨t, .ok u⟩) (hsep' : Replies g sep s' ⟨a', .ok w'⟩)
    (hp' : Replies g p a' ⟨t', .ok u'⟩) (h : s.Alike s') : State.Abreast s s' t t' := by
  have hafter := (hsep.alike h hsep').state
  exact hafter.trans (hp.alike (hafter.alike h) hp').state

theorem not_continues_of_alike (hsep : Replies g sep s ⟨a, .ok w⟩) (hp : Replies g p a ⟨t, .ok u⟩)
    (ha : s.Alike t) : ¬ Continues g p sep v s r := by
  intro h
  induction h generalizing a t w u with
  | last hfail => cases hsep.unique hfail
  | trailing hsep' hfail =>
    cases hsep.unique hsep'
    cases hp.unique hfail
  | more hsep' hp' hrest ih =>
    cases hsep.unique hsep'
    cases hp.unique hp'
    cases hrest with
    | last hfail => cases (hsep.alike ha hfail).outcome
    | trailing hsep'' hfail =>
      have hafter := (hsep.alike ha hsep'').state
      cases (hp.alike (hafter.alike ha) hfail).outcome
    | more hsep'' hp'' _ =>
      exact ih hsep'' hp'' ((abreast_of_round hsep hp hsep'' hp'' ha).alike ha)

/-- After the item at `s`, the list comes to a separator and an item that succeed and do not move. -/
inductive Stalls (g : Grammar) (p sep : Parser) : State → Prop
  | here {s a t : State} {w u : Value} :
      Replies g sep s ⟨a, .ok w⟩ → Replies g p a ⟨t, .ok u⟩ → t.position = s.position →
        Stalls g p sep s
  | later {s a t : State} {w u : Value} :
      Replies g sep s ⟨a, .ok w⟩ → Replies g p a ⟨t, .ok u⟩ → Stalls g p sep t → Stalls g p sep s

theorem Continues.not_stalls (h : Continues g p sep v s r) : ¬ Stalls g p sep s := by
  intro hstalls
  induction hstalls generalizing v r with
  | here hsep hp hstill =>
    have hleads := hsep.leads.trans hp.leads
    exact not_continues_of_alike hsep hp (hleads.alike (.inl hstill)) h
  | later hsep hp _ ih =>
    cases h with
    | last hfail => cases hsep.unique hfail
    | trailing hsep' hfail =>
      cases hsep.unique hsep'
      cases hp.unique hfail
    | more hsep' hp' hrest =>
      cases hsep.unique hsep'
      cases hp.unique hp'
      exact ih hrest

theorem Stalls.round (h : Stalls g p sep s) : ∃ a w t u,
    Replies g sep s ⟨a, .ok w⟩ ∧ Replies g p a ⟨t, .ok u⟩ := by
  cases h with
  | here hsep hp _ => exact ⟨_, _, _, _, hsep, hp⟩
  | later hsep hp _ => exact ⟨_, _, _, _, hsep, hp⟩

/-- A list that moves between alike states does so for ever, and does not stall. -/
theorem Stalls.still_of_alike (h : Stalls g p sep s) (hsep : Replies g sep s ⟨a, .ok w⟩)
    (hp : Replies g p a ⟨t, .ok u⟩) (ha : s.Alike t) : t.position = s.position := by
  induction h generalizing a t w u with
  | here hsep' hp' hstill =>
    cases hsep.unique hsep'
    cases hp.unique hp'
    exact hstill
  | later hsep' hp' hrest ih =>
    cases hsep.unique hsep'
    cases hp.unique hp'
    obtain ⟨a', w', t', u', hsep'', hp''⟩ := hrest.round
    have habreast := abreast_of_round hsep hp hsep'' hp'' ha
    exact (habreast.position_eq_iff (.refl _ _)).2 (ih hsep'' hp'' (habreast.alike ha))

/-! ## The loop -/

section
variable (c : Behaviour.Chain) {b d : Behaviour} {x : Round Behaviour.Chain Reply}

open Behaviour

theorem gives_sepByRound_iff : (sepByRound b d c).Gives x ↔
    (∃ t e, (d c.current).Gives ⟨t, .err e⟩ ∧
      x = .done ⟨c.current, .ok (.list (Link.items c.links ++ [c.last]))⟩) ∨
    ∃ a w, (d c.current).Gives ⟨a, .ok w⟩ ∧
      ((∃ t e, (b a).Gives ⟨t, .err e⟩ ∧
        x = .done (Link.unwind e ⟨c.last, c.current, a⟩ c.links)) ∨
      ∃ t v, (b a).Gives ⟨t, .ok v⟩ ∧
        x = if t.position = c.current.position then .done ⟨c.current, .err .separatedProgress⟩
          else .again ⟨t, v, ⟨c.last, c.current, a⟩ :: c.links⟩) := by
  refine gives_bind_iff.trans ⟨?_, ?_⟩
  · rintro ⟨⟨a, w | e⟩, hsep, h⟩
    · obtain ⟨⟨t, v | e⟩, hp, h⟩ := gives_bind_iff.1 h
      · refine .inr ⟨a, w, hsep, .inr ⟨t, v, hp, ?_⟩⟩
        by_cases hstill : t.position = c.current.position
        · simp only [if_pos hstill] at h ⊢
          exact gives_pure_iff.1 h
        · simp only [if_neg hstill] at h ⊢
          exact gives_pure_iff.1 h
      · exact .inr ⟨a, w, hsep, .inl ⟨t, e, hp, gives_pure_iff.1 h⟩⟩
    · exact .inl ⟨a, e, hsep, gives_pure_iff.1 h⟩
  · rintro (⟨t, e, hsep, rfl⟩ | ⟨a, w, hsep, ⟨t, e, hp, rfl⟩ | ⟨t, v, hp, rfl⟩⟩)
    · exact ⟨_, hsep, gives_pure_iff.2 rfl⟩
    · exact ⟨_, hsep, gives_bind_iff.2 ⟨_, hp, gives_pure_iff.2 rfl⟩⟩
    · refine ⟨_, hsep, gives_bind_iff.2 ⟨_, hp, ?_⟩⟩
      simp only
      split <;> exact gives_pure_iff.2 rfl

end

/-- The loop of a separated list, standing at `s` after the item `v` and the links before it. -/
def sepByLoop (g : Grammar) (p sep : Parser) (depth rounds : Nat) (s : State) (v : Value)
    (chain : List Link) : Evaluation Reply :=
  iterate (Behaviour.sepByRound (eval g depth p) (eval g depth sep)) rounds ⟨s, v, chain⟩

variable {depth rounds : Nat} {chain : List Link}

theorem continues_of_gives_loop (h : (sepByLoop g p sep depth rounds s v chain).Gives r)
    (hstalls : ¬ Stalls g p sep s) :
    ∃ r', Continues g p sep v s r' ∧ r = Link.windUp chain r' := by
  induction rounds generalizing s v chain with
  | zero => exact absurd h (not_gives_endless r)
  | succ rounds ih =>
    obtain ⟨y, hround, hrest⟩ | hround := gives_iterate_succ_iff.1 h
    all_goals
      obtain ⟨t, e, hsep, hx⟩ | ⟨a, w, hsep, ⟨t, e, hp, hx⟩ | ⟨t, u, hp, hx⟩⟩ :=
        (gives_sepByRound_iff _).1 hround
    · cases hx
    · cases hx
    · by_cases hstill : t.position = s.position
      · exact absurd (.here ⟨depth, hsep⟩ ⟨depth, hp⟩ hstill) hstalls
      · rw [if_neg hstill] at hx
        cases hx
        have hlater : ¬ Stalls g p sep t := fun h => hstalls (.later ⟨depth, hsep⟩ ⟨depth, hp⟩ h)
        obtain ⟨r', hcont, rfl⟩ := ih hrest hlater
        exact ⟨_, .more ⟨depth, hsep⟩ ⟨depth, hp⟩ hcont, rfl⟩
    · cases hx
      exact ⟨_, .last ⟨depth, hsep⟩, (Link.windUp_ok ..).symm⟩
    · cases hx
      exact ⟨_, .trailing ⟨depth, hsep⟩ ⟨depth, hp⟩, Link.unwind_eq_windUp ..⟩
    · by_cases hstill : t.position = s.position
      · exact absurd (.here ⟨depth, hsep⟩ ⟨depth, hp⟩ hstill) hstalls
      · rw [if_neg hstill] at hx
        cases hx

section
variable {e : Expected}

theorem sepByLoop_last (hsep : Replies g sep s ⟨t, .err e⟩) :
    ∀ᶠ depth in atTop, (sepByLoop g p sep depth (rounds + 1) s v chain).Gives
      (Link.windUp chain ⟨s, .ok (.list [v])⟩) := by
  filter_upwards [hsep.eventually] with depth hsep
  rw [Link.windUp_ok]
  exact gives_iterate_succ_iff.2 (.inr ((gives_sepByRound_iff _).2 (.inl ⟨t, e, hsep, rfl⟩)))

theorem sepByLoop_trailing (hsep : Replies g sep s ⟨a, .ok w⟩)
    (hp : Replies g p a ⟨t, .err e⟩) :
    ∀ᶠ depth in atTop, (sepByLoop g p sep depth (rounds + 1) s v chain).Gives
      (Link.windUp (⟨v, s, a⟩ :: chain) ⟨a, .err e⟩) := by
  filter_upwards [hsep.eventually, hp.eventually] with depth hsep hp
  rw [← Link.unwind_eq_windUp]
  exact gives_iterate_succ_iff.2 (.inr ((gives_sepByRound_iff _).2
    (.inr ⟨a, w, hsep, .inl ⟨t, e, hp, rfl⟩⟩)))

theorem sepByLoop_still (hsep : Replies g sep s ⟨a, .ok w⟩) (hp : Replies g p a ⟨t, .ok u⟩)
    (hstill : t.position = s.position) :
    ∀ᶠ depth in atTop, (sepByLoop g p sep depth (rounds + 1) s v chain).Gives
      ⟨s, .err .separatedProgress⟩ := by
  filter_upwards [hsep.eventually, hp.eventually] with depth hsep hp
  exact gives_iterate_succ_iff.2 (.inr ((gives_sepByRound_iff _).2
    (.inr ⟨a, w, hsep, .inr ⟨t, u, hp, (if_pos hstill).symm⟩⟩)))

theorem sepByLoop_again (hsep : Replies g sep s ⟨a, .ok w⟩) (hp : Replies g p a ⟨t, .ok u⟩)
    (hmoved : t.position ≠ s.position)
    (hloop : ∀ᶠ depth in atTop,
      (sepByLoop g p sep depth rounds t u (⟨v, s, a⟩ :: chain)).Gives r) :
    ∀ᶠ depth in atTop, (sepByLoop g p sep depth (rounds + 1) s v chain).Gives r := by
  filter_upwards [hsep.eventually, hp.eventually, hloop] with depth hsep hp hloop
  refine gives_iterate_succ_iff.2 (.inl ⟨_, ?_, hloop⟩)
  exact (gives_sepByRound_iff _).2 (.inr ⟨a, w, hsep, .inr ⟨t, u, hp, (if_neg hmoved).symm⟩⟩)

end

theorem Continues.eventually_gives (h : Continues g p sep v s r) (hrounds : s.ahead < rounds) :
    ∀ᶠ depth in atTop,
      (sepByLoop g p sep depth rounds s v chain).Gives (Link.windUp chain r) := by
  obtain ⟨n, rfl⟩ : ∃ n, rounds = n + 1 := ⟨rounds - 1, by omega⟩
  induction h generalizing n chain with
  | last hsep => exact sepByLoop_last hsep
  | trailing hsep hp => exact sepByLoop_trailing hsep hp
  | @more u v w s a t r hsep hp hrest ih =>
    have hleads : s.Leads t := hsep.leads.trans hp.leads
    have hguard : ¬ NoProgress s t := fun h =>
      not_continues_of_alike (v := v) hsep hp (hleads.alike h) (.more hsep hp hrest)
    have hahead := hleads.ahead_lt hguard
    obtain ⟨n, rfl⟩ : ∃ m, n = m + 1 := ⟨n - 1, by omega⟩
    exact sepByLoop_again hsep hp (fun h => hguard (.inl h)) (ih n (by omega))

theorem Stalls.eventually_gives (h : Stalls g p sep s) (hrounds : s.ahead < rounds) :
    ∃ t, ∀ᶠ depth in atTop,
      (sepByLoop g p sep depth rounds s v chain).Gives ⟨t, .err .separatedProgress⟩ := by
  obtain ⟨n, rfl⟩ : ∃ n, rounds = n + 1 := ⟨rounds - 1, by omega⟩
  induction h generalizing n v chain with
  | here hsep hp hstill => exact ⟨_, sepByLoop_still hsep hp hstill⟩
  | @later s a t w u hsep hp hrest ih =>
    by_cases hstill : t.position = s.position
    · exact ⟨s, sepByLoop_still hsep hp hstill⟩
    · have hleads : s.Leads t := hsep.leads.trans hp.leads
      have hguard : ¬ NoProgress s t := fun h =>
        hstill ((Stalls.later hsep hp hrest).still_of_alike hsep hp (hleads.alike h))
      have hahead := hleads.ahead_lt hguard
      obtain ⟨n, rfl⟩ : ∃ m, n = m + 1 := ⟨n - 1, by omega⟩
      obtain ⟨x, hloop⟩ := @ih u (⟨v, s, a⟩ :: chain) n (by omega)
      exact ⟨x, sepByLoop_again hsep hp hstill hloop⟩

/-! ## Agreement -/

/-- The list that starts at `s` comes, after some items, to a round without progress. -/
def StallsFrom (g : Grammar) (p sep : Parser) (s : State) : Prop :=
  ∃ t v, Replies g p s ⟨t, .ok v⟩ ∧ Stalls g p sep t

theorem gives_sepBy1_iff : (eval g (depth + 1) (.sepBy1 p sep) s).Gives r ↔
    (∃ t v, (eval g depth p s).Gives ⟨t, .ok v⟩ ∧
      (sepByLoop g p sep depth t.rounds t v []).Gives r) ∨
    ∃ t e, (eval g depth p s).Gives ⟨t, .err e⟩ ∧ r = ⟨s, .err e⟩ := Behaviour.gives_bind_iff

theorem replies_sepBy1_of_eventually (hp : Replies g p s ⟨t, .ok v⟩)
    (hloop : ∀ᶠ depth in atTop, (sepByLoop g p sep depth t.rounds t v []).Gives r) :
    Replies g (.sepBy1 p sep) s r := by
  refine replies_of_eventually_succ ?_
  filter_upwards [hp.eventually, hloop] with depth hp hloop
  exact gives_sepBy1_iff.2 (.inl ⟨t, v, hp, hloop⟩)

/-- The loop has the replies of `Separates`, and others only where it stalls. -/
theorem separates_iff_replies_sepBy1 :
    Separates g p sep s r ↔ Replies g (.sepBy1 p sep) s r ∧ ¬ StallsFrom g p sep s := by
  constructor
  · intro h
    cases h with
    | noItem hp =>
      refine ⟨replies_of_eventually_succ ?_, ?_⟩
      · filter_upwards [hp.eventually] with depth hp
        exact gives_sepBy1_iff.2 (.inr ⟨_, _, hp, rfl⟩)
      · rintro ⟨t, v, hp', -⟩
        cases hp.unique hp'
    | item hp hrest =>
      refine ⟨replies_sepBy1_of_eventually hp (hrest.eventually_gives (State.ahead_lt_rounds _)), ?_⟩
      rintro ⟨t', v', hp', hstalls⟩
      cases hp.unique hp'
      exact hrest.not_stalls hstalls
  · rintro ⟨h, hstalls⟩
    obtain ⟨depth, h⟩ := h.exists_succ
    obtain ⟨t, v, hp, hloop⟩ | ⟨t, e, hp, rfl⟩ := gives_sepBy1_iff.1 h
    · have hp : Replies g p s ⟨t, .ok v⟩ := ⟨depth, hp⟩
      obtain ⟨r', hcont, rfl⟩ :=
        continues_of_gives_loop hloop fun h => hstalls ⟨t, v, hp, h⟩
      exact .item hp hcont
    · exact .noItem ⟨depth, hp⟩

theorem Separates.replies (h : Separates g p sep s r) : Replies g (.sepBy1 p sep) s r :=
  (separates_iff_replies_sepBy1.1 h).1

theorem StallsFrom.replies (h : StallsFrom g p sep s) :
    ∃ t, Replies g (.sepBy1 p sep) s ⟨t, .err .separatedProgress⟩ := by
  obtain ⟨c, v, hp, hstalls⟩ := h
  obtain ⟨t, hloop⟩ := hstalls.eventually_gives c.ahead_lt_rounds
  exact ⟨t, replies_sepBy1_of_eventually hp hloop⟩

/-- The recursive definition comes to an end exactly if the loop returns without stalling, and then with
the reply of the loop; where the loop stalls it replies with its own failure. A list that may be empty
is the same choice on top of either. -/
theorem sepBy1_agrees_with_recursion (hrec : g name = .sepBy1Recursive name p sep) :
    (∀ r, Replies g (.rule name) s r ↔
      Replies g (.sepBy1 p sep) s r ∧ ¬ StallsFrom g p sep s) ∧
    (StallsFrom g p sep s → ∃ t, Replies g (.sepBy1 p sep) s ⟨t, .err .separatedProgress⟩) ∧
    ((∃ r, Replies g (.rule name) s r) → ∃ r, Replies g (Parser.sepBy p sep) s r ∧
      Replies g (Parser.oneOf [.rule name, .succeed (.list [])]) s r) := by
  have hagree : ∀ r, Replies g (.rule name) s r ↔
      Replies g (.sepBy1 p sep) s r ∧ ¬ StallsFrom g p sep s := fun r =>
    (replies_sepBy1Recursive_iff hrec).trans separates_iff_replies_sepBy1
  refine ⟨hagree, StallsFrom.replies, ?_⟩
  rintro ⟨⟨t, v | e⟩, hr⟩
  · have hloop := ((hagree _).1 hr).1
    exact ⟨⟨t, .ok v⟩, replies_oneOf_succeed_iff.2 (.inl ⟨t, v, hloop, rfl⟩),
      replies_oneOf_succeed_iff.2 (.inl ⟨t, v, hr, rfl⟩)⟩
  · have hloop := ((hagree _).1 hr).1
    exact ⟨_, replies_oneOf_succeed_iff.2 (.inr ⟨t, e, hloop, rfl⟩),
      replies_oneOf_succeed_iff.2 (.inr ⟨t, e, hr, rfl⟩)⟩

/-- Both fail behind the first separator of a list that ends in a separator. -/
theorem sepBy1_agrees_with_recursion_trailing :
    let item : Parser := .char 'a'
    let sep : Parser := .char '-'
    let g : Grammar := fun name => .sepBy1Recursive name item sep
    let s : State := .start #['a', '-', 'a', '-']
    Replies g (.sepBy1 item sep) s ⟨s.advance 2, .err .aChar⟩ ∧ ¬ StallsFrom g item sep s := by
  intro item sep g s
  have hrule : Replies g (.rule "items") s ⟨s.advance 2, .err .aChar⟩ := ⟨20, by decide +kernel⟩
  exact ((sepBy1_agrees_with_recursion (rfl : g "items" = _)).1 _).1 hrule

end Descent
