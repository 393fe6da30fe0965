import Descent.Proofs.Remaining
import Descent.Proofs.Rounds

/-!
# Choice

A choice goes on to the next alternative in one case only: the one before it has failed at the position
where it started (`Reply.Declines`). Whether it has read anything on the way does not matter.

* `eval_oneOf_append` follows a choice among many through the alternatives that decline, and
  `eval_orElse_of_not_declines` says that nothing behind the first other one has a part in the evaluation.
* A choice among choices declines where all alternatives of all of them do, so it makes no difference how
  alternatives are grouped (`sameReplies_orElse_assoc`, `sameReplies_orElse_oneOf`).
* Characters in a row (`Parser.chars`) are sequenced from the left, hence all but the last one belong to the
  first step of a sequence, and a failure of the first step is reported where the sequence started. So only
  a failure at the last character commits a choice, however much was read before (`eval_chars_of_differs`).
-/

namespace Descent

open Evaluation Descent.Parser

/-- A failure at the position of `s`, the one kind of reply after which a choice from `s` goes on. -/
structure Reply.Declines (s : State) (r : Reply) : Prop where
  fails : r.outcome.isOk = false
  stays : r.state.position = s.position

@[simp] theorem Reply.not_declines_ok (s t : State) (v : Value) : ¬ Reply.Declines s ⟨t, .ok v⟩ := by
  intro h
  cases h.fails

@[simp] theorem Reply.declines_err_iff {s t : State} {e : Expected} :
    Reply.Declines s ⟨t, .err e⟩ ↔ t.position = s.position :=
  ⟨fun h => h.stays, fun h => ⟨rfl, h⟩⟩

theorem Reply.declines_start (s : State) (e : Expected) : Reply.Declines s ⟨s, .err e⟩ :=
  Reply.declines_err_iff.2 rfl

/-- From `s` the parser fails and stays there. -/
def Parser.Declines (g : Grammar) (p : Parser) (s : State) : Prop :=
  ∃ r, Replies g p s r ∧ r.Declines s

def SameReplies (g : Grammar) (p q : Parser) (s : State) : Prop :=
  ∀ r, Replies g p s r ↔ Replies g q s r

variable {g : Grammar} {p p' q q' : Parser} {ps qs : List Parser} {s : State} {r : Reply} {l : Log}
  {n : Nat}

theorem SameReplies.refl (g : Grammar) (p : Parser) (s : State) : SameReplies g p p s := fun _ => .rfl

theorem SameReplies.symm (h : SameReplies g p q s) : SameReplies g q p s := fun r => (h r).symm

theorem SameReplies.trans (h : SameReplies g p q s) (h' : SameReplies g q q' s) :
    SameReplies g p q' s := fun r => (h r).trans (h' r)

/-! ## Two alternatives -/

theorem eval_orElse_of_declines (hp : eval g n p s = ⟨l, .returned r⟩) (hr : r.Declines s) :
    eval g (n + 1) (.orElse p q) s = (eval g n q s).after l := by
  obtain ⟨t, v | e⟩ := r
  · cases hr.fails
  · rw [eval_orElse]
    unfold Behaviour.orElse
    rw [hp, returned_bind]
    simp only [if_pos hr.stays]
    rfl

/-- Be it that it returns anything else or that it does not return, the first alternative decides. -/
theorem eval_orElse_of_not_declines
    (hp : ∀ r, (eval g n p s).ending = .returned r → ¬ r.Declines s) :
    eval g (n + 1) (.orElse p q) s = eval g n p s := by
  rw [eval_orElse]
  unfold Behaviour.orElse
  revert hp
  obtain ⟨log, ⟨t, v | e⟩ | _ | _⟩ := eval g n p s
  · intro _
    simp [pure_eq]
  · intro hp
    have hmoved : t.position ≠ s.position := fun h => hp _ rfl ⟨rfl, h⟩
    simp [pure_eq, hmoved]
  · intro _
    rfl
  · intro _
    rfl

theorem eval_orElse_of_returned (hp : eval g n p s = ⟨l, .returned r⟩) (hr : ¬ r.Declines s) :
    eval g (n + 1) (.orElse p q) s = ⟨l, .returned r⟩ := by
  rw [← hp]
  refine eval_orElse_of_not_declines fun r' hr' => ?_
  rw [hp] at hr'
  cases hr'
  exact hr

theorem replies_orElse_iff_declines :
    Replies g (.orElse p q) s r ↔
      (Replies g p s r ∧ ¬ r.Declines s) ∨ (p.Declines g s ∧ Replies g q s r) := by
  rw [replies_orElse_iff]
  constructor
  · intro h
    obtain ⟨t, v, hp, rfl⟩ | ⟨t, e, hp, ⟨hstays, hq⟩ | ⟨hmoved, rfl⟩⟩ := h
    · exact .inl ⟨hp, Reply.not_declines_ok s t v⟩
    · exact .inr ⟨⟨_, hp, rfl, hstays⟩, hq⟩
    · exact .inl ⟨hp, mt Reply.declines_err_iff.1 hmoved⟩
  · intro h
    obtain ⟨hp, hr⟩ | ⟨⟨⟨t, v | e⟩, hp, hr⟩, hq⟩ := h
    · obtain ⟨t, v | e⟩ := r
      · exact .inl ⟨t, v, hp, rfl⟩
      · exact .inr ⟨t, e, hp, .inr ⟨mt Reply.declines_err_iff.2 hr, rfl⟩⟩
    · exact absurd hr (Reply.not_declines_ok s t v)
    · exact .inr ⟨t, e, hp, .inl ⟨hr.stays, hq⟩⟩

theorem sameReplies_orElse_of_declines (hp : p.Declines g s) : SameReplies g (.orElse p q) q s := by
  intro r
  rw [replies_orElse_iff_declines]
  obtain ⟨r', hp', hr'⟩ := hp
  constructor
  · intro h
    obtain ⟨hr, hnot⟩ | ⟨-, hq⟩ := h
    · exact absurd hr' (hp'.unique hr ▸ hnot)
    · exact hq
  · intro hq
    exact .inr ⟨⟨r', hp', hr'⟩, hq⟩

theorem sameReplies_orElse_of_not_declines (hp : ¬ p.Declines g s) : SameReplies g (.orElse p q) p s := by
  intro r
  rw [replies_orElse_iff_declines]
  constructor
  · intro h
    obtain ⟨hr, -⟩ | ⟨hdeclines, -⟩ := h
    · exact hr
    · exact absurd hdeclines hp
  · intro hr
    exact .inl ⟨hr, fun h => hp ⟨r, hr, h⟩⟩

/-! ## Many alternatives -/

/-- With `n` levels left behind them, the alternatives `ps` decline one after the other, and log `l`. -/
inductive PassedOver (g : Grammar) (s : State) (n : Nat) : List Parser → Log → Prop
  | nil : PassedOver g s n [] []
  | cons {p : Parser} {ps : List Parser} {r : Reply} {l l' : Log} :
      eval g (n + ps.length) p s = ⟨l, .returned r⟩ → r.Declines s → PassedOver g s n ps l' →
        PassedOver g s n (p :: ps) (l ++ l')

/-- A choice is the choice among what is left behind the alternatives that decline. -/
theorem eval_oneOf_append (h : PassedOver g s n ps l) :
    eval g (n + ps.length) (oneOf (ps ++ qs)) s = (eval g n (oneOf qs) s).after l := by
  induction h with
  | nil => rfl
  | cons hp hr _ ih =>
    rw [List.cons_append, oneOf_cons, List.length_cons, ← Nat.add_assoc,
      eval_orElse_of_declines hp hr, ih, after_after]

theorem sameReplies_oneOf_append (h : ∀ p ∈ ps, p.Declines g s) :
    SameReplies g (oneOf (ps ++ qs)) (oneOf qs) s := by
  induction ps with
  | nil => exact .refl g _ s
  | cons p ps ih =>
    have hp : p.Declines g s := h p List.mem_cons_self
    have hps : ∀ q ∈ ps, q.Declines g s := fun q hq => h q (List.mem_cons_of_mem p hq)
    exact (sameReplies_orElse_of_declines hp).trans (ih hps)

/-! ## Grouping -/

theorem SameReplies.orElse (hp : SameReplies g p p' s) (hq : SameReplies g q q' s) :
    SameReplies g (.orElse p q) (.orElse p' q') s := by
  intro r
  rw [replies_orElse_iff_declines, replies_orElse_iff_declines]
  unfold Parser.Declines
  simp only [hp _, hq _]

theorem declines_orElse_iff : (Parser.orElse p q).Declines g s ↔ p.Declines g s ∧ q.Declines g s := by
  unfold Parser.Declines
  constructor
  · intro h
    obtain ⟨r, h, hr⟩ := h
    rcases replies_orElse_iff_declines.1 h with ⟨-, hnot⟩ | ⟨hp, hq⟩
    · exact absurd hr hnot
    · exact ⟨hp, r, hq, hr⟩
  · intro h
    obtain ⟨hp, r, hq, hr⟩ := h
    exact ⟨r, replies_orElse_iff_declines.2 (.inr ⟨hp, hq⟩), hr⟩

theorem sameReplies_orElse_assoc (p q q' : Parser) (s : State) :
    SameReplies g (.orElse (.orElse p q) q') (.orElse p (.orElse q q')) s := by
  intro r
  simp only [replies_orElse_iff_declines, declines_orElse_iff]
  tauto

theorem declines_fail (g : Grammar) (e : Expected) (s : State) : (Parser.fail e).Declines g s :=
  ⟨_, replies_fail_iff.2 rfl, rfl, rfl⟩

/-- Two choices in a row are one choice among the alternatives of both. -/
theorem sameReplies_orElse_oneOf (ps qs : List Parser) (s : State) :
    SameReplies g (.orElse (oneOf ps) (oneOf qs)) (oneOf (ps ++ qs)) s := by
  induction ps with
  | nil => exact sameReplies_orElse_of_declines (declines_fail g .alternative s)
  | cons p ps ih =>
    have hassoc : SameReplies g (.orElse (.orElse p (oneOf ps)) (oneOf qs))
        (.orElse p (.orElse (oneOf ps) (oneOf qs))) s := sameReplies_orElse_assoc p _ _ s
    exact hassoc.trans (.orElse (.refl g p s) ih)

theorem sameReplies_oneOf_nested (ps qs rs : List Parser) (s : State) :
    SameReplies g (oneOf (ps ++ [oneOf qs] ++ rs)) (oneOf (ps ++ qs ++ rs)) s := by
  have hinner : SameReplies g (oneOf (oneOf qs :: rs)) (oneOf (qs ++ rs)) s :=
    sameReplies_orElse_oneOf qs rs s
  have houter : SameReplies g (.orElse (oneOf ps) (oneOf (oneOf qs :: rs))) (oneOf (ps ++ (qs ++ rs))) s :=
    (SameReplies.orElse (.refl g _ s) hinner).trans (sameReplies_orElse_oneOf ps (qs ++ rs) s)
  rw [List.append_assoc, List.append_assoc]
  exact (sameReplies_orElse_oneOf ps (oneOf qs :: rs) s).symm.trans houter

/-! ## First match -/

/-- A choice among `ps` is decided by the first of them that does not decline: it has the replies of that
one, and where they all decline it fails at its start. No other alternative behind that one is applied: with
one level for each step to the next alternative, the evaluation is what those before it log, and its own.
Choices in choices, and choices in a row, are one choice among all alternatives. -/
theorem oneOf_first_match (g : Grammar) :
    (∀ (earlier later : List Parser) (p : Parser) (s : State), (∀ q ∈ earlier, q.Declines g s) →
      ¬ p.Declines g s → SameReplies g (oneOf (earlier ++ p :: later)) p s) ∧
    (∀ (ps : List Parser) (s : State), (∀ p ∈ ps, p.Declines g s) → ∃ e : Expected,
      e.describe = "no match" ∧ ∀ r, Replies g (oneOf ps) s r ↔ r = ⟨s, .err e⟩) ∧
    (∀ (earlier later : List Parser) (p : Parser) (s : State) (n : Nat) (l : Log),
      PassedOver g s (n + 1) earlier l →
      (∀ r, (eval g n p s).ending = .returned r → ¬ r.Declines s) →
      eval g (n + 1 + earlier.length) (oneOf (earlier ++ p :: later)) s = (eval g n p s).after l) ∧
    ∀ (ps qs rs : List Parser) (s : State),
      SameReplies g (oneOf (ps ++ [oneOf qs] ++ rs)) (oneOf (ps ++ qs ++ rs)) s ∧
      SameReplies g (.orElse (.orElse (oneOf ps) (oneOf qs)) (oneOf rs)) (oneOf (ps ++ qs ++ rs)) s ∧
      SameReplies g (.orElse (oneOf ps) (.orElse (oneOf qs) (oneOf rs))) (oneOf (ps ++ qs ++ rs)) s := by
  refine ⟨fun earlier later p s hearlier hp => ?_, fun ps s hps => ?_,
    fun earlier later p s n l hearlier hp => ?_, fun ps qs rs s => ⟨?_, ?_, ?_⟩⟩
  · exact (sameReplies_oneOf_append hearlier).trans (sameReplies_orElse_of_not_declines hp)
  · have hall : SameReplies g (oneOf (ps ++ [])) (.fail .alternative) s := sameReplies_oneOf_append hps
    rw [List.append_nil] at hall
    exact ⟨.alternative, rfl, fun r => (hall r).trans replies_fail_iff⟩
  · rw [eval_oneOf_append hearlier, oneOf_cons, eval_orElse_of_not_declines hp]
  · exact sameReplies_oneOf_nested ps qs rs s
  · exact (SameReplies.orElse (sameReplies_orElse_oneOf ps qs s) (.refl g _ s)).trans
      (sameReplies_orElse_oneOf (ps ++ qs) rs s)
  · rw [List.append_assoc]
    exact (SameReplies.orElse (.refl g _ s) (sameReplies_orElse_oneOf qs rs s)).trans
      (sameReplies_orElse_oneOf ps (qs ++ rs) s)

/-- An alternative that has read a character and fails behind the next one decides, and the one behind it
leaves nothing in the log. -/
theorem oneOf_first_match_moved_failure :
    let g : Grammar := .rule
    let s : State := .start #['a', 'b']
    let first : Parser := .trace "first" (.attempt (.text "ax"))
    let second : Parser := .seqRight (.char 'a') (.char 'c')
    let third : Parser := .trace "third" .anyChar
    let l : Log := [.trying "first" s, .failed "first" s (.theChar 'x')]
    (∀ q ∈ [first], q.Declines g s) ∧ ¬ second.Declines g s ∧ PassedOver g s 4 [first] l ∧
      (∀ r, (eval g 3 second s).ending = .returned r → ¬ r.Declines s) ∧
      Replies g (oneOf [first, second, third]) s ⟨s.advance 2, .err (.theChar 'c')⟩ ∧
      (∃ e : Expected, e.describe = "no match" ∧ Replies g (oneOf [first]) s ⟨s, .err e⟩) ∧
      eval g 5 (oneOf [first, second, third]) s =
        ⟨l, .returned ⟨s.advance 2, .err (.theChar 'c')⟩⟩ ∧
      Replies g (oneOf [oneOf [first, second], third]) s ⟨s.advance 2, .err (.theChar 'c')⟩ := by
  intro g s first second third l
  have hfirst : eval g 4 first s = ⟨l, .returned ⟨s, .err (.theChar 'x')⟩⟩ := by decide +kernel
  have hsecond : eval g 3 second s = ⟨[], .returned ⟨s.advance 2, .err (.theChar 'c')⟩⟩ := by
    decide +kernel
  have hmoved : ¬ Reply.Declines s ⟨s.advance 2, .err (.theChar 'c')⟩ := by
    rw [Reply.declines_err_iff]
    decide
  have hdeclines : ∀ q ∈ [first], q.Declines g s := by
    intro q hq
    rw [List.mem_singleton.1 hq]
    exact ⟨⟨s, .err (.theChar 'x')⟩, ⟨4, by decide +kernel⟩, rfl, rfl⟩
  have hreply : Replies g second s ⟨s.advance 2, .err (.theChar 'c')⟩ := ⟨3, by decide +kernel⟩
  have hnot : ¬ second.Declines g s := by
    intro ⟨r, hr, h⟩
    exact hmoved (hreply.unique hr ▸ h)
  have hnot' : ∀ r, (eval g 3 second s).ending = .returned r → ¬ r.Declines s := by
    intro r hr
    rw [hsecond] at hr
    cases hr
    exact hmoved
  have hstays : Reply.Declines s ⟨s, .err (.theChar 'x')⟩ := ⟨rfl, rfl⟩
  have hpassed : PassedOver g s 4 [first] (l ++ []) := .cons hfirst hstays .nil
  obtain ⟨hmatch, hnone, heval, hflat⟩ := oneOf_first_match g
  have hchoice := (hmatch [first] [third] second s hdeclines hnot _).2 hreply
  obtain ⟨e, he, hfail⟩ := hnone [first] s hdeclines
  have hevaluation := heval [first] [third] second s 3 l hpassed hnot'
  rw [hsecond] at hevaluation
  exact ⟨hdeclines, hnot, hpassed, hnot', hchoice, ⟨e, he, (hfail _).2 rfl⟩, hevaluation,
    ((hflat [] [first, second] [third] s).1 _).2 hchoice⟩

/-! ## Characters in a row -/

def Parser.chars (c : Char) (cs : List Char) : Parser :=
  cs.foldl (fun p d => p.seqRight (char d)) (char c)

/-- From `s` on come the characters `w`, and then one that is not `d`. -/
def State.Differs (s : State) (w : List Char) (d : Char) : Prop :=
  ∃ x ahead, s.Before (w ++ x :: ahead) ∧ x ≠ d

variable {c d : Char} {w cs rest : List Char} {t : State} {v : Value} {e : Expected}

theorem eval_seqRight_of_ok (hp : eval g n p s = pure ⟨t, .ok v⟩) :
    eval g (n + 1) (p.seqRight q) s = eval g n q t := by
  unfold seqRight
  rw [eval_bind, Behaviour.bind_of_ok hp, after_nil]

theorem eval_seqRight_of_err (hp : eval g n p s = pure ⟨t, .err e⟩) :
    eval g (n + 1) (p.seqRight q) s = pure ⟨s, .err e⟩ := by
  unfold seqRight
  rw [eval_bind]
  exact Behaviour.bind_of_err hp

theorem eval_char (g : Grammar) (n : Nat) (h : s.Before (c :: rest)) (d : Char) :
    eval g (n + 2) (char d) s =
      pure ⟨s.advance 1, if c = d then .ok .unit else .err (.theChar d)⟩ := by
  rw [eval_char_eq, h.peek?]
  rfl

theorem eval_foldl_seqRight_of_ok (hp : eval g (n + 2) p s = pure ⟨t, .ok .unit⟩)
    (ht : t.Before (cs ++ rest)) :
    eval g (n + 2 + cs.length) (cs.foldl (fun p d => p.seqRight (char d)) p) s =
      pure ⟨t.past cs, .ok .unit⟩ := by
  induction cs generalizing n p t with
  | nil => simpa using hp
  | cons c cs ih =>
    -- Each character is one level further out, so the one behind has a level more.
    have hc : eval g (n + 1 + 2) (p.seqRight (char c)) s = pure ⟨t.advance 1, .ok .unit⟩ := by
      rw [eval_seqRight_of_ok hp, eval_char g n ht c, if_pos rfl]
    rw [List.foldl_cons, List.length_cons, State.past_cons,
      show n + 2 + (cs.length + 1) = n + 1 + 2 + cs.length by omega]
    exact ih hc ht.advance

/-- A failure of `p` becomes one of a first step as soon as anything follows. -/
theorem eval_foldl_seqRight_of_err (hp : eval g n p s = pure ⟨t, .err e⟩) (cs : List Char) :
    eval g (n + cs.length) (cs.foldl (fun p d => p.seqRight (char d)) p) s =
      pure ⟨if cs = [] then t else s, .err e⟩ := by
  induction cs generalizing n p t with
  | nil => simpa using hp
  | cons c cs ih =>
    have hc := ih (eval_seqRight_of_err (q := char c) hp)
    rw [ite_self] at hc
    rw [List.foldl_cons, List.length_cons, if_neg (List.cons_ne_nil c cs),
      show n + (cs.length + 1) = n + 1 + cs.length by omega]
    exact hc

/-- Where the characters differ behind the first one, the failure is reported behind the character that
differs if it is the last one wanted, and at the start otherwise. -/
theorem eval_chars_of_differs (h : s.Differs (c :: w) d) (n : Nat) (rest : List Char) :
    eval g (n + w.length + 3 + rest.length) (chars c (w ++ d :: rest)) s =
      pure ⟨if rest = [] then s.advance (w.length + 2) else s, .err (.theChar d)⟩ := by
  obtain ⟨x, ahead, hbefore, hx⟩ := h
  have hfirst : eval g (n + 2) (char c) s = pure ⟨s.advance 1, .ok .unit⟩ := by
    rw [eval_char g n hbefore c, if_pos rfl]
  have hmatched : eval g (n + 2 + w.length) (chars c w) s = pure ⟨s.past (c :: w), .ok .unit⟩ := by
    rw [State.past_cons]
    exact eval_foldl_seqRight_of_ok hfirst hbefore.advance
  have hbehind : (s.past (c :: w)).advance 1 = s.advance (w.length + 2) := by
    unfold State.past State.advance
    rw [List.length_cons]
    congr 1
    show s.position + ((w.length + 1 : Nat) : Int) + 1 = s.position + (w.length + 2)
    omega
  have hdiffers : eval g (n + w.length + 3) ((chars c w).seqRight (char d)) s =
      pure ⟨s.advance (w.length + 2), .err (.theChar d)⟩ := by
    rw [show n + w.length + 3 = n + 2 + w.length + 1 by omega, eval_seqRight_of_ok hmatched,
      show n + 2 + w.length = n + w.length + 2 by omega, eval_char g _ hbefore.past d, if_neg hx, hbehind]
  unfold chars
  rw [List.foldl_append]
  exact eval_foldl_seqRight_of_err hdiffers rest

/-- A choice behind characters in a row that differ from those wanted, though not at the first one. If they
differ at the last one, the row of characters fails behind it and the choice ends there: its evaluation is
the failure, whatever `q` is. If they differ at one before, the row of characters fails where it started, and
the choice goes on with `q`. -/
theorem choice_after_chars (g : Grammar) {c d : Char} {w : List Char} {s : State}
    (h : s.Differs (c :: w) d) (rest : List Char) (q : Parser) {n : Nat}
    (hn : w.length + rest.length + 3 ≤ n) :
    let row := chars c (w ++ d :: rest)
    let failure : Reply := ⟨if rest = [] then s.advance (w.length + 2) else s, .err (.theChar d)⟩
    eval g n row s = pure failure ∧
      (rest = [] → eval g (n + 1) (.orElse row q) s = pure failure ∧
        eval g (n + 1) (oneOf [row, q]) s = pure failure) ∧
      (rest ≠ [] → eval g (n + 1) (.orElse row q) s = eval g n q s ∧
        eval g (n + 1) (oneOf [row, q]) s = eval g n (oneOf [q]) s) := by
  intro row failure
  have hrow : eval g n row s = pure failure := by
    obtain ⟨m, rfl⟩ : ∃ m, n = m + w.length + 3 + rest.length :=
      ⟨n - (w.length + rest.length + 3), by omega⟩
    exact eval_chars_of_differs h m rest
  refine ⟨hrow, fun hrest => ?_, fun hrest => ?_⟩
  · have hmoved : ∀ r, (eval g n row s).ending = .returned r → ¬ r.Declines s := by
      intro r hr
      rw [hrow] at hr
      cases hr
      rw [Reply.declines_err_iff, if_pos hrest, State.advance_position]
      omega
    rw [← hrow]
    exact ⟨eval_orElse_of_not_declines hmoved, eval_orElse_of_not_declines hmoved⟩
  · have hstays : failure.Declines s := by
      refine ⟨rfl, ?_⟩
      show (if rest = [] then _ else s).position = s.position
      rw [if_neg hrest]
    exact ⟨eval_orElse_of_declines hrow hstays, eval_orElse_of_declines hrow hstays⟩

/-- `abc` wanted, and `axb` there. -/
theorem choice_after_chars_last :
    let g : Grammar := .rule
    let s : State := .start #['a', 'b', 'x']
    let q : Parser := .trace "second" .anyChar
    s.Differs ['a', 'b'] 'c' ∧ 1 + 0 + 3 ≤ 4 ∧
      eval g 5 (.orElse (chars 'a' ['b', 'c']) q) s = pure ⟨s.advance 3, .err (.theChar 'c')⟩ ∧
      eval g 5 (oneOf [chars 'a' ['b', 'c'], q]) s = pure ⟨s.advance 3, .err (.theChar 'c')⟩ := by
  intro g s q
  have hdiffers : s.Differs ['a', 'b'] 'c' := ⟨'x', [], State.before_start _, by decide⟩
  have hlevels : 1 + 0 + 3 ≤ 4 := by decide
  obtain ⟨-, hlast, -⟩ := choice_after_chars g hdiffers [] q hlevels
  exact ⟨hdiffers, hlevels, hlast rfl⟩

/-- Behind `a`, which has been read, a choice goes on if `bc` is wanted and `x` comes. -/
theorem not_choice_committed_by_reading :
    ¬ ∀ (g : Grammar) (c d : Char) (w rest : List Char) (q : Parser) (s : State) (r : Reply),
      s.Differs (c :: w) d → Replies g (chars c (w ++ d :: rest)) s r →
        Replies g (.orElse (chars c (w ++ d :: rest)) q) s r := by
  intro hcommits
  have hdiffers : (State.start #['a', 'x', 'c']).Differs ['a'] 'b' :=
    ⟨'x', ['c'], State.before_start _, by decide⟩
  have hrow : Replies .rule (chars 'a' ['b', 'c']) (.start #['a', 'x', 'c'])
      ⟨.start #['a', 'x', 'c'], .err (.theChar 'b')⟩ := ⟨4, by decide +kernel⟩
  have hchoice : Replies .rule (.orElse (chars 'a' ['b', 'c']) (char 'a')) (.start #['a', 'x', 'c'])
      ⟨⟨1, #['a', 'x', 'c']⟩, .ok .unit⟩ := ⟨5, by decide +kernel⟩
  have hcommitted := hcommits .rule 'a' 'b' [] ['c'] (char 'a') _ _ hdiffers hrow
  cases hcommitted.unique hchoice

end Descent
