import Descent.Proofs.Calls
import Descent.Proofs.Choice
import Descent.Proofs.Nesting

/-!
# What a sequence keeps

`both`, `seqLeft` and `seqRight` read two parsers one after the other, and differ in the values they keep. How
the two parsers come out is the same for all three (`Course`), and the reply of each of them is a function of
that. The first two map the second parser, so that its failure is reported where it began, and are one
combinator with two functions (`replies_bind_map_iff`). `seqRight` has nothing left to do behind the second
parser and replies what that one replies (`replies_seqRight_iff`).

Hence the three have the same outcome always, and report the same state but where the second parser fails. For
a choice this is what counts: it runs its other alternative only where it has started (`runsSecond_iff`).
-/

namespace Descent

open Evaluation Descent.Parser

/-! ## Courses -/

/-- How two parsers in a row come out. -/
inductive Course where
  /-- Both succeed, and come to `u`. -/
  | through (u : State) (v w : Value)
  | firstFails (e : Expected)
  /-- The first one comes to `t`, and the second one fails at `u`. -/
  | secondFails (t u : State) (e : Expected)

namespace Course

/-- From `s`, this is how `p` and then `q` come out. -/
def Taken (g : Grammar) (p q : Parser) (s : State) : Course → Prop
  | through u v w => ∃ t, Replies g p s ⟨t, .ok v⟩ ∧ Replies g q t ⟨u, .ok w⟩
  | firstFails e => ∃ t, Replies g p s ⟨t, .err e⟩
  | secondFails t u e => ∃ v, Replies g p s ⟨t, .ok v⟩ ∧ Replies g q t ⟨u, .err e⟩

/-- The reply of a sequence from `s` that keeps `keep v w` of two values. Of the state where the second parser
begins and the one where it fails, it reports `report t u`. -/
def reply (s : State) (keep : Value → Value → Value) (report : State → State → State) : Course → Reply
  | through u v w => ⟨u, .ok (keep v w)⟩
  | firstFails e => ⟨s, .err e⟩
  | secondFails t u e => ⟨report t u, .err e⟩

end Course

variable {g : Grammar} {p q : Parser} {s t : State} {r : Reply} {e : Expected} {n : Nat}

theorem replies_bind_map_iff {keep : Value → Value → Value} :
    Replies g (.bind p fun v => q.map (keep v)) s r ↔
      ∃ c : Course, c.Taken g p q s ∧ r = c.reply s keep fun t _ => t := by
  rw [replies_bind_iff]
  simp only [replies_map_iff]
  constructor
  · intro h
    obtain ⟨t, v, hp, ⟨u, w, hq, rfl⟩ | ⟨u, e, hq, rfl⟩⟩ | ⟨t, e, hp, rfl⟩ := h
    · exact ⟨.through u v w, ⟨t, hp, hq⟩, rfl⟩
    · exact ⟨.secondFails t u e, ⟨v, hp, hq⟩, rfl⟩
    · exact ⟨.firstFails e, ⟨t, hp⟩, rfl⟩
  · intro ⟨c, hc, hr⟩
    cases c with
    | through u v w =>
      obtain ⟨t, hp, hq⟩ := hc
      exact .inl ⟨t, v, hp, .inl ⟨u, w, hq, hr⟩⟩
    | firstFails e =>
      obtain ⟨t, hp⟩ := hc
      exact .inr ⟨t, e, hp, hr⟩
    | secondFails t u e =>
      obtain ⟨v, hp, hq⟩ := hc
      exact .inl ⟨t, v, hp, .inr ⟨u, e, hq, hr⟩⟩

theorem replies_both_iff : Replies g (p.both q) s r ↔
    ∃ c : Course, c.Taken g p q s ∧ r = c.reply s (fun v w => .tuple [v, w]) fun t _ => t :=
  replies_bind_map_iff

theorem replies_seqLeft_iff : Replies g (p.seqLeft q) s r ↔
    ∃ c : Course, c.Taken g p q s ∧ r = c.reply s (fun v _ => v) fun t _ => t :=
  replies_bind_map_iff

theorem replies_seqRight_iff : Replies g (p.seqRight q) s r ↔
    ∃ c : Course, c.Taken g p q s ∧ r = c.reply s (fun _ w => w) fun _ u => u := by
  unfold seqRight
  rw [replies_bind_iff]
  constructor
  · intro h
    obtain ⟨t, v, hp, hq⟩ | ⟨t, e, hp, rfl⟩ := h
    · obtain ⟨u, w | e⟩ := r
      · exact ⟨.through u v w, ⟨t, hp, hq⟩, rfl⟩
      · exact ⟨.secondFails t u e, ⟨v, hp, hq⟩, rfl⟩
    · exact ⟨.firstFails e, ⟨t, hp⟩, rfl⟩
  · intro ⟨c, hc, hr⟩
    subst hr
    cases c with
    | through u v w =>
      obtain ⟨t, hp, hq⟩ := hc
      exact .inl ⟨t, v, hp, hq⟩
    | firstFails e =>
      obtain ⟨t, hp⟩ := hc
      exact .inr ⟨t, e, hp, rfl⟩
    | secondFails t u e =>
      obtain ⟨v, hp, hq⟩ := hc
      exact .inl ⟨t, v, hp, hq⟩

theorem Course.Taken.replies {c : Course} (hc : c.Taken g p q s) :
    Replies g (p.both q) s (c.reply s (fun v w => .tuple [v, w]) fun t _ => t) ∧
      Replies g (p.seqLeft q) s (c.reply s (fun v _ => v) fun t _ => t) ∧
      Replies g (p.seqRight q) s (c.reply s (fun _ w => w) fun _ u => u) :=
  ⟨replies_both_iff.2 ⟨c, hc, rfl⟩, replies_seqLeft_iff.2 ⟨c, hc, rfl⟩,
    replies_seqRight_iff.2 ⟨c, hc, rfl⟩⟩

theorem exists_course (h : Replies g (p.both q) s r ∨ Replies g (p.seqLeft q) s r ∨
    Replies g (p.seqRight q) s r) : ∃ c : Course, c.Taken g p q s := by
  obtain h | h | h := h
  · obtain ⟨c, hc, -⟩ := replies_both_iff.1 h
    exact ⟨c, hc⟩
  · obtain ⟨c, hc, -⟩ := replies_seqLeft_iff.1 h
    exact ⟨c, hc⟩
  · obtain ⟨c, hc, -⟩ := replies_seqRight_iff.1 h
    exact ⟨c, hc⟩

/-! ## The other alternative -/

/-- The choice between `p` and `q` from `s`, with `n` levels for each of them, runs `q`: this is a call that it
makes behind the whole log of `p`, and its last one, whose reply is that of the choice. -/
def RunsSecond (g : Grammar) (n : Nat) (p q : Parser) (s : State) : Prop :=
  ∃ l, Enters g ⟨n + 1, .orElse p q, s⟩ ⟨l, [], pure⟩ ⟨n, q, s⟩

/-- What a choice makes of the reply of its first alternative is not the reply itself, whatever that is: two
failures at the start become one evaluation. -/
theorem replying_orElse_ne_pure (b : Behaviour) (s : State) :
    (fun r => (Behaviour.replying r).orElse b s) ≠ pure := by
  intro h
  have hb : ∀ e, b s = pure ⟨s, .err e⟩ := by
    intro e
    have he := congrFun h ⟨s, .err e⟩
    simpa [Behaviour.orElse, Behaviour.replying] using he
  have hfailures := (hb .aChar).symm.trans (hb .endOfInput)
  cases hfailures

theorem runsSecond_iff : RunsSecond g n p q s ↔
    ∃ r, (eval g n p s).ending = .returned r ∧ r.Declines s := by
  constructor
  · intro ⟨l, h⟩
    generalize hK : (⟨l, [], pure⟩ : Context) = K at h
    cases h with
    | orElseFirst =>
      -- The two alternatives are one parser here, and the call is the one of the first of them.
      exact absurd (congrArg Context.resume hK).symm (replying_orElse_ne_pure _ s)
    | orElseSecond hp hstill => exact ⟨_, congrArg Evaluation.ending hp, rfl, hstill⟩
  · intro ⟨r, hp, hr⟩
    obtain ⟨t, v | e⟩ := r
    · exact absurd hr (Reply.not_declines_ok s t v)
    · exact ⟨_, .orElseSecond (eq_of_ending hp) hr.stays⟩

theorem eval_orElse_of_not_runsSecond (h : ¬ RunsSecond g n p q s) :
    eval g (n + 1) (.orElse p q) s = eval g n p s :=
  eval_orElse_of_not_declines fun r hp hr => h (runsSecond_iff.2 ⟨r, hp, hr⟩)

/-- Behind a failure at `t`, the second alternative is run exactly if the choice started at its position. -/
theorem runsSecond_iff_of_replies_err (hp : Replies g p s ⟨t, .err e⟩) (hn : (eval g n p s).Shallow) :
    RunsSecond g n p q s ↔ t.position = s.position := by
  rw [runsSecond_iff, (hp.gives hn).ending, ← Reply.declines_err_iff (e := e)]
  constructor
  · intro ⟨r, hr, hdeclines⟩
    cases hr
    exact hdeclines
  · intro hdeclines
    exact ⟨_, rfl, hdeclines⟩

/-! ## Agreement -/

/-- The three ways to read `p` and then `q` succeed together, in one state, and keep both values, the first one
and the second one of the same two, which are those of `p` and of `q`; or they fail together, with one reason.
Where `p` fails, all three report the start. Where `p` comes to `t` and `q` fails at `u`, `seqRight` reports `u`
and the others report `t`. This decides what a choice makes of the failure: the other alternative is run exactly
if the state reported has the position where the choice started, and where it is not run it has no part in the
evaluation. -/
theorem sequences_agree_but_for_failure_state (g : Grammar) (p q : Parser) (s : State) :
    let both := p.both q
    let left := p.seqLeft q
    let right := p.seqRight q
    (∀ r, Replies g both s r ∨ Replies g left s r ∨ Replies g right s r →
      (∃ u v w, Replies g both s ⟨u, .ok (.tuple [v, w])⟩ ∧ Replies g left s ⟨u, .ok v⟩ ∧
        Replies g right s ⟨u, .ok w⟩) ∨
      ∃ e, (∃ t, Replies g both s ⟨t, .err e⟩) ∧ (∃ t, Replies g left s ⟨t, .err e⟩) ∧
        ∃ t, Replies g right s ⟨t, .err e⟩) ∧
      (∀ t u v w, Replies g p s ⟨t, .ok v⟩ → Replies g q t ⟨u, .ok w⟩ →
        Replies g both s ⟨u, .ok (.tuple [v, w])⟩ ∧ Replies g left s ⟨u, .ok v⟩ ∧
          Replies g right s ⟨u, .ok w⟩) ∧
      (∀ t e, Replies g p s ⟨t, .err e⟩ →
        Replies g both s ⟨s, .err e⟩ ∧ Replies g left s ⟨s, .err e⟩ ∧ Replies g right s ⟨s, .err e⟩) ∧
      (∀ t u v e, Replies g p s ⟨t, .ok v⟩ → Replies g q t ⟨u, .err e⟩ →
        (Replies g both s ⟨t, .err e⟩ ∧ Replies g left s ⟨t, .err e⟩ ∧ Replies g right s ⟨u, .err e⟩) ∧
        ∀ q' n,
          ((eval g n both s).Shallow → (RunsSecond g n both q' s ↔ t.position = s.position)) ∧
          ((eval g n left s).Shallow → (RunsSecond g n left q' s ↔ t.position = s.position)) ∧
          ((eval g n right s).Shallow → (RunsSecond g n right q' s ↔ u.position = s.position))) ∧
      ∀ p' q' n, ¬ RunsSecond g n p' q' s → eval g (n + 1) (.orElse p' q') s = eval g n p' s := by
  intro both left right
  have hthrough : ∀ u v w, (Course.through u v w).Taken g p q s →
      Replies g both s ⟨u, .ok (.tuple [v, w])⟩ ∧ Replies g left s ⟨u, .ok v⟩ ∧
        Replies g right s ⟨u, .ok w⟩ := fun _ _ _ hc => hc.replies
  have hfirst : ∀ e, (Course.firstFails e).Taken g p q s →
      Replies g both s ⟨s, .err e⟩ ∧ Replies g left s ⟨s, .err e⟩ ∧ Replies g right s ⟨s, .err e⟩ :=
    fun _ hc => hc.replies
  have hsecond : ∀ t u e, (Course.secondFails t u e).Taken g p q s →
      Replies g both s ⟨t, .err e⟩ ∧ Replies g left s ⟨t, .err e⟩ ∧ Replies g right s ⟨u, .err e⟩ :=
    fun _ _ _ hc => hc.replies
  refine ⟨fun r h => ?_, fun t u v w hp hq => hthrough u v w ⟨t, hp, hq⟩, fun t e hp => hfirst e ⟨t, hp⟩,
    fun t u v e hp hq => ?_, fun p' q' n h => eval_orElse_of_not_runsSecond h⟩
  · obtain ⟨c, hc⟩ := exists_course h
    cases c with
    | through u v w => exact .inl ⟨u, v, w, hthrough u v w hc⟩
    | firstFails e =>
      obtain ⟨hboth, hleft, hright⟩ := hfirst e hc
      exact .inr ⟨e, ⟨s, hboth⟩, ⟨s, hleft⟩, ⟨s, hright⟩⟩
    | secondFails t u e =>
      obtain ⟨hboth, hleft, hright⟩ := hsecond t u e hc
      exact .inr ⟨e, ⟨t, hboth⟩, ⟨t, hleft⟩, ⟨u, hright⟩⟩
  · obtain ⟨hboth, hleft, hright⟩ := hsecond t u e ⟨v, hp, hq⟩
    exact ⟨⟨hboth, hleft, hright⟩, fun q' n => ⟨runsSecond_iff_of_replies_err hboth,
      runsSecond_iff_of_replies_err hleft, runsSecond_iff_of_replies_err hright⟩⟩

/-- Behind a step that reads nothing, a character that is not there: another alternative has its turn behind
`both` and `seqLeft`, and not behind `seqRight`. With the character first, all three report the start, and
behind the character that is there, all three succeed. -/
theorem sequences_agree_but_for_failure_state_unread :
    let g : Grammar := .rule
    let s : State := .start #['a', 'b']
    let p : Parser := .succeed (.int 1)
    let q : Parser := .char 'b'
    let a : Value := .ofChar 'a'
    (Replies g p s ⟨s, .ok (.int 1)⟩ ∧ Replies g q s ⟨s.advance 1, .err (.theChar 'b')⟩ ∧
      (Replies g (p.both q) s ⟨s, .err (.theChar 'b')⟩ ∧ Replies g (p.seqLeft q) s ⟨s, .err (.theChar 'b')⟩ ∧
        Replies g (p.seqRight q) s ⟨s.advance 1, .err (.theChar 'b')⟩) ∧
      RunsSecond g 5 (p.both q) .anyChar s ∧ RunsSecond g 5 (p.seqLeft q) .anyChar s ∧
      ¬ RunsSecond g 5 (p.seqRight q) .anyChar s ∧
      eval g 6 (.orElse (p.seqRight q) .anyChar) s = eval g 5 (p.seqRight q) s) ∧
    (Replies g (q.both p) s ⟨s, .err (.theChar 'b')⟩ ∧ Replies g (q.seqLeft p) s ⟨s, .err (.theChar 'b')⟩ ∧
      Replies g (q.seqRight p) s ⟨s, .err (.theChar 'b')⟩) ∧
    Replies g .anyChar s ⟨s.advance 1, .ok a⟩ ∧ Replies g q (s.advance 1) ⟨s.advance 2, .ok .unit⟩ ∧
    (Replies g (Parser.anyChar.both q) s ⟨s.advance 2, .ok (.tuple [a, .unit])⟩ ∧
      Replies g (Parser.anyChar.seqLeft q) s ⟨s.advance 2, .ok a⟩ ∧
      Replies g (Parser.anyChar.seqRight q) s ⟨s.advance 2, .ok .unit⟩) ∧
    ∃ u v w, Replies g (Parser.anyChar.both q) s ⟨u, .ok (.tuple [v, w])⟩ ∧
      Replies g (Parser.anyChar.seqLeft q) s ⟨u, .ok v⟩ ∧ Replies g (Parser.anyChar.seqRight q) s ⟨u, .ok w⟩ := by
  intro g s p q a
  have hp : Replies g p s ⟨s, .ok (.int 1)⟩ := ⟨1, by decide +kernel⟩
  have hq : Replies g q s ⟨s.advance 1, .err (.theChar 'b')⟩ := ⟨2, by decide +kernel⟩
  obtain ⟨-, -, -, hsecond, hnot⟩ := sequences_agree_but_for_failure_state g p q s
  obtain ⟨hreplies, hruns⟩ := hsecond _ _ _ _ hp hq
  obtain ⟨hboth, hleft, hright⟩ := hruns .anyChar 5
  have hends : ¬ RunsSecond g 5 (p.seqRight q) .anyChar s :=
    mt (hright (by decide +kernel)).1 (by decide)
  obtain ⟨-, -, hfirst, -⟩ := sequences_agree_but_for_failure_state g q p s
  obtain ⟨hagree, hthrough, -⟩ := sequences_agree_but_for_failure_state g .anyChar q s
  have hread : Replies g .anyChar s ⟨s.advance 1, .ok a⟩ := ⟨1, by decide +kernel⟩
  have hthere : Replies g q (s.advance 1) ⟨s.advance 2, .ok .unit⟩ := ⟨2, by decide +kernel⟩
  have hall := hthrough _ _ _ _ hread hthere
  refine ⟨⟨hp, hq, hreplies, (hboth (by decide +kernel)).2 rfl, (hleft (by decide +kernel)).2 rfl, hends,
    hnot _ _ 5 hends⟩, hfirst _ _ hq, hread, hthere, hall, ?_⟩
  obtain hsucceed | ⟨e, ⟨t, hfail⟩, -⟩ := hagree _ (.inl hall.1)
  · exact hsucceed
  · cases hfail.unique hall.1

end Descent
