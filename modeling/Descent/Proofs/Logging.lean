import Descent.Proofs.Choice
import Descent.Proofs.Nesting
import Descent.Proofs.SeparatedList
import Descent.Proofs.Untraced

/-!
# What is logged

`Logs g p s l r` adds to a reply without a limit what is logged on the way to it: with levels enough, `l`. The
rules put the logs of the operands of a combinator in a row, in the order in which they are evaluated.

A parser without traces, rules and runs inside logs nothing (`Parser.Silent`), so its replies alone are enough
(`Replies.silent`). A separated list that comes to its end logs what its items and separators log, up to the
separator that fails (`ListsOn`); the rounds of its loop are followed by `Turns`, and `turns_sepByRound_lt_rounds`
says that it has them.
-/

namespace Descent

open Evaluation Filter Descent.Parser

structure Logs (g : Grammar) (p : Parser) (s : State) (l : Log) (r : Reply) : Prop where
  replies : Replies g p s r
  log : ∀ᶠ depth in atTop, (eval g depth p s).log = l

variable {g : Grammar} {p q sep : Parser} {f : Value → Parser} {name : String} {s t u : State}
  {v w : Value} {vs : List Value} {e : Expected} {l l' : Log} {r : Reply}

theorem Logs.eventually (h : Logs g p s l r) :
    ∀ᶠ depth in atTop, eval g depth p s = ⟨l, .returned r⟩ := by
  filter_upwards [h.replies.eventually, h.log] with depth hgives hlog
  rw [← hlog, ← hgives.ending]

theorem Replies.logs_of_succ (h : Replies g p s r)
    (hlog : ∀ᶠ depth in atTop, (eval g (depth + 1) p s).log = l) : Logs g p s l r := by
  refine ⟨h, ?_⟩
  obtain ⟨depth, hlog⟩ := eventually_atTop.1 hlog
  refine eventually_atTop.2 ⟨depth + 1, fun n hn => ?_⟩
  obtain ⟨m, rfl⟩ : ∃ m, n = m + 1 := ⟨n - 1, by omega⟩
  exact hlog m (by omega)

theorem Logs.eval_eq {depth : Nat} (h : Logs g p s l r) (hshallow : (eval g depth p s).Shallow) :
    eval g depth p s = ⟨l, .returned r⟩ := by
  obtain ⟨n, hn, heval⟩ := (h.eventually.and (eventually_ge_atTop depth)).exists
  rw [← eval_approximates g heval p s hshallow]
  exact hn

/-! ## Silent parsers -/

/-- There are no traces in the parser, and no rules and runs inside that could have some. -/
abbrev Parser.Silent (p : Parser) : Prop := p.All fun q =>
  (∀ name r, q ≠ .trace name r) ∧ (∀ name, q ≠ .rule name) ∧ ∀ r source, q ≠ .subrun r source

/-- Whichever events are dropped, a silent parser is the same. -/
theorem Parser.Silent.only_eq (hp : p.Silent) (keep : Event → Bool) (depth : Nat) :
    (eval g depth p).only keep = eval g depth p := by
  induction depth generalizing p with
  | zero => rfl
  | succ n ih =>
    cases p with
    | bind p f =>
      have hnext : (fun v => (eval g n (f v)).only keep) = fun v => eval g n (f v) :=
        funext fun v => ih (hp.2.2 v)
      rw [eval_bind, Behaviour.only_bind, ih hp.2.1, hnext]
    | orElse p q => rw [eval_orElse, Behaviour.only_orElse, ih hp.2.1, ih hp.2.2]
    | attempt p => rw [eval_attempt, Behaviour.only_attempt, ih hp.2]
    | label e p => rw [eval_label, Behaviour.only_label, ih hp.2]
    | many p => rw [eval_many, Behaviour.only_many, ih hp.2]
    | sepBy1 p sep => rw [eval_sepBy1, Behaviour.only_sepBy1, ih hp.2.1, ih hp.2.2]
    | trace name p => exact absurd rfl (hp.self.1 name p)
    | rule name => exact absurd rfl (hp.self.2.1 name)
    | subrun p source => exact absurd rfl (hp.self.2.2 p source)
    | succeed | fail | anyChar | endOfInput | text => rfl

theorem Parser.Silent.log_eq_nil (hp : p.Silent) (depth : Nat) (s : State) :
    (eval g depth p s).log = [] := by
  have hnone : (eval g depth p s).only (fun _ => false) = eval g depth p s :=
    congrFun (hp.only_eq (fun _ => false) depth) s
  rw [← hnone]
  exact List.filter_eq_nil_iff.2 fun _ _ => Bool.false_ne_true

theorem Replies.silent (h : Replies g p s r) (hp : p.Silent) : Logs g p s [] r :=
  ⟨h, .of_forall fun depth => hp.log_eq_nil depth s⟩

/-! ## Combinators -/

theorem Logs.bind (hp : Logs g p s l ⟨t, .ok v⟩) (hf : Logs g (f v) t l' r) :
    Logs g (.bind p f) s (l ++ l') r := by
  refine (hp.replies.bind hf.replies).logs_of_succ ?_
  filter_upwards [hp.eventually, hf.log] with n hp hlog
  rw [eval_bind, Behaviour.bind_of_ok hp]
  exact congrArg (l ++ ·) hlog

theorem Logs.bind_err (hp : Logs g p s l ⟨t, .err e⟩) : Logs g (.bind p f) s l ⟨s, .err e⟩ := by
  refine hp.replies.bind_err.logs_of_succ ?_
  filter_upwards [hp.eventually] with n hp
  rw [eval_bind, Behaviour.bind_of_err hp]

theorem logs_succeed : Logs g (.succeed v) s [] ⟨s, .ok v⟩ :=
  (replies_succeed_iff.2 rfl).silent (by simp)

theorem Logs.seqRight (hp : Logs g p s l ⟨t, .ok v⟩) (hq : Logs g q t l' r) :
    Logs g (p.seqRight q) s (l ++ l') r :=
  hp.bind hq

theorem Logs.seqLeft (hp : Logs g p s l ⟨t, .ok v⟩) (hq : Logs g q t l' ⟨u, .ok w⟩) :
    Logs g (p.seqLeft q) s (l ++ l') ⟨u, .ok v⟩ := by
  rw [← List.append_nil l']
  exact hp.bind (hq.bind logs_succeed)

theorem Logs.orElse_of_not_declines (hp : Logs g p s l r) (hr : ¬ r.Declines s) :
    Logs g (.orElse p q) s l r := by
  refine (replies_orElse_iff_declines.2 (.inl ⟨hp.replies, hr⟩)).logs_of_succ ?_
  filter_upwards [hp.eventually] with n hp
  rw [eval_orElse_of_returned hp hr]

theorem Logs.orElse_of_declines {r' : Reply} (hp : Logs g p s l r') (hr : r'.Declines s)
    (hq : Logs g q s l' r) : Logs g (.orElse p q) s (l ++ l') r := by
  refine (replies_orElse_iff_declines.2 (.inr ⟨⟨r', hp.replies, hr⟩, hq.replies⟩)).logs_of_succ ?_
  filter_upwards [hp.eventually, hq.log] with n hp hlog
  rw [eval_orElse_of_declines hp hr]
  exact congrArg (l ++ ·) hlog

theorem Logs.rule (h : Logs g (g name) s l r) : Logs g (.rule name) s l r := by
  refine (replies_rule_iff.2 h.replies).logs_of_succ ?_
  filter_upwards [h.log] with n hlog
  rwa [eval_rule]

theorem Logs.trace (h : Logs g p s l r) (name : String) :
    Logs g (.trace name p) s (.trying name s :: (l ++ [.ofReply name r])) r := by
  refine (replies_trace_iff.2 h.replies).logs_of_succ ?_
  filter_upwards [h.eventually] with n h
  rw [eval_trace]
  unfold Behaviour.trace
  rw [h]
  rfl

/-! ## Separated lists -/

/-- From `s`, behind an item, a separated list goes on with the items `vs`, each behind a separator, to its end at
`u`; and `l` is what is logged on the way, the separator that fails there included. -/
inductive ListsOn (g : Grammar) (p sep : Parser) : State → List Value → Log → State → Prop
  | last {s t : State} {l : Log} {e : Expected} :
      Logs g sep s l ⟨t, .err e⟩ → ListsOn g p sep s [] l s
  | more {s a t u : State} {v w : Value} {vs : List Value} {l l' l'' : Log} :
      Logs g sep s l ⟨a, .ok w⟩ → Logs g p a l' ⟨t, .ok v⟩ → ListsOn g p sep t vs l'' u →
        ListsOn g p sep s (v :: vs) (l ++ l' ++ l'') u

theorem ListsOn.continues (h : ListsOn g p sep s vs l u) (v : Value) :
    Continues g p sep v s ⟨u, .ok (.list (v :: vs))⟩ := by
  induction h generalizing v with
  | last hsep => exact .last hsep.replies
  | more hsep hp _ ih => exact .more hsep.replies hp.replies (ih _)

/-- The rounds of the loop, and the one behind them that ends it. -/
theorem ListsOn.eventually_turns (h : ListsOn g p sep s vs l u) (v : Value) (chain : List Link) :
    ∀ᶠ n in atTop, ∃ k l₁ l₂ c r,
      Turns (Behaviour.sepByRound (eval g n p) (eval g n sep)) k ⟨s, v, chain⟩ l₁ c ∧
      Behaviour.sepByRound (eval g n p) (eval g n sep) c = ⟨l₂, .returned (.done r)⟩ ∧ l = l₁ ++ l₂ := by
  induction h generalizing v chain with
  | @last s t l e hsep =>
    filter_upwards [hsep.eventually] with n hsep
    refine ⟨0, [], l, ⟨s, v, chain⟩, ⟨s, .ok (.list (Link.items chain ++ [v]))⟩, .start _, ?_, rfl⟩
    unfold Behaviour.sepByRound
    rw [hsep, returned_bind]
    exact congrArg (Evaluation.mk · _) (List.append_nil l)
  | @more s a t u x w vs l l' l'' hsep hp hrest ih =>
    have hmoved : t.position ≠ s.position := fun hstill =>
      (Continues.more (v := v) hsep.replies hp.replies (hrest.continues x)).not_stalls
        (.here hsep.replies hp.replies hstill)
    filter_upwards [hsep.eventually, hp.eventually, ih x (⟨v, s, a⟩ :: chain)] with n hsep hp hturns
    obtain ⟨k, l₁, l₂, c, r, hturns, hdone, rfl⟩ := hturns
    have hround : Behaviour.sepByRound (eval g n p) (eval g n sep) ⟨s, v, chain⟩ =
        ⟨l ++ l', .returned (.again ⟨t, x, ⟨v, s, a⟩ :: chain⟩)⟩ := by
      unfold Behaviour.sepByRound
      rw [hsep, returned_bind]
      simp only [hp, returned_bind, if_neg hmoved]
      simp [pure_eq]
    exact ⟨k + 1, l ++ l' ++ l₁, l₂, c, r, .next hround hturns, hdone, by simp⟩

theorem Logs.sepBy1 (hp : Logs g p s l ⟨t, .ok v⟩) (h : ListsOn g p sep t vs l' u) :
    Logs g (.sepBy1 p sep) s (l ++ l') ⟨u, .ok (.list (v :: vs))⟩ := by
  refine (Separates.item hp.replies (h.continues v)).replies.logs_of_succ ?_
  filter_upwards [hp.eventually, h.eventually_turns v []] with n hp hturns
  obtain ⟨k, l₁, l₂, c, r, hturns, hdone, rfl⟩ := hturns
  have hlt : k < t.rounds := turns_sepByRound_lt_rounds hturns (congrArg Evaluation.ending hdone)
  obtain ⟨m, hm⟩ : ∃ m, t.rounds = k + (m + 1) := ⟨t.rounds - k - 1, by omega⟩
  rw [eval_sepBy1_of_item hp, hm, hturns.iterate, iterate_succ_eq, hdone]
  simp [after, Round.proceed, pure_eq]

theorem Logs.sepBy1_err (hp : Logs g p s l ⟨t, .err e⟩) : Logs g (.sepBy1 p sep) s l ⟨s, .err e⟩ := by
  refine (Separates.noItem hp.replies).replies.logs_of_succ ?_
  filter_upwards [hp.eventually] with n hp
  rw [eval_sepBy1]
  unfold Behaviour.sepBy1
  rw [Behaviour.bind_of_err hp]

/-! ## Runs -/

end Descent
