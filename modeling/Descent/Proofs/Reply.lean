import Mathlib.Order.Filter.AtTopBot.Basic
import Descent.Eval
import Descent.Proofs.Returning

/-!
# Replies

What a parser replies when nesting is no obstacle: `Replies g p s r` says that within some number of
levels `p` gives `r` from `s`. By `eval_approximates` it then does so within every larger number, the log
included, so there is at most one such reply. The rules below give the replies of a combinator by
those of its operands.
-/

namespace Descent

open Evaluation Filter

/-! ## More levels -/

namespace Behaviour

def Approximates (b b' : Behaviour) : Prop := ∀ s, (b s).Approximates (b' s)

variable {p p' q q' sep sep' : Behaviour}

theorem Approximates.bind {f f' : Value → Behaviour} (hp : p.Approximates p')
    (hf : ∀ v, (f v).Approximates (f' v)) : (p.bind f).Approximates (p'.bind f') := by
  intro s
  refine (hp s).bind ?_
  rintro ⟨t, v | e⟩
  · exact hf v t
  · exact .refl _

theorem Approximates.orElse (hp : p.Approximates p') (hq : q.Approximates q') :
    (p.orElse q).Approximates (p'.orElse q') := by
  intro s
  refine (hp s).bind ?_
  rintro ⟨t, v | e⟩
  · exact .refl _
  · by_cases h : t.position = s.position
    · simp only [if_pos h]
      exact hq s
    · simp only [if_neg h]
      exact .refl _

theorem Approximates.attempt (hp : p.Approximates p') : p.attempt.Approximates p'.attempt :=
  fun s => (hp s).bind fun _ => .refl _

theorem Approximates.label (hp : p.Approximates p') (e : Expected) :
    (p.label e).Approximates (p'.label e) :=
  fun s => (hp s).bind fun _ => .refl _

theorem Approximates.trace (hp : p.Approximates p') (name : String) :
    (p.trace name).Approximates (p'.trace name) :=
  fun s => Evaluation.Approximates.bind (.refl _) fun _ => (hp s).bind fun _ => .refl _

theorem Approximates.many (hp : p.Approximates p') : p.many.Approximates p'.many := by
  have hround : ∀ now, (manyRound p now).Approximates (manyRound p' now) :=
    fun now => (hp now.current).bind fun _ => .refl _
  exact fun s => .iterate hround _ _

theorem Approximates.sepBy1 (hp : p.Approximates p') (hsep : sep.Approximates sep') :
    (p.sepBy1 sep).Approximates (p'.sepBy1 sep') := by
  have hround : ∀ c, (sepByRound p sep c).Approximates (sepByRound p' sep' c) := by
    intro c
    refine (hsep c.current).bind ?_
    rintro ⟨after, w | e⟩
    · exact (hp after).bind fun _ => .refl _
    · exact .refl _
  exact hp.bind fun v s => .iterate hround _ _

end Behaviour

/-- With more levels a shallow evaluation stays as it is. -/
theorem eval_approximates (g : Grammar) {depth depth' : Nat} (h : depth ≤ depth') (p : Parser) :
    (eval g depth p).Approximates (eval g depth' p) := by
  induction depth generalizing depth' p with
  | zero => exact fun s => tooDeep_approximates _
  | succ depth ih =>
    obtain ⟨depth', rfl⟩ : ∃ n, depth' = n + 1 := ⟨depth' - 1, by omega⟩
    have ih : ∀ q, (eval g depth q).Approximates (eval g depth' q) := ih (Nat.le_of_succ_le_succ h)
    cases p with
    | bind p f =>
      rw [eval_bind, eval_bind]
      exact .bind (ih p) fun v => ih (f v)
    | orElse p q =>
      rw [eval_orElse, eval_orElse]
      exact .orElse (ih p) (ih q)
    | attempt p =>
      rw [eval_attempt, eval_attempt]
      exact .attempt (ih p)
    | label e p =>
      rw [eval_label, eval_label]
      exact .label (ih p) e
    | many p =>
      rw [eval_many, eval_many]
      exact .many (ih p)
    | sepBy1 p sep =>
      rw [eval_sepBy1, eval_sepBy1]
      exact .sepBy1 (ih p) (ih sep)
    | trace name p =>
      rw [eval_trace, eval_trace]
      exact .trace (ih p) name
    | rule name =>
      rw [eval_rule, eval_rule]
      exact ih (g name)
    | subrun p source =>
      intro s
      rw [eval_subrun, eval_subrun]
      exact Evaluation.Approximates.bind (.settle (ih p (.start source))) fun _ => .refl _
    | _ => exact fun s => .refl _

/-! ## Replies without a limit -/

/-- `p` gives `r` from `s`, within some number of levels. -/
def Replies (g : Grammar) (p : Parser) (s : State) (r : Reply) : Prop :=
  ∃ depth, (eval g depth p s).Gives r

variable {g : Grammar} {p q : Parser} {s t : State} {r r' : Reply}

theorem Replies.eventually (h : Replies g p s r) :
    ∀ᶠ depth in atTop, (eval g depth p s).Gives r := by
  obtain ⟨depth, h⟩ := h
  refine eventually_atTop.2 ⟨depth, fun depth' hle => ?_⟩
  rw [eval_approximates g hle p s h.shallow]
  exact h

theorem replies_of_eventually_succ (h : ∀ᶠ depth in atTop, (eval g (depth + 1) p s).Gives r) :
    Replies g p s r :=
  let ⟨depth, h⟩ := h.exists
  ⟨depth + 1, h⟩

theorem exists_succ_of_gives {depth : Nat} (h : (eval g depth p s).Gives r) :
    ∃ n < depth, (eval g (n + 1) p s).Gives r := by
  cases depth with
  | zero =>
    rw [eval_zero] at h
    exact absurd h (not_gives_tooDeep r)
  | succ n => exact ⟨n, Nat.lt_succ_self n, h⟩

theorem Replies.exists_succ (h : Replies g p s r) : ∃ depth, (eval g (depth + 1) p s).Gives r := by
  obtain ⟨depth, h⟩ := h
  obtain ⟨n, -, h⟩ := exists_succ_of_gives h
  exact ⟨n, h⟩

theorem Replies.unique (h : Replies g p s r) (h' : Replies g p s r') : r = r' :=
  let ⟨_, h, h'⟩ := (h.eventually.and h'.eventually).exists
  h.unique h'

/-! ## Rules for behaviours -/

namespace Behaviour

variable {p q : Behaviour} {s : State} {r : Reply}

theorem gives_bind_iff {f : Value → Behaviour} :
    (p.bind f s).Gives r ↔ (∃ t v, (p s).Gives ⟨t, .ok v⟩ ∧ (f v t).Gives r) ∨
      ∃ t e, (p s).Gives ⟨t, .err e⟩ ∧ r = ⟨s, .err e⟩ := by
  refine Evaluation.gives_bind_iff.trans ⟨?_, ?_⟩
  · rintro ⟨⟨t, v | e⟩, hp, h⟩
    · exact .inl ⟨t, v, hp, h⟩
    · exact .inr ⟨t, e, hp, gives_pure_iff.1 h⟩
  · rintro (⟨t, v, hp, h⟩ | ⟨t, e, hp, h⟩)
    · exact ⟨_, hp, h⟩
    · exact ⟨_, hp, gives_pure_iff.2 h⟩

theorem gives_orElse_iff :
    (p.orElse q s).Gives r ↔ (∃ t v, (p s).Gives ⟨t, .ok v⟩ ∧ r = ⟨t, .ok v⟩) ∨
      ∃ t e, (p s).Gives ⟨t, .err e⟩ ∧
        (t.position = s.position ∧ (q s).Gives r ∨ t.position ≠ s.position ∧ r = ⟨t, .err e⟩) := by
  refine Evaluation.gives_bind_iff.trans ⟨?_, ?_⟩
  · rintro ⟨⟨t, v | e⟩, hp, h⟩
    · exact .inl ⟨t, v, hp, gives_pure_iff.1 h⟩
    · refine .inr ⟨t, e, hp, ?_⟩
      by_cases ht : t.position = s.position
      · simp only [if_pos ht] at h
        exact .inl ⟨ht, h⟩
      · simp only [if_neg ht] at h
        exact .inr ⟨ht, gives_pure_iff.1 h⟩
  · rintro (⟨t, v, hp, h⟩ | ⟨t, e, hp, ⟨ht, h⟩ | ⟨ht, h⟩⟩)
    · exact ⟨_, hp, gives_pure_iff.2 h⟩
    · refine ⟨_, hp, ?_⟩
      simp only [if_pos ht]
      exact h
    · refine ⟨_, hp, ?_⟩
      simp only [if_neg ht]
      exact gives_pure_iff.2 h

theorem gives_attempt_iff :
    (p.attempt s).Gives r ↔ (∃ t v, (p s).Gives ⟨t, .ok v⟩ ∧ r = ⟨t, .ok v⟩) ∨
      ∃ t e, (p s).Gives ⟨t, .err e⟩ ∧ r = ⟨s, .err e⟩ := by
  refine Evaluation.gives_bind_iff.trans ⟨?_, ?_⟩
  · rintro ⟨⟨t, v | e⟩, hp, h⟩
    · exact .inl ⟨t, v, hp, gives_pure_iff.1 h⟩
    · exact .inr ⟨t, e, hp, gives_pure_iff.1 h⟩
  · rintro (⟨t, v, hp, h⟩ | ⟨t, e, hp, h⟩)
    · exact ⟨_, hp, gives_pure_iff.2 h⟩
    · exact ⟨_, hp, gives_pure_iff.2 h⟩

theorem gives_trace_iff {name : String} : (p.trace name s).Gives r ↔ (p s).Gives r := by
  have hnote : ∀ (e : Event) (u : Unit), (Evaluation.note e).Gives u ↔ e.isExceeded = false := by
    intro e u
    exact ⟨fun h => shallow_note_iff.1 h.shallow, fun h => ⟨shallow_note_iff.2 h, rfl⟩⟩
  have hclose : ∀ r, (Event.ofReply name r).isExceeded = false := by
    rintro ⟨t, v | e⟩ <;> rfl
  simp only [trace, Evaluation.gives_bind_iff, hnote, gives_pure_iff]
  constructor
  · rintro ⟨_, -, r', hp, _, -, rfl⟩
    exact hp
  · exact fun hp => ⟨(), rfl, r, hp, (), hclose r, rfl⟩

end Behaviour

/-! ## Inversions within a number of levels

Each inversion says that the replies of the operands take fewer levels, which is what an induction on the
number of levels needs. -/

open Descent.Parser

section
variable {depth : Nat} {f : Value → Parser}

theorem gives_bind_inv (h : (eval g depth (.bind p f) s).Gives r) : ∃ n < depth,
    (∃ t v, (eval g n p s).Gives ⟨t, .ok v⟩ ∧ (eval g n (f v) t).Gives r) ∨
      ∃ t e, (eval g n p s).Gives ⟨t, .err e⟩ ∧ r = ⟨s, .err e⟩ := by
  obtain ⟨n, hn, h⟩ := exists_succ_of_gives h
  rw [eval_bind] at h
  exact ⟨n, hn, Behaviour.gives_bind_iff.1 h⟩

theorem gives_succeed_inv {v : Value} (h : (eval g depth (.succeed v) s).Gives r) :
    r = ⟨s, .ok v⟩ := by
  obtain ⟨n, -, h⟩ := exists_succ_of_gives h
  rw [eval_succeed] at h
  exact gives_pure_iff.1 h

theorem gives_rule_inv {name : String} (h : (eval g depth (.rule name) s).Gives r) :
    ∃ n < depth, (eval g n (g name) s).Gives r := by
  obtain ⟨n, hn, h⟩ := exists_succ_of_gives h
  rw [eval_rule] at h
  exact ⟨n, hn, h⟩

theorem gives_orElse_inv (h : (eval g depth (.orElse p q) s).Gives r) : ∃ n < depth,
    (∃ t v, (eval g n p s).Gives ⟨t, .ok v⟩ ∧ r = ⟨t, .ok v⟩) ∨
      ∃ t e, (eval g n p s).Gives ⟨t, .err e⟩ ∧
        (t.position = s.position ∧ (eval g n q s).Gives r ∨
          t.position ≠ s.position ∧ r = ⟨t, .err e⟩) := by
  obtain ⟨n, hn, h⟩ := exists_succ_of_gives h
  rw [eval_orElse] at h
  exact ⟨n, hn, Behaviour.gives_orElse_iff.1 h⟩

theorem gives_attempt_inv (h : (eval g depth (.attempt p) s).Gives r) : ∃ n < depth,
    (∃ t v, (eval g n p s).Gives ⟨t, .ok v⟩ ∧ r = ⟨t, .ok v⟩) ∨
      ∃ t e, (eval g n p s).Gives ⟨t, .err e⟩ ∧ r = ⟨s, .err e⟩ := by
  obtain ⟨n, hn, h⟩ := exists_succ_of_gives h
  rw [eval_attempt] at h
  exact ⟨n, hn, Behaviour.gives_attempt_iff.1 h⟩

theorem gives_map_inv {f : Value → Value} (h : (eval g depth (p.map f) s).Gives r) :
    ∃ n < depth, (∃ t v, (eval g n p s).Gives ⟨t, .ok v⟩ ∧ r = ⟨t, .ok (f v)⟩) ∨
      ∃ t e, (eval g n p s).Gives ⟨t, .err e⟩ ∧ r = ⟨s, .err e⟩ := by
  obtain ⟨n, hn, ⟨t, v, hp, h⟩ | ⟨t, e, hp, h⟩⟩ := gives_bind_inv h
  · exact ⟨n, hn, .inl ⟨t, v, hp, gives_succeed_inv h⟩⟩
  · exact ⟨n, hn, .inr ⟨t, e, hp, h⟩⟩

theorem gives_oneOf_succeed_inv {v : Value} (h : (eval g depth (oneOf [p, succeed v]) s).Gives r) :
    ∃ n < depth, (∃ t w, (eval g n p s).Gives ⟨t, .ok w⟩ ∧ r = ⟨t, .ok w⟩) ∨
      ∃ t e, (eval g n p s).Gives ⟨t, .err e⟩ ∧
        r = if t.position = s.position then ⟨s, .ok v⟩ else ⟨t, .err e⟩ := by
  obtain ⟨n, hn, ⟨t, w, hp, h⟩ | ⟨t, e, hp, ⟨ht, h⟩ | ⟨ht, h⟩⟩⟩ := gives_orElse_inv h
  · exact ⟨n, hn, .inl ⟨t, w, hp, h⟩⟩
  · obtain ⟨m, -, ⟨u, w, hv, hr⟩ | ⟨u, e', hv, -⟩⟩ := gives_orElse_inv h
    · rw [gives_succeed_inv hv] at hr
      exact ⟨n, hn, .inr ⟨t, e, hp, by rw [if_pos ht, hr]⟩⟩
    · cases gives_succeed_inv hv
  · exact ⟨n, hn, .inr ⟨t, e, hp, by rw [if_neg ht, h]⟩⟩

end

/-! ## Rules without a limit -/

section
variable {f : Value → Parser}

theorem replies_iff_of_pure (h : ∀ depth, eval g (depth + 1) p s = pure r') :
    Replies g p s r ↔ r = r' := by
  constructor
  · intro hr
    obtain ⟨depth, hr⟩ := hr.exists_succ
    rw [h] at hr
    exact gives_pure_iff.1 hr
  · rintro rfl
    exact ⟨1, (h 0) ▸ gives_pure_iff.2 rfl⟩

theorem replies_succeed_iff {v : Value} : Replies g (.succeed v) s r ↔ r = ⟨s, .ok v⟩ :=
  replies_iff_of_pure fun _ => rfl

theorem replies_fail_iff {e : Expected} : Replies g (.fail e) s r ↔ r = ⟨s, .err e⟩ :=
  replies_iff_of_pure fun _ => rfl

theorem replies_anyChar_iff : Replies g .anyChar s r ↔ r = s.readChar :=
  replies_iff_of_pure fun _ => rfl

theorem replies_endOfInput_iff : Replies g .endOfInput s r ↔ r = s.readEnd :=
  replies_iff_of_pure fun _ => rfl

theorem replies_rule_iff {name : String} :
    Replies g (.rule name) s r ↔ Replies g (g name) s r := by
  constructor
  · rintro ⟨depth, h⟩
    obtain ⟨n, -, h⟩ := gives_rule_inv h
    exact ⟨n, h⟩
  · rintro ⟨depth, h⟩
    exact ⟨depth + 1, h⟩

theorem replies_bind_iff :
    Replies g (.bind p f) s r ↔ (∃ t v, Replies g p s ⟨t, .ok v⟩ ∧ Replies g (f v) t r) ∨
      ∃ t e, Replies g p s ⟨t, .err e⟩ ∧ r = ⟨s, .err e⟩ := by
  constructor
  · rintro ⟨depth, h⟩
    obtain ⟨n, -, ⟨t, v, hp, hf⟩ | ⟨t, e, hp, h⟩⟩ := gives_bind_inv h
    · exact .inl ⟨t, v, ⟨n, hp⟩, ⟨n, hf⟩⟩
    · exact .inr ⟨t, e, ⟨n, hp⟩, h⟩
  · rintro (⟨t, v, hp, hf⟩ | ⟨t, e, hp, h⟩) <;> apply replies_of_eventually_succ
    · filter_upwards [hp.eventually, hf.eventually] with n hp hf
      exact Behaviour.gives_bind_iff.2 (.inl ⟨t, v, hp, hf⟩)
    · filter_upwards [hp.eventually] with n hp
      exact Behaviour.gives_bind_iff.2 (.inr ⟨t, e, hp, h⟩)

theorem Replies.bind {v : Value} (hp : Replies g p s ⟨t, .ok v⟩) (hf : Replies g (f v) t r) :
    Replies g (.bind p f) s r := replies_bind_iff.2 (.inl ⟨t, v, hp, hf⟩)

theorem Replies.bind_err {e : Expected} (hp : Replies g p s ⟨t, .err e⟩) :
    Replies g (.bind p f) s ⟨s, .err e⟩ := replies_bind_iff.2 (.inr ⟨t, e, hp, rfl⟩)

theorem replies_orElse_iff :
    Replies g (.orElse p q) s r ↔ (∃ t v, Replies g p s ⟨t, .ok v⟩ ∧ r = ⟨t, .ok v⟩) ∨
      ∃ t e, Replies g p s ⟨t, .err e⟩ ∧
        (t.position = s.position ∧ Replies g q s r ∨
          t.position ≠ s.position ∧ r = ⟨t, .err e⟩) := by
  constructor
  · rintro ⟨depth, h⟩
    obtain ⟨n, -, ⟨t, v, hp, h⟩ | ⟨t, e, hp, ⟨ht, hq⟩ | ⟨ht, h⟩⟩⟩ := gives_orElse_inv h
    · exact .inl ⟨t, v, ⟨n, hp⟩, h⟩
    · exact .inr ⟨t, e, ⟨n, hp⟩, .inl ⟨ht, n, hq⟩⟩
    · exact .inr ⟨t, e, ⟨n, hp⟩, .inr ⟨ht, h⟩⟩
  · rintro (⟨t, v, hp, h⟩ | ⟨t, e, hp, ⟨ht, hq⟩ | ⟨ht, h⟩⟩) <;> apply replies_of_eventually_succ
    · filter_upwards [hp.eventually] with n hp
      exact Behaviour.gives_orElse_iff.2 (.inl ⟨t, v, hp, h⟩)
    · filter_upwards [hp.eventually, hq.eventually] with n hp hq
      exact Behaviour.gives_orElse_iff.2 (.inr ⟨t, e, hp, .inl ⟨ht, hq⟩⟩)
    · filter_upwards [hp.eventually] with n hp
      exact Behaviour.gives_orElse_iff.2 (.inr ⟨t, e, hp, .inr ⟨ht, h⟩⟩)

theorem replies_attempt_iff :
    Replies g (.attempt p) s r ↔ (∃ t v, Replies g p s ⟨t, .ok v⟩ ∧ r = ⟨t, .ok v⟩) ∨
      ∃ t e, Replies g p s ⟨t, .err e⟩ ∧ r = ⟨s, .err e⟩ := by
  constructor
  · rintro ⟨depth, h⟩
    obtain ⟨n, -, ⟨t, v, hp, h⟩ | ⟨t, e, hp, h⟩⟩ := gives_attempt_inv h
    · exact .inl ⟨t, v, ⟨n, hp⟩, h⟩
    · exact .inr ⟨t, e, ⟨n, hp⟩, h⟩
  · rintro (⟨t, v, hp, h⟩ | ⟨t, e, hp, h⟩) <;> apply replies_of_eventually_succ
    · filter_upwards [hp.eventually] with n hp
      exact Behaviour.gives_attempt_iff.2 (.inl ⟨t, v, hp, h⟩)
    · filter_upwards [hp.eventually] with n hp
      exact Behaviour.gives_attempt_iff.2 (.inr ⟨t, e, hp, h⟩)

theorem replies_trace_iff {name : String} :
    Replies g (.trace name p) s r ↔ Replies g p s r := by
  constructor
  · intro h
    obtain ⟨n, h⟩ := h.exists_succ
    exact ⟨n, Behaviour.gives_trace_iff.1 h⟩
  · rintro ⟨n, h⟩
    exact ⟨n + 1, Behaviour.gives_trace_iff.2 h⟩

theorem replies_map_iff {f : Value → Value} :
    Replies g (p.map f) s r ↔ (∃ t v, Replies g p s ⟨t, .ok v⟩ ∧ r = ⟨t, .ok (f v)⟩) ∨
      ∃ t e, Replies g p s ⟨t, .err e⟩ ∧ r = ⟨s, .err e⟩ := by
  simp only [Parser.map, replies_bind_iff, replies_succeed_iff]

theorem Replies.map {v : Value} (f : Value → Value) (hp : Replies g p s ⟨t, .ok v⟩) :
    Replies g (p.map f) s ⟨t, .ok (f v)⟩ := hp.bind (replies_succeed_iff.2 rfl)

theorem Replies.seqLeft {u : State} {v w : Value} (hp : Replies g p s ⟨t, .ok v⟩)
    (hq : Replies g q t ⟨u, .ok w⟩) : Replies g (p.seqLeft q) s ⟨u, .ok v⟩ :=
  hp.bind (hq.bind (replies_succeed_iff.2 rfl))

theorem Replies.seqLeft_err {u : State} {v : Value} {e : Expected} (hp : Replies g p s ⟨t, .ok v⟩)
    (hq : Replies g q t ⟨u, .err e⟩) : Replies g (p.seqLeft q) s ⟨t, .err e⟩ :=
  hp.bind hq.bind_err

theorem replies_oneOf_succeed_iff {v : Value} :
    Replies g (oneOf [p, succeed v]) s r ↔
      (∃ t w, Replies g p s ⟨t, .ok w⟩ ∧ r = ⟨t, .ok w⟩) ∨
      ∃ t e, Replies g p s ⟨t, .err e⟩ ∧
        r = if t.position = s.position then ⟨s, .ok v⟩ else ⟨t, .err e⟩ := by
  have hv : ∀ {r}, Replies g (oneOf [succeed v]) s r ↔ r = ⟨s, .ok v⟩ := by
    intro r
    simp [replies_orElse_iff, replies_succeed_iff]
  rw [oneOf_cons, replies_orElse_iff, hv]
  refine or_congr_right (exists_congr fun t => exists_congr fun e => and_congr_right fun _ => ?_)
  split <;> simp_all

end

end Descent
