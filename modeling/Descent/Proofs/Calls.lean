import Descent.Proofs.Rounds

/-!
# Calls

The evaluation of a parser consists of calls: applications of its operands, of what follows their values
and of rules, each within one level less. A call stands in a context, which says what has been logged
before it and what is made of its reply. `Enters` gives the calls that a call makes itself, `Reaches`
those it comes to through others in the same run, and `Starts` the one that an inner run consists of.
There are two ways to use them:

* `Reaches.eval_eq`: the evaluation of a call is that of any call it reaches, filled into the context.
* `eval_inherits`: what evaluations in sequence have from their parts, a call has from the calls it makes.
  Together with `call_induction` this proves a property of all calls without another look at the
  combinators. Where the property speaks of what has been logged before, it is
  `eval_inherits_successively`.
-/

namespace Descent

open Evaluation

/-- The application of a parser to a state, with the levels it has at hand. -/
structure Call where
  depth : Nat
  parser : Parser
  state : State

def Call.eval (g : Grammar) (c : Call) : Evaluation Reply := Descent.eval g c.depth c.parser c.state

theorem Call.eval_of_depth_eq_zero {g : Grammar} {c : Call} (h : c.depth = 0) :
    c.eval g = tooDeep := by
  rw [Call.eval, h, eval_zero]

/-- What surrounds a call: what has been logged before it, the names of the traces around it, the
outermost first, and what is made of its reply. -/
structure Context where
  log : Log
  traces : List String
  resume : Reply → Evaluation Reply

namespace Context

def hole : Context := ⟨[], [], pure⟩

/-- The context `K'` within the context `K`. -/
def comp (K K' : Context) : Context :=
  ⟨K.log ++ K'.log, K.traces ++ K'.traces, fun r => K'.resume r >>= K.resume⟩

/-- The evaluation that contains `x` in this context. -/
def fill (K : Context) (x : Evaluation Reply) : Evaluation Reply := (x >>= K.resume).after K.log

@[simp] theorem fill_hole (x : Evaluation Reply) : hole.fill x = x := bind_pure x

@[simp] theorem hole_comp (K : Context) : hole.comp K = K := by
  simp [comp, hole]

@[simp] theorem comp_hole (K : Context) : K.comp hole = K := by
  simp [comp, hole]

theorem comp_assoc (J K L : Context) : (J.comp K).comp L = J.comp (K.comp L) := by
  simp [comp, bind_assoc]

theorem fill_comp (K K' : Context) (x : Evaluation Reply) :
    (K.comp K').fill x = K.fill (K'.fill x) := by
  simp [fill, comp, bind_assoc]

/-- No context recovers from nesting too deep, and nothing is logged after it. -/
theorem fill_tooDeep (K : Context) : K.fill tooDeep = ⟨K.log, .tooDeep⟩ := by
  simp [fill, after, tooDeep]

end Context

def Behaviour.replying (r : Reply) : Behaviour := fun _ => pure r

/-! ## The calls of a call -/

/-- `Enters g c K c'`: the call `c` makes the call `c'`, in the context `K`. What is made of the reply is
what the combinator makes of an operand that replies so. -/
inductive Enters (g : Grammar) : Call → Context → Call → Prop
  | bindFirst (n : Nat) (p : Parser) (f : Value → Parser) (s : State) :
      Enters g ⟨n + 1, .bind p f, s⟩
        ⟨[], [], fun r => (Behaviour.replying r).bind (fun v => eval g n (f v)) s⟩ ⟨n, p, s⟩
  | bindNext {n : Nat} {p : Parser} {f : Value → Parser} {s t : State} {l : Log} {v : Value} :
      eval g n p s = ⟨l, .returned ⟨t, .ok v⟩⟩ →
      Enters g ⟨n + 1, .bind p f, s⟩ ⟨l, [], pure⟩ ⟨n, f v, t⟩
  | orElseFirst (n : Nat) (p q : Parser) (s : State) :
      Enters g ⟨n + 1, .orElse p q, s⟩
        ⟨[], [], fun r => (Behaviour.replying r).orElse (eval g n q) s⟩ ⟨n, p, s⟩
  | orElseSecond {n : Nat} {p q : Parser} {s t : State} {l : Log} {e : Expected} :
      eval g n p s = ⟨l, .returned ⟨t, .err e⟩⟩ → t.position = s.position →
      Enters g ⟨n + 1, .orElse p q, s⟩ ⟨l, [], pure⟩ ⟨n, q, s⟩
  | attempt (n : Nat) (p : Parser) (s : State) :
      Enters g ⟨n + 1, .attempt p, s⟩ ⟨[], [], fun r => (Behaviour.replying r).attempt s⟩ ⟨n, p, s⟩
  | label (n : Nat) (e : Expected) (p : Parser) (s : State) :
      Enters g ⟨n + 1, .label e p, s⟩ ⟨[], [], fun r => (Behaviour.replying r).label e s⟩ ⟨n, p, s⟩
  /-- The round of a repetition that follows `k` others. -/
  | many {n k m : Nat} {p : Parser} {s : State} {l : Log} {now : Behaviour.Progress} :
      Turns (Behaviour.manyRound (eval g n p)) k ⟨s, []⟩ l now → k + (m + 1) = s.rounds →
      Enters g ⟨n + 1, .many p, s⟩
        ⟨l, [], fun r => Behaviour.manyRound (.replying r) now >>=
          Round.proceed (Behaviour.manyRound (eval g n p)) m⟩
        ⟨n, p, now.current⟩
  | sepBy1First (n : Nat) (p sep : Parser) (s : State) :
      Enters g ⟨n + 1, .sepBy1 p sep, s⟩
        ⟨[], [], fun r => (Behaviour.replying r).bind (fun v t =>
          iterate (Behaviour.sepByRound (eval g n p) (eval g n sep)) t.rounds ⟨t, v, []⟩) s⟩
        ⟨n, p, s⟩
  /-- The separator in the round of a separated list that follows `k` others. -/
  | sepBy1Separator {n k m : Nat} {p sep : Parser} {s t : State} {v : Value} {l l' : Log}
      {c : Behaviour.Chain} :
      eval g n p s = ⟨l, .returned ⟨t, .ok v⟩⟩ →
      Turns (Behaviour.sepByRound (eval g n p) (eval g n sep)) k ⟨t, v, []⟩ l' c →
      k + (m + 1) = t.rounds →
      Enters g ⟨n + 1, .sepBy1 p sep, s⟩
        ⟨l ++ l', [], fun r => Behaviour.sepByRound (eval g n p) (.replying r) c >>=
          Round.proceed (Behaviour.sepByRound (eval g n p) (eval g n sep)) m⟩
        ⟨n, sep, c.current⟩
  /-- The item after a separator, in the round of a separated list that follows `k` others. -/
  | sepBy1Item {n k m : Nat} {p sep : Parser} {s t a : State} {v w : Value} {l l' l'' : Log}
      {c : Behaviour.Chain} :
      eval g n p s = ⟨l, .returned ⟨t, .ok v⟩⟩ →
      Turns (Behaviour.sepByRound (eval g n p) (eval g n sep)) k ⟨t, v, []⟩ l' c →
      k + (m + 1) = t.rounds → eval g n sep c.current = ⟨l'', .returned ⟨a, .ok w⟩⟩ →
      Enters g ⟨n + 1, .sepBy1 p sep, s⟩
        ⟨l ++ l' ++ l'', [], fun r =>
          Behaviour.sepByRound (.replying r) (.replying ⟨a, .ok w⟩) c >>=
            Round.proceed (Behaviour.sepByRound (eval g n p) (eval g n sep)) m⟩
        ⟨n, p, a⟩
  | trace (n : Nat) (name : String) (p : Parser) (s : State) :
      Enters g ⟨n + 1, .trace name p, s⟩
        ⟨[.trying name s], [name], fun r => note (.ofReply name r) >>= fun _ => pure r⟩ ⟨n, p, s⟩
  | rule (n : Nat) (name : String) (s : State) :
      Enters g ⟨n + 1, .rule name, s⟩ .hole ⟨n, g name, s⟩

/-- `Reaches g c K c'`: the call `c` comes to the call `c'`, in the context `K`, and within its own run. -/
inductive Reaches (g : Grammar) : Call → Context → Call → Prop
  | here (c : Call) : Reaches g c .hole c
  | through {c c' c'' : Call} {K K' : Context} : Enters g c K c' → Reaches g c' K' c'' →
      Reaches g c (K.comp K') c''

/-- The call that the run inside a call consists of. -/
inductive Starts : Call → Call → Prop
  | subrun (n : Nat) (p : Parser) (source : Source) (s : State) :
      Starts ⟨n + 1, .subrun p source, s⟩ ⟨n, p, .start source⟩

/-- `Causes g c c'`: the call `c` comes to the call `c'`, be it within its own run or in one inside. -/
def Causes (g : Grammar) : Call → Call → Prop :=
  Relation.ReflTransGen fun c c' => (∃ K, Enters g c K c') ∨ Starts c c'

variable {g : Grammar} {c c' : Call} {K : Context}

/-! ## The evaluation around a call -/

theorem eval_sepBy1_of_item {n : Nat} {p sep : Parser} {s t : State} {v : Value} {l : Log}
    (hp : eval g n p s = ⟨l, .returned ⟨t, .ok v⟩⟩) : eval g (n + 1) (.sepBy1 p sep) s =
      (iterate (Behaviour.sepByRound (eval g n p) (eval g n sep)) t.rounds ⟨t, v, []⟩).after l := by
  show eval g n p s >>= _ = _
  rw [hp]
  rfl

theorem Enters.eval_eq (h : Enters g c K c') : c.eval g = K.fill (c'.eval g) := by
  cases h with
  | bindFirst | orElseFirst | attempt | label | sepBy1First | trace => rfl
  | bindNext hp =>
    show eval g _ _ _ >>= _ = Context.fill _ _
    rw [hp, Context.fill, bind_pure]
    rfl
  | orElseSecond hp hstill =>
    show eval g _ _ _ >>= _ = Context.fill _ _
    rw [hp, Context.fill, bind_pure, returned_bind]
    simp only [if_pos hstill]
    rfl
  | @many n k m p s l now hturns hrounds =>
    show iterate _ s.rounds _ = Context.fill _ _
    rw [← hrounds, hturns.iterate, iterate_succ_eq, Context.fill, Behaviour.manyRound, bind_assoc]
    rfl
  | sepBy1Separator hp hturns hrounds =>
    rw [Call.eval, eval_sepBy1_of_item hp, ← hrounds, hturns.iterate, iterate_succ_eq, after_after,
      Context.fill, Behaviour.sepByRound, bind_assoc]
    rfl
  | @sepBy1Item n k m p sep s t a v w l l' l'' c hp hturns hrounds hsep =>
    have hround : Behaviour.sepByRound (eval g n p) (eval g n sep) c =
        (eval g n p a >>= fun r =>
          Behaviour.sepByRound (.replying r) (.replying ⟨a, .ok w⟩) c).after l'' := by
      rw [Behaviour.sepByRound, hsep]
      rfl
    rw [Call.eval, eval_sepBy1_of_item hp, ← hrounds, hturns.iterate, iterate_succ_eq, hround,
      after_bind, after_after, after_after, bind_assoc]
    rfl
  | rule n name s => exact (Context.fill_hole _).symm

/-- The evaluation of a call is that of a call it reaches, filled into the context. -/
theorem Reaches.eval_eq (h : Reaches g c K c') : c.eval g = K.fill (c'.eval g) := by
  induction h with
  | here c => exact (Context.fill_hole _).symm
  | through hfirst _ ih => rw [hfirst.eval_eq, ih, Context.fill_comp]

theorem Starts.eval_eq (h : Starts c c') :
    c.eval g = (c'.eval g).settle c'.state.source.size >>= fun o => pure ⟨c.state, o⟩ := by
  cases h with
  | subrun => rfl

/-- The calls of a repetition are those of the rounds it gets to: one in each, and none is cut off. -/
theorem enters_many_iff {n : Nat} {p : Parser} {s : State} :
    (∃ K, Enters g ⟨n + 1, .many p, s⟩ K c) ↔ ∃ k l now,
      Turns (Behaviour.manyRound (eval g n p)) k ⟨s, []⟩ l now ∧ c = ⟨n, p, now.current⟩ := by
  constructor
  · rintro ⟨K, h⟩
    cases h with
    | many hturns => exact ⟨_, _, _, hturns, rfl⟩
  · rintro ⟨k, l, now, hturns, rfl⟩
    have hle : k ≤ s.ahead := turns_manyRound_le hturns
    have hlt := s.ahead_lt_rounds
    obtain ⟨m, hm⟩ : ∃ m, k + (m + 1) = s.rounds := ⟨s.rounds - k - 1, by omega⟩
    exact ⟨_, .many hturns hm⟩

/-! ## What calls inherit -/

theorem Enters.depth_eq (h : Enters g c K c') : c.depth = c'.depth + 1 := by
  cases h <;> rfl

theorem Starts.depth_eq (h : Starts c c') : c.depth = c'.depth + 1 := by
  cases h
  rfl

theorem depth_eq_of_step (h : (∃ K, Enters g c K c') ∨ Starts c c') : c.depth = c'.depth + 1 := by
  obtain ⟨K, h⟩ | h := h
  · exact h.depth_eq
  · exact h.depth_eq

/-- What a call has if the calls it makes and the run inside it have it, all calls have. -/
theorem call_induction (g : Grammar) {motive : Call → Prop}
    (step : ∀ c, (∀ K c', Enters g c K c' → motive c') → (∀ c', Starts c c' → motive c') → motive c)
    (c : Call) : motive c := by
  induction hn : c.depth using Nat.strongRecOn generalizing c with
  | ind n ih =>
    refine step c (fun K c' h => ih c'.depth ?_ c' rfl) fun c' h => ih c'.depth ?_ c' rfl
    · have := h.depth_eq
      omega
    · have := h.depth_eq
      omega

/-- A property of evaluations and of what has been logged before them. Evaluations in sequence have it
from their parts, each of them behind what the parts before it log, and a trace has it from what it
traces, behind its entry. -/
structure Successive (P : Log → (α : Type) → Evaluation α → Prop) : Prop where
  pure : ∀ {α : Type} (past : Log) (a : α), P past α (Pure.pure a)
  bind : ∀ {α β : Type} {past : Log} {x : Evaluation α} {f : α → Evaluation β}, P past α x →
    (∀ a, x.ending = .returned a → P (past ++ x.log) β (f a)) → P past β (x >>= f)
  trace : ∀ {past : Log} {name : String} {s : State} {x : Evaluation Reply},
    P (past ++ [.trying name s]) Reply x → (x.Ensures fun r => s.Leads r.state) →
    P past Reply (Behaviour.trace name (fun _ => x) s)

/-- A property that evaluations in sequence have from their parts, and a trace from what it traces. -/
structure Hereditary (P : (α : Type) → Evaluation α → Prop) : Prop where
  pure : ∀ {α : Type} (a : α), P α (Pure.pure a)
  bind : ∀ {α β : Type} {x : Evaluation α} {f : α → Evaluation β}, P α x →
    (∀ a, x.ending = .returned a → P β (f a)) → P β (x >>= f)
  trace : ∀ {name : String} {s : State} {x : Evaluation Reply}, P Reply x →
    (x.Ensures fun r => s.Leads r.state) → P Reply (Behaviour.trace name (fun _ => x) s)

theorem Hereditary.successive {P : (α : Type) → Evaluation α → Prop} (hP : Hereditary P) :
    Successive fun _ => P where
  pure _ := hP.pure
  bind := hP.bind
  trace := hP.trace

theorem hereditary_of_ending {Q : (α : Type) → Ending α → Prop}
    (hreturned : ∀ {α : Type} (a : α), Q α (.returned a))
    (htooDeep : ∀ {α β : Type}, Q α .tooDeep → Q β .tooDeep)
    (hendless : ∀ {α β : Type}, Q α .endless → Q β .endless) :
    Hereditary fun α x => Q α x.ending where
  pure a := hreturned a
  bind {α β x f} hx hf := by
    obtain ⟨log, a | _ | _⟩ := x
    · exact hf a rfl
    · exact htooDeep hx
    · exact hendless hx
  trace {name s x} hx _ := by
    obtain ⟨log, r | _ | _⟩ := x
    · exact hreturned r
    · exact htooDeep hx
    · exact hendless hx

namespace Successive

variable {P : Log → (α : Type) → Evaluation α → Prop} {α σ : Type} {past : Log} {b d : Behaviour}

theorem iterate {round : σ → Evaluation (Round σ α)} (hP : Successive P) {n : Nat} {x : σ}
    (hround : ∀ k l y, k < n → Turns round k x l y → P (past ++ l) _ (round y))
    (hover : ∀ l y, Turns round n x l y → P (past ++ l) α endless) :
    P past _ (iterate round n x) := by
  induction n generalizing x past with
  | zero =>
    rw [← List.append_nil past]
    exact hover [] x (.start x)
  | succ n ih =>
    have hfirst : P past _ (round x) := by
      rw [← List.append_nil past]
      exact hround 0 [] x (Nat.succ_pos n) (.start x)
    rw [iterate_succ_eq]
    refine hP.bind hfirst fun r hr => ?_
    cases r with
    | again y =>
      have hr := eq_of_ending hr
      refine ih (fun k l z hk h => ?_) fun l z h => ?_
      · rw [List.append_assoc]
        exact hround _ _ z (Nat.succ_lt_succ hk) (.next hr h)
      · rw [List.append_assoc]
        exact hover _ z (.next hr h)
    | done a => exact hP.pure _ a

theorem manyRound (hP : Successive P) (past : Log) {now : Behaviour.Progress}
    (hb : P past _ (b now.current)) : P past _ (Behaviour.manyRound b now) := by
  refine hP.bind hb ?_
  rintro ⟨t, v | e⟩ -
  · simp only
    split <;> exact hP.pure _ _
  · exact hP.pure _ _

theorem sepByRound (hP : Successive P) (past : Log) {c : Behaviour.Chain} (hd : P past _ (d c.current))
    (hb : ∀ a w, (d c.current).ending = .returned ⟨a, .ok w⟩ →
      P (past ++ (d c.current).log) _ (b a)) :
    P past _ (Behaviour.sepByRound b d c) := by
  refine hP.bind hd ?_
  rintro ⟨a, w | e⟩ hafter
  · refine hP.bind (hb a w hafter) ?_
    rintro ⟨t, v | e⟩ -
    · simp only
      split <;> exact hP.pure _ _
    · exact hP.pure _ _
  · exact hP.pure _ _

end Successive

/-- The call is a separated list that has no last round. -/
inductive GoesOn (g : Grammar) : Call → Prop
  | sepBy1 {n : Nat} {p sep : Parser} {s t : State} {v : Value} :
      (eval g n p s).ending = .returned ⟨t, .ok v⟩ →
      (∀ k, ∃ l c, Turns (Behaviour.sepByRound (eval g n p) (eval g n sep)) k ⟨t, v, []⟩ l c) →
      GoesOn g ⟨n + 1, .sepBy1 p sep, s⟩

/-- A call inherits a property from the calls it makes, each behind what is logged before it, and from the
run inside it. -/
theorem eval_inherits_successively {P : Log → (α : Type) → Evaluation α → Prop} (hP : Successive P)
    (hdepth : c.depth ≠ 0) (hcalls : ∀ K c', Enters g c K c' → P K.log _ (c'.eval g))
    (hruns : ∀ c', Starts c c' → P [] _ ((c'.eval g).settle c'.state.source.size))
    (hover : GoesOn g c → ∀ past, P past Reply endless) : P [] _ (c.eval g) := by
  obtain ⟨depth, p, s⟩ := c
  obtain ⟨n, rfl⟩ : ∃ n, depth = n + 1 := Nat.exists_eq_succ_of_ne_zero hdepth
  cases p with
  | succeed | fail | anyChar | endOfInput | text => exact hP.pure _ _
  | bind p f =>
    refine hP.bind (hcalls _ _ (.bindFirst n p f s)) ?_
    rintro ⟨t, v | e⟩ hreturn
    · exact hcalls _ _ (.bindNext (eq_of_ending hreturn))
    · exact hP.pure _ _
  | orElse p q =>
    refine hP.bind (hcalls _ _ (.orElseFirst n p q s)) ?_
    rintro ⟨t, v | e⟩ hreturn
    · exact hP.pure _ _
    · by_cases hstill : t.position = s.position
      · simp only [if_pos hstill]
        exact hcalls _ _ (.orElseSecond (eq_of_ending hreturn) hstill)
      · simp only [if_neg hstill]
        exact hP.pure _ _
  | attempt p =>
    refine hP.bind (hcalls _ _ (.attempt n p s)) ?_
    rintro ⟨t, v | e⟩ - <;> exact hP.pure _ _
  | label e p =>
    refine hP.bind (hcalls _ _ (.label n e p s)) ?_
    rintro ⟨t, v | e'⟩ -
    · exact hP.pure _ _
    · simp only
      split <;> exact hP.pure _ _
  | many p =>
    refine hP.iterate (fun k l now (hk : k < s.rounds) hturns => ?_) fun l now hturns => ?_
    · obtain ⟨m, hm⟩ : ∃ m, k + (m + 1) = s.rounds := ⟨s.rounds - k - 1, by omega⟩
      have hround := hcalls _ _ (.many hturns hm)
      exact hP.manyRound _ hround
    · -- a repetition has fewer rounds than it is given
      have hfew : s.rounds ≤ s.ahead := turns_manyRound_le hturns
      exact absurd s.ahead_lt_rounds (Nat.not_lt.2 hfew)
  | sepBy1 p sep =>
    refine hP.bind (hcalls _ _ (.sepBy1First n p sep s)) ?_
    rintro ⟨t, v | e⟩ hreturn
    · have hitem := eq_of_ending hreturn
      refine hP.iterate (fun k l c hk hturns => ?_) fun l c hturns => ?_
      · obtain ⟨m, hm⟩ : ∃ m, k + (m + 1) = t.rounds := ⟨t.rounds - k - 1, by omega⟩
        have hseparator := hcalls _ _ (.sepBy1Separator hitem hturns hm)
        refine hP.sepByRound _ hseparator fun a w hafter => ?_
        have hnext := hcalls _ _ (.sepBy1Item hitem hturns hm (eq_of_ending hafter))
        exact hnext
      · exact hover (.sepBy1 hreturn (turns_sepByRound_forever (x := ⟨t, v, []⟩) hturns)) _
    · exact hP.pure _ _
  | trace name p => exact hP.trace (hcalls _ _ (.trace n name p s)) (eval_leads g n p s)
  | rule name =>
    have hrule := hcalls _ _ (.rule n name s)
    exact hrule
  | subrun p source => exact hP.bind (hruns _ (.subrun n p source s)) fun o _ => hP.pure _ _

/-- A call inherits a property from the calls it makes and from the run inside it. -/
theorem eval_inherits {P : (α : Type) → Evaluation α → Prop} (hP : Hereditary P)
    (hdepth : c.depth ≠ 0) (hcalls : ∀ K c', Enters g c K c' → P _ (c'.eval g))
    (hruns : ∀ c', Starts c c' → P _ ((c'.eval g).settle c'.state.source.size))
    (hover : GoesOn g c → P Reply endless) : P _ (c.eval g) :=
  eval_inherits_successively hP.successive hdepth hcalls hruns fun h _ => hover h

end Descent
