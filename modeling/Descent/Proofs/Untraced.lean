import Descent.Proofs.Limit

/-!
# Parsers without their traces

`p.untraced` is the parser `p` with every trace replaced by what it traces, in the parsers that follow
values and in runs inside as well. A trace adds its two events to the log and hands on the reply it gets,
so what it takes to leave it out is to drop events: `x.only keep` is the evaluation `x` with those events
in its log that `keep` holds of. Dropping events respects sequences and loops, hence all combinators
(`Behaviour.only_bind` and the others), and turns a trace into what it traces (`Behaviour.only_trace`).

A trace takes a level of nesting. So a parser may have more levels at hand without its traces than with
them, and this makes no difference as long as there are enough of them; hence `Behaviour.Approximates` in
`eval_untraced_approximates`, and the condition in `run_transparent_to_traces`.
-/

namespace Descent

/-! ## Part of the log -/

namespace Evaluation

variable {α β σ : Type} {keep : Event → Bool}

def only (keep : Event → Bool) (x : Evaluation α) : Evaluation α := ⟨x.log.filter keep, x.ending⟩

@[simp] theorem only_pure (a : α) : (pure a : Evaluation α).only keep = pure a := rfl

@[simp] theorem only_only (x : Evaluation α) : (x.only keep).only keep = x.only keep := by
  simp [only]

theorem only_note {e : Event} : (note e).only keep = if keep e then note e else pure () := by
  unfold only note
  cases h : keep e
  · simp [h, pure_eq]
  · simp [h]

@[simp] theorem only_bind (x : Evaluation α) (f : α → Evaluation β) :
    (x >>= f).only keep = x.only keep >>= fun a => (f a).only keep := by
  rcases x with ⟨log, a | _ | _⟩ <;> simp [only]

theorem only_iterate (round : σ → Evaluation (Round σ α)) (n : Nat) (x : σ) :
    (iterate round n x).only keep = iterate (fun y => (round y).only keep) n x := by
  induction n generalizing x with
  | zero => rfl
  | succ n ih =>
    rw [iterate_succ, iterate_succ, only_bind]
    apply bind_congr
    intro r
    cases r with
    | again y => exact ih y
    | done a => rfl

/-- Nesting beyond the limit shows in what is kept, if its events are. -/
theorem shallow_only_iff (hkeep : ∀ e : Event, e.isExceeded → keep e) {x : Evaluation α} :
    (x.only keep).Shallow ↔ x.Shallow := by
  refine and_congr_right fun _ => ⟨fun h e he => ?_, fun h e he => h e (List.mem_of_mem_filter he)⟩
  by_contra hexceeded
  rw [Bool.not_eq_false] at hexceeded
  have hkept := List.mem_filter.2 ⟨he, hkeep e hexceeded⟩
  rw [h e hkept] at hexceeded
  cases hexceeded

theorem only_settle (hstopped : ∀ size position o, keep (.stopped size position o))
    (hexceeded : ∀ size, keep (.exceeded size)) (x : Evaluation Reply) (size : Nat) :
    (x.settle size).only keep = (x.only keep).settle size := by
  rcases x with ⟨log, r | _ | _⟩
  · simp [settle, only, hstopped]
  · simp [settle, only, hexceeded]
  · rfl

end Evaluation

namespace Behaviour

variable {p q sep : Behaviour} {keep : Event → Bool}

def only (keep : Event → Bool) (b : Behaviour) : Behaviour := fun s => (b s).only keep

theorem only_bind (p : Behaviour) (f : Value → Behaviour) :
    (p.bind f).only keep = (p.only keep).bind fun v => (f v).only keep := by
  funext s
  unfold only bind
  rw [Evaluation.only_bind]
  apply bind_congr
  rintro ⟨t, v | e⟩ <;> rfl

theorem only_orElse (p q : Behaviour) :
    (p.orElse q).only keep = (p.only keep).orElse (q.only keep) := by
  funext s
  unfold only orElse
  rw [Evaluation.only_bind]
  apply bind_congr
  rintro ⟨t, v | e⟩
  · rfl
  · simp only
    split <;> rfl

theorem only_attempt (p : Behaviour) : p.attempt.only keep = (p.only keep).attempt := by
  funext s
  unfold only attempt
  rw [Evaluation.only_bind]
  apply bind_congr
  rintro ⟨t, v | e⟩ <;> rfl

theorem only_label (p : Behaviour) (e : Expected) :
    (p.label e).only keep = (p.only keep).label e := by
  funext s
  unfold only label
  rw [Evaluation.only_bind]
  apply bind_congr
  rintro ⟨t, v | e'⟩
  · rfl
  · simp only
    split <;> rfl

theorem only_many (p : Behaviour) : p.many.only keep = (p.only keep).many := by
  have hround : ∀ now, (manyRound p now).only keep = manyRound (p.only keep) now := by
    intro now
    unfold manyRound only
    rw [Evaluation.only_bind]
    apply bind_congr
    rintro ⟨t, v | e⟩
    · simp only
      split <;> rfl
    · rfl
  funext s
  unfold only many
  rw [Evaluation.only_iterate]
  congr 1
  funext now
  exact hround now

theorem only_sepBy1 (p sep : Behaviour) :
    (p.sepBy1 sep).only keep = (p.only keep).sepBy1 (sep.only keep) := by
  have hround : ∀ c, (sepByRound p sep c).only keep = sepByRound (p.only keep) (sep.only keep) c := by
    intro c
    unfold sepByRound only
    rw [Evaluation.only_bind]
    apply bind_congr
    rintro ⟨a, w | e⟩
    · simp only [Evaluation.only_bind]
      apply bind_congr
      rintro ⟨t, v | e⟩
      · simp only
        split <;> rfl
      · rfl
    · rfl
  unfold sepBy1
  rw [only_bind]
  congr 1
  funext v s
  show (Evaluation.iterate _ _ _).only keep = _
  rw [Evaluation.only_iterate]
  congr 1
  funext c
  exact hround c

theorem only_trace (htrace : ∀ name s, keep (.trying name s) = false)
    (hreply : ∀ name r, keep (.ofReply name r) = false) (p : Behaviour) (name : String) :
    (p.trace name).only keep = p.only keep := by
  funext s
  unfold only trace
  simp [Evaluation.only_note, htrace, hreply, -bind_pure_comp]

end Behaviour

/-! ## Leaving out traces -/

def Event.isTrace : Event → Bool
  | trying _ _ => true
  | failed _ _ _ => true
  | matched _ _ _ => true
  | _ => false

theorem Event.isTrace_ofReply (name : String) (r : Reply) : (Event.ofReply name r).isTrace = true := by
  obtain ⟨t, v | e⟩ := r <;> rfl

/-- The parser with every trace replaced by what it traces; rules are not followed. -/
@[simp] def Parser.untraced : Parser → Parser
  | .bind p f => .bind p.untraced fun v => (f v).untraced
  | .orElse p q => .orElse p.untraced q.untraced
  | .attempt p => .attempt p.untraced
  | .label e p => .label e p.untraced
  | .many p => .many p.untraced
  | .sepBy1 p sep => .sepBy1 p.untraced sep.untraced
  | .trace _ p => p.untraced
  | .subrun p source => .subrun p.untraced source
  | p => p

def Grammar.untraced (g : Grammar) : Grammar := fun name => (g name).untraced

theorem Parser.all_untraced (p : Parser) : p.untraced.All fun q => ∀ name r, q ≠ .trace name r := by
  induction p <;> simp_all

theorem not_occurs_trace_untraced (g : Grammar) (p : Parser) (name : String) (q : Parser) :
    ¬ Occurs g.untraced (.trace name q) p.untraced :=
  fun h => occurs_induction (fun name => (g name).all_untraced) p.all_untraced h name q rfl

/-- By induction on the levels at hand with the traces. Where a trace goes, one of them is saved. -/
theorem eval_untraced_approximates (g : Grammar) {depth depth' : Nat} (h : depth ≤ depth')
    (p : Parser) : ((eval g depth p).only fun e => !e.isTrace).Approximates
      (eval g.untraced depth' p.untraced) := by
  induction depth generalizing depth' p with
  | zero => exact fun s => Evaluation.tooDeep_approximates _
  | succ depth ih =>
    have hrest : ∀ q, ((eval g depth q).only fun e => !e.isTrace).Approximates
        (eval g.untraced (depth' - 1) q.untraced) := fun q => ih (by omega) q
    obtain ⟨n, rfl⟩ : ∃ n, depth' = n + 1 := ⟨depth' - 1, by omega⟩
    rw [Nat.add_sub_cancel] at hrest
    cases p with
    | bind p f =>
      rw [eval_bind, Behaviour.only_bind, Parser.untraced, eval_bind]
      exact .bind (hrest p) fun v => hrest (f v)
    | orElse p q =>
      rw [eval_orElse, Behaviour.only_orElse, Parser.untraced, eval_orElse]
      exact .orElse (hrest p) (hrest q)
    | attempt p =>
      rw [eval_attempt, Behaviour.only_attempt, Parser.untraced, eval_attempt]
      exact .attempt (hrest p)
    | label e p =>
      rw [eval_label, Behaviour.only_label, Parser.untraced, eval_label]
      exact .label (hrest p) e
    | many p =>
      rw [eval_many, Behaviour.only_many, Parser.untraced, eval_many]
      exact .many (hrest p)
    | sepBy1 p sep =>
      rw [eval_sepBy1, Behaviour.only_sepBy1, Parser.untraced, eval_sepBy1]
      exact .sepBy1 (hrest p) (hrest sep)
    | trace name p =>
      rw [eval_trace, Behaviour.only_trace (by simp [Event.isTrace]) (by simp [Event.isTrace_ofReply]),
        Parser.untraced]
      exact ih (by omega) p
    | rule name =>
      rw [eval_rule]
      exact hrest (g name)
    | subrun p source =>
      intro s
      show Evaluation.Approximates ((eval g (depth + 1) (.subrun p source) s).only _) _
      rw [eval_subrun, Evaluation.only_bind, Parser.untraced, eval_subrun,
        Evaluation.only_settle (by simp [Event.isTrace]) (by simp [Event.isTrace])]
      exact .bind (.settle (hrest p (.start source))) fun _ => .refl _
    | _ => exact fun s => .refl _

/-! ## Runs -/

/-- Traces are transparent to a run that keeps within its limit, with all runs inside it: without them the
parser has the same reply, position included, the run has the same outcome, and its log is what is left of
the other when the events of traces are struck out. -/
theorem run_transparent_to_traces (g : Grammar) (limit : Nat) (p : Parser) (source : Source)
    (hwithin : ∀ c, Causes g ⟨limit, p, .start source⟩ c → c.depth ≠ 0) :
    (eval g.untraced limit p.untraced (.start source)).ending =
        (eval g limit p (.start source)).ending ∧
      (runWithin limit g.untraced p.untraced source).ending = (runWithin limit g p source).ending ∧
      (runWithin limit g.untraced p.untraced source).log =
        (runWithin limit g p source).log.filter (fun e => !e.isTrace) ∧
      ∀ name q, ¬ Occurs g.untraced (.trace name q) p.untraced := by
  have hshallow : (eval g limit p (.start source)).Shallow :=
    shallow_iff_causes (c := ⟨limit, p, .start source⟩).2 hwithin
  have hkeep : ∀ e : Event, e.isExceeded → !e.isTrace := by
    intro e he
    cases e <;> simp_all [Event.isExceeded, Event.isTrace]
  have heval : eval g.untraced limit p.untraced (.start source) =
      (eval g limit p (.start source)).only fun e => !e.isTrace :=
    eval_untraced_approximates g (Nat.le_refl limit) p (.start source)
      ((Evaluation.shallow_only_iff hkeep).2 hshallow)
  have hrun : runWithin limit g.untraced p.untraced source =
      (runWithin limit g p source).only fun e => !e.isTrace := by
    unfold runWithin
    rw [heval, Evaluation.only_settle (by simp [Event.isTrace]) (by simp [Event.isTrace])]
  rw [heval, hrun]
  exact ⟨rfl, rfl, rfl, not_occurs_trace_untraced g p⟩

/-- Groups in parentheses, in a run inside a run: two of them to the end of the text, or else one. With the
traces the run leaves 24 events, without them two. -/
theorem run_transparent_to_traces_groups :
    let g : Grammar := fun _ =>
      .trace "group" (.seqLeft (.seqRight (.char '(') (.many (.rule "group"))) (.char ')'))
    let two : Parser := .trace "two" (.seqRight (.rule "group") (.rule "group"))
    let p : Parser := .bind (.text "(())") (Continuation.within
      (.orElse (.seqLeft two .endOfInput) (.trace "one" (.rule "group"))))
    let source : Source := .ofString "(())"
    let nested : Value := .list [.list []]
    (∀ c, Causes g ⟨30, p, .start source⟩ c → c.depth ≠ 0) ∧
      (eval g.untraced 30 p.untraced (.start source)).ending =
        .returned ⟨⟨4, source⟩, .ok nested⟩ ∧
      (runWithin 30 g.untraced p.untraced source).ending = .returned (.ok nested) ∧
      (runWithin 30 g.untraced p.untraced source).log =
        [.stopped 4 4 (.ok nested), .stopped 4 4 (.ok nested)] ∧
      (runWithin 30 g p source).log.length = 24 ∧
      ∀ name q, ¬ Occurs g.untraced (.trace name q) p.untraced := by
  intro g two p source nested
  have hshallow : (eval g 30 p (.start source)).Shallow := by decide +kernel
  have hwithin : ∀ c, Causes g ⟨30, p, .start source⟩ c → c.depth ≠ 0 :=
    shallow_iff_causes.1 hshallow
  obtain ⟨heval, hrun, hlog, hfree⟩ := run_transparent_to_traces g 30 p source hwithin
  rw [heval, hrun, hlog]
  exact ⟨hwithin, by decide +kernel, by decide +kernel, by decide +kernel, by decide +kernel, hfree⟩

end Descent
