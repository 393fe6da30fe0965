import Descent.Proofs.Nesting
import Descent.Proofs.WellNested

/-!
# The limit of nesting

A call without levels nests beyond the limit. What an evaluation makes of that is decided by the contexts
alone: none of them recovers, so the call takes down the whole run that it is made in
(`tooDeep_iff_reaches`). The end of the run is where this stops, and for what surrounds an inner run it
is a failure like any other. Where no call is without levels, inner runs included, all evaluations are
shallow (`shallow_iff_causes`), and then more levels change nothing.
-/

namespace Descent

open Evaluation

variable {g : Grammar} {c c' : Call} {K : Context}

/-! ## Calls without levels -/

theorem settle_ne_tooDeep (x : Evaluation Reply) (size : Nat) : (x.settle size).ending ≠ .tooDeep := by
  rcases x with ⟨log, r | _ | _⟩ <;> simp [settle]

theorem tooDeep_iff_reaches :
    (c.eval g).ending = .tooDeep ↔ ∃ K c', Reaches g c K c' ∧ c'.depth = 0 := by
  constructor
  · intro hdeep
    induction c using call_induction g with
    | step c hcalls _ =>
      by_cases hdepth : c.depth = 0
      · exact ⟨.hole, c, .here c, hdepth⟩
      · by_contra hnone
        have hP : Hereditary fun α x => x.ending ≠ (.tooDeep : Ending α) :=
          hereditary_of_ending (Q := fun _ e => e ≠ .tooDeep) (by simp) (by simp) (by simp)
        refine eval_inherits hP hdepth (fun K c' h hdeep' => ?_) (fun _ _ => settle_ne_tooDeep _ _)
          (fun _ => by simp [endless]) hdeep
        obtain ⟨K', c'', hreaches, hzero⟩ := hcalls K c' h hdeep'
        exact hnone ⟨_, c'', .through h hreaches, hzero⟩
  · rintro ⟨K, c', hreaches, hzero⟩
    rw [hreaches.eval_eq, Call.eval_of_depth_eq_zero hzero, K.fill_tooDeep]

theorem Enters.shallow (h : Enters g c K c') (hc : (c.eval g).Shallow) : (c'.eval g).Shallow := by
  rw [h.eval_eq] at hc
  have hbind : (c'.eval g >>= K.resume).Shallow :=
    ⟨hc.1, fun e he => hc.2 e (List.mem_append_right _ he)⟩
  exact (shallow_bind_iff.1 hbind).1

theorem Starts.shallow (h : Starts c c') (hc : (c.eval g).Shallow) : (c'.eval g).Shallow := by
  rw [h.eval_eq] at hc
  exact shallow_settle_iff.1 (shallow_bind_iff.1 hc).1

theorem Causes.shallow (h : Causes g c c') (hc : (c.eval g).Shallow) : (c'.eval g).Shallow := by
  induction h with
  | refl => exact hc
  | tail _ hstep ih =>
    obtain ⟨K, h⟩ | h := hstep
    · exact h.shallow ih
    · exact h.shallow ih

theorem shallow_hereditary : Hereditary fun _ x => x.Shallow where
  pure := shallow_pure
  bind hx hf := shallow_bind_iff.2 ⟨hx, hf⟩
  trace hx _ := Behaviour.shallow_trace hx _

theorem shallow_iff_causes :
    (c.eval g).Shallow ↔ ∀ c', Causes g c c' → c'.depth ≠ 0 := by
  constructor
  · intro hshallow c' hcauses hzero
    have hlast := hcauses.shallow hshallow
    rw [Call.eval_of_depth_eq_zero hzero] at hlast
    exact not_shallow_tooDeep hlast
  · intro hnone
    induction c using call_induction g with
    | step c hcalls hruns =>
      refine eval_inherits shallow_hereditary (hnone c .refl) (fun K c' h => ?_) (fun c' h => ?_)
        fun _ => shallow_endless
      · exact hcalls K c' h fun c'' hcauses => hnone c'' (hcauses.head (.inl ⟨K, h⟩))
      · exact shallow_settle_iff.2
          (hruns c' h fun c'' hcauses => hnone c'' (hcauses.head (.inr h)))

/-! ## Runs -/

theorem runWithin_eq_of_reaches {limit : Nat} {p : Parser} {source : Source}
    (h : Reaches g ⟨limit, p, .start source⟩ K c') :
    runWithin limit g p source = (K.fill (c'.eval g)).settle source.size := by
  rw [← h.eval_eq]
  rfl

theorem runWithin_of_exceeds {limit : Nat} {p : Parser} {source : Source}
    (h : Reaches g ⟨limit, p, .start source⟩ K c') (hzero : c'.depth = 0) :
    runWithin limit g p source =
      ⟨K.log ++ [.exceeded source.size], .returned (.err .shallowerNesting)⟩ := by
  rw [runWithin_eq_of_reaches h, Call.eval_of_depth_eq_zero hzero, K.fill_tooDeep]
  rfl

/-- An inner run that nests too deep replies as a failure does, and logs what a run logs. -/
theorem eval_subrun_of_exceeds {n : Nat} {q : Parser} {inner : Source} {L : Context}
    (h : Reaches g ⟨n, q, .start inner⟩ L c') (hzero : c'.depth = 0) (s : State) :
    eval g (n + 1) (.subrun q inner) s =
      (eval g (n + 1) (.fail .shallowerNesting) s).after (L.log ++ [.exceeded inner.size]) := by
  rw [eval_subrun, eval_fail]
  show runWithin n g q inner >>= _ = _
  rw [runWithin_of_exceeds h hzero]
  rfl

theorem settle_ne_of_ne_tooDeep {x : Evaluation Reply} (h : x.ending ≠ .tooDeep) (size : Nat)
    (log : Log) (o : Outcome) : x.settle size ≠ ⟨log ++ [.exceeded size], .returned o⟩ := by
  intro hsettle
  rcases x with ⟨l, r | _ | _⟩
  · have hlog : l ++ [.stopped size r.state.position r.outcome] = log ++ [.exceeded size] :=
      congrArg Evaluation.log hsettle
    cases (List.append_inj' hlog rfl).2
  · exact h rfl
  · cases congrArg Evaluation.ending hsettle

/-- A call without levels aborts the innermost run that it is made in, whatever is around it: that run
fails, with the one event that it exceeded the limit, and nothing is logged between the call and this
event, so the traces around the call stay open. If no such call is made, the run does not end so. And for
what surrounds an inner run that ends so, it is as if the parser that started it had been a failure; only
the log has more to it. -/
theorem exceeding_aborts_innermost_run (g : Grammar) (limit : Nat) (p : Parser) (source : Source) :
    (∀ K q s, Reaches g ⟨limit, p, .start source⟩ K ⟨0, q, s⟩ →
      runWithin limit g p source =
          ⟨K.log ++ [.exceeded source.size], .returned (.err .shallowerNesting)⟩ ∧
        WellNested g ⟨limit, p, .start source⟩ [] K.traces K.log) ∧
      ((∀ K q s, ¬ Reaches g ⟨limit, p, .start source⟩ K ⟨0, q, s⟩) →
        ∀ log o, runWithin limit g p source ≠ ⟨log ++ [.exceeded source.size], .returned o⟩) ∧
      ∀ K n q inner s, Reaches g ⟨limit, p, .start source⟩ K ⟨n + 1, .subrun q inner, s⟩ →
        ∀ L q' s', Reaches g ⟨n, q, .start inner⟩ L ⟨0, q', s'⟩ →
          runWithin limit g p source =
              (K.fill ((eval g (n + 1) (.fail .shallowerNesting) s).after
                (L.log ++ [.exceeded inner.size]))).settle source.size ∧
            WellNested g ⟨n, q, .start inner⟩ [] L.traces L.log := by
  refine ⟨fun K q s h => ⟨runWithin_of_exceeds h rfl, h.wellNested⟩, fun hnone => ?_,
    fun K n q inner s h L q' s' hinner => ⟨?_, hinner.wellNested⟩⟩
  · refine settle_ne_of_ne_tooDeep (fun hdeep => ?_) source.size
    obtain ⟨K, ⟨depth, q, s⟩, hreaches, hzero⟩ :=
      tooDeep_iff_reaches (c := ⟨limit, p, .start source⟩).1 hdeep
    cases hzero
    exact hnone K q s hreaches
  · rw [runWithin_eq_of_reaches h]
    show (K.fill (eval g (n + 1) (.subrun q inner) s)).settle _ = _
    rw [eval_subrun_of_exceeds hinner rfl]

/-- Endless recursion in an attempt, which takes the run down, and in a run inside an attempt, from which
the choice recovers. -/
theorem exceeding_aborts_innermost_run_endless_recursion :
    let g : Grammar := .rule
    let x : Source := .ofString "x"
    let outer : Parser := .orElse (.attempt (.trace "t" (.rule "r"))) (.succeed .unit)
    let inner : Parser :=
      .orElse (.attempt (.bind .anyChar (Continuation.within (.rule "r")))) (.succeed .unit)
    (∃ K q s, Reaches g ⟨5, outer, .start x⟩ K ⟨0, q, s⟩) ∧
      runWithin 5 g outer x =
        ⟨[.trying "t" (.start x), .exceeded 1], .returned (.err .shallowerNesting)⟩ ∧
      WellNested g ⟨5, outer, .start x⟩ [] ["t"] [.trying "t" (.start x)] ∧
      (∀ K q s, ¬ Reaches g ⟨5, inner, .start x⟩ K ⟨0, q, s⟩) ∧
      (∀ log o, runWithin 5 g inner x ≠ ⟨log ++ [.exceeded 1], .returned o⟩) ∧
      (∃ K s, Reaches g ⟨5, inner, .start x⟩ K ⟨2, .subrun (.rule "r") x, s⟩ ∧
        ∃ L q' s', Reaches g ⟨1, .rule "r", .start x⟩ L ⟨0, q', s'⟩) ∧
      runWithin 5 g inner x =
        ⟨[.exceeded 1, .stopped 1 0 (.ok .unit)], .returned (.ok .unit)⟩ := by
  intro g x outer inner
  have houter : Reaches g ⟨5, outer, .start x⟩ _ ⟨0, .rule "r", .start x⟩ :=
    .through (.orElseFirst 4 _ _ _) (.through (.attempt 3 _ _) (.through (.trace 2 _ _ _)
      (.through (.rule 1 _ _) (.through (.rule 0 _ _) (.here _)))))
  have hinner : Reaches g ⟨5, inner, .start x⟩ _ ⟨2, .subrun (.rule "r") x, ⟨1, x⟩⟩ :=
    .through (.orElseFirst 4 _ _ _) (.through (.attempt 3 _ _)
      (.through (.bindNext (l := []) (v := .ofChar 'x') rfl) (.here _)))
  have hrun : Reaches g ⟨1, .rule "r", .start x⟩ _ ⟨0, .rule "r", .start x⟩ :=
    .through (.rule 0 _ _) (.here _)
  have hnone : ∀ K q s, ¬ Reaches g ⟨5, inner, .start x⟩ K ⟨0, q, s⟩ := by
    intro K q s h
    have hdeep : (eval g 5 inner (.start x)).ending = .tooDeep :=
      tooDeep_iff_reaches.2 ⟨K, _, h, rfl⟩
    exact absurd hdeep (by decide +kernel)
  have h := (exceeding_aborts_innermost_run g 5 outer x).1 _ _ _ houter
  have h' := (exceeding_aborts_innermost_run g 5 inner x).2
  refine ⟨⟨_, _, _, houter⟩, h.1, h.2, hnone, h'.1 hnone, ⟨_, _, hinner, _, _, _, hrun⟩, ?_⟩
  exact (h'.2 _ _ _ _ _ hinner _ _ _ hrun).1

/-- A run that keeps within its limit, with all runs inside it, is the same within every larger limit: the
same outcome and log, and the same reply of its parser, position included. -/
theorem run_independent_of_limit (g : Grammar) {limit limit' : Nat} (p : Parser) (source : Source)
    (h : limit ≤ limit') (hwithin : ∀ c, Causes g ⟨limit, p, .start source⟩ c → c.depth ≠ 0) :
    runWithin limit' g p source = runWithin limit g p source ∧
      eval g limit' p (.start source) = eval g limit p (.start source) := by
  have hshallow : (eval g limit p (.start source)).Shallow :=
    shallow_iff_causes (c := ⟨limit, p, .start source⟩).2 hwithin
  have heval := eval_approximates g h p (.start source) hshallow
  refine ⟨?_, heval⟩
  rw [runWithin, heval]
  rfl

/-- Groups in parentheses, read in a run inside a run. Sixteen levels are just enough for both. -/
theorem run_independent_of_limit_groups :
    let g : Grammar := fun _ =>
      .seqLeft (.seqRight (.char '(') (.many (.rule "group"))) (.char ')')
    let p : Parser := .bind (.text "(()())") (Continuation.within (.trace "g" (.rule "group")))
    let source : Source := .ofString "(()())"
    16 ≤ 100000 ∧ (∀ c, Causes g ⟨16, p, .start source⟩ c → c.depth ≠ 0) ∧
      runWithin 100000 g p source = runWithin 16 g p source ∧
      eval g 100000 p (.start source) = eval g 16 p (.start source) ∧
      (runWithin 16 g p source).result? = some (.ok (.list [.list [], .list []])) := by
  intro g p source
  have hshallow : (eval g 16 p (.start source)).Shallow := by decide +kernel
  have hwithin : ∀ c, Causes g ⟨16, p, .start source⟩ c → c.depth ≠ 0 :=
    shallow_iff_causes.1 hshallow
  have hlimits : 16 ≤ 100000 := by decide
  obtain ⟨hrun, heval⟩ := run_independent_of_limit g p source hlimits hwithin
  exact ⟨hlimits, hwithin, hrun, heval, by decide +kernel⟩

end Descent
