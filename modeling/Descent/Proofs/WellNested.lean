import Descent.Parser.Continuation
import Descent.Proofs.Order

/-!
# Well-nested logs

`WellNested g c past names l` says how the log `l` is put together, which follows the log `past` in the run
of the call `c`: from what runs inside log, each in the place where that run is made, and from the events of
traces. An entry of a trace is answered, with whole pieces of the log between the two events, under the same
name and from a state that may come after that of the entry; or it is open, as those of the traces `names`
are.

The log of every call is put together in this way, and has no open entries if the call returns
(`Call.wellNests`); this is proved along the calls, each behind what is logged before it. So is what is logged
before a call, with the entries of exactly those traces open that are around it (`Reaches.wellNested`). The end
of a run adds one event. Each run inside stands in the log in one piece, and of two of them one is over before the
other begins (`InnerRun.ordered`), so none is there twice.
-/

namespace Descent

open Evaluation

/-! ## Runs inside -/

/-- A run made in the run of the call `c`: where it is made, the call that makes it, and the call that it
consists of. -/
structure InnerRun (g : Grammar) (c : Call) where
  context : Context
  starter : Call
  call : Call
  reached : Reaches g c context starter
  starts : Starts starter call

variable {g : Grammar} {c c' : Call} {K : Context}

theorem Starts.unique {d d' : Call} (h : Starts c d) (h' : Starts c d') : d = d' := by
  cases h
  cases h'
  rfl

theorem Starts.reaches_eq {d : Call} (h : Starts c d) (hreaches : Reaches g c K c') :
    K = .hole ∧ c' = c := by
  cases hreaches with
  | here => exact ⟨rfl, rfl⟩
  | through hfirst _ =>
    cases h
    cases hfirst

namespace InnerRun

def log (r : InnerRun g c) : Log :=
  (runWithin r.call.depth g r.call.parser r.call.state.source).log

theorem log_eq (r : InnerRun g c) : r.log = (r.starter.eval g).log := by
  obtain ⟨context, starter, call, reached, starts⟩ := r
  rw [starts.eval_eq]
  cases starts with
  | subrun n p source s =>
    show (runWithin n g p source).log = (runWithin n g p source >>= _).log
    rcases runWithin n g p source with ⟨l, o | _ | _⟩
    · exact (List.append_nil l).symm
    · rfl
    · rfl

def within (h : Enters g c K c') (r : InnerRun g c') : InnerRun g c :=
  ⟨K.comp r.context, r.starter, r.call, .through h r.reached, r.starts⟩

theorem prefix_log (r : InnerRun g c) : r.context.log ++ r.log <+: (c.eval g).log := by
  rw [r.log_eq]
  exact r.reached.prefix_log

theorem eq_of_reaches {r r' : InnerRun g c} (h : Reaches g r.starter K r'.starter)
    (hcontext : r'.context = r.context.comp K) : r = r' := by
  obtain ⟨context, starter, call, reached, starts⟩ := r
  obtain ⟨context', starter', call', reached', starts'⟩ := r'
  obtain ⟨rfl, rfl⟩ : K = .hole ∧ starter' = starter := starts.reaches_eq h
  obtain rfl : call = call' := starts.unique starts'
  obtain rfl : context' = context := hcontext.trans context.comp_hole
  rfl

theorem ordered (r r' : InnerRun g c) :
    r = r' ∨ r.context.log ++ r.log <+: r'.context.log ∨
      r'.context.log ++ r'.log <+: r.context.log := by
  rw [r.log_eq, r'.log_eq]
  obtain ⟨J, hJ, hcontext⟩ | ⟨J, hJ, hcontext⟩ | hover | hover := r.reached.ordered r'.reached
  · exact .inl (eq_of_reaches hJ hcontext)
  · exact .inl (eq_of_reaches hJ hcontext).symm
  · exact .inr (.inl hover)
  · exact .inr (.inr hover)

end InnerRun

/-! ## Logs -/

/-- How the log of a part of the run of `c` is put together, which part follows the log `past`; the entries
of the traces `names`, the outermost first, are open. -/
inductive WellNested (g : Grammar) (c : Call) : Log → List String → Log → Prop
  | nil (past : Log) : WellNested g c past [] []
  /-- A run inside has its piece of the log where it is made. -/
  | run {past l : Log} {names : List String} (r : InnerRun g c) : r.context.log = past →
      WellNested g c (past ++ r.log) names l → WellNested g c past names (r.log ++ l)
  | answered {past l l' : Log} {names : List String} {s : State} {r : Reply} (name : String) :
      WellNested g c (past ++ [.trying name s]) [] l → s.Leads r.state →
      WellNested g c (past ++ .trying name s :: (l ++ [.ofReply name r])) names l' →
      WellNested g c past names (.trying name s :: (l ++ .ofReply name r :: l'))
  /-- An entry that stays open; all that follows is within it. -/
  | unanswered {past l : Log} {names : List String} (name : String) (s : State) :
      WellNested g c (past ++ [.trying name s]) names l →
      WellNested g c past (name :: names) (.trying name s :: l)

namespace WellNested

variable {past l l' : Log} {names names' : List String}

/-- By induction on the part that comes first: each piece of it is followed by the rest and by all that
comes behind. -/
theorem append (h : WellNested g c past names l) (h' : WellNested g c (past ++ l) names' l') :
    WellNested g c past (names ++ names') (l ++ l') := by
  induction h with
  | nil past => rwa [List.append_nil] at h'
  | run r hpast _ ih =>
    rw [← List.append_assoc] at h'
    rw [List.append_assoc]
    exact .run r hpast (ih h')
  | @answered past l l₁ names s r name hwithin hleads _ _ ih =>
    have hlog : past ++ .trying name s :: (l ++ .ofReply name r :: l₁) =
        past ++ .trying name s :: (l ++ [.ofReply name r]) ++ l₁ := by simp
    rw [hlog] at h'
    simpa using WellNested.answered name hwithin hleads (ih h')
  | @unanswered past l names name s _ ih =>
    have hlog : past ++ .trying name s :: l = past ++ [.trying name s] ++ l := by simp
    rw [hlog] at h'
    exact .unanswered name s (ih h')

/-- What a call logs is put together in the same way in the run that it is made in. -/
theorem within (h : Enters g c K c') (hc : WellNested g c' past names l) :
    WellNested g c (K.log ++ past) names l := by
  induction hc with
  | nil past => exact .nil _
  | @run past l names r hpast _ ih =>
    rw [← List.append_assoc] at ih
    exact .run (r.within h) (congrArg (K.log ++ ·) hpast) ih
  | answered name _ hleads _ ihwithin ih =>
    rw [← List.append_assoc] at ihwithin ih
    exact .answered name ihwithin hleads ih
  | unanswered name s _ ih =>
    rw [← List.append_assoc] at ih
    exact .unanswered name s ih

end WellNested

/-- The log of the evaluation is well nested behind `past`, without open entries if it returns. -/
def Evaluation.WellNests {α : Type} (g : Grammar) (c : Call) (past : Log) (x : Evaluation α) : Prop :=
  ∃ names, WellNested g c past names x.log ∧ ∀ a, x.ending = .returned a → names = []

theorem Evaluation.WellNests.returned {α : Type} {past l : Log} {x : Evaluation α} {a : α}
    (h : x.WellNests g c past) (hx : x = ⟨l, .returned a⟩) : WellNested g c past [] l := by
  rw [hx] at h
  obtain ⟨names, hl, hclosed⟩ := h
  rwa [hclosed a rfl] at hl

theorem Evaluation.WellNests.within {α : Type} {x : Evaluation α} (hx : x.WellNests g c' [])
    (h : Enters g c K c') : x.WellNests g c K.log := by
  obtain ⟨names, hl, hclosed⟩ := hx
  have hc := hl.within h
  rw [List.append_nil] at hc
  exact ⟨names, hc, hclosed⟩

theorem wellNests_of_log_eq_nil {α : Type} {past : Log} {x : Evaluation α} (h : x.log = []) :
    x.WellNests g c past :=
  ⟨[], h ▸ .nil past, fun _ _ => rfl⟩

theorem wellNests_successive (g : Grammar) (c : Call) :
    Successive fun past _ x => x.WellNests g c past where
  pure past a := wellNests_of_log_eq_nil rfl
  bind {α β past x f} hx hf := by
    obtain ⟨log, a | _ | _⟩ := x
    · obtain ⟨names, hrest, hclosed⟩ := hf a rfl
      exact ⟨names, (hx.returned rfl).append hrest, hclosed⟩
    · obtain ⟨names, hfirst, -⟩ := hx
      exact ⟨names, hfirst, fun b hb => nomatch hb⟩
    · obtain ⟨names, hfirst, -⟩ := hx
      exact ⟨names, hfirst, fun b hb => nomatch hb⟩
  trace {past name s x} hx hleads := by
    obtain ⟨log, r | _ | _⟩ := x
    · exact ⟨[], .answered name (hx.returned rfl) (hleads r rfl) (.nil _), fun _ _ => rfl⟩
    all_goals
      obtain ⟨names, hwithin, -⟩ := hx
      exact ⟨name :: names, .unanswered name s hwithin, fun r hr => nomatch hr⟩

theorem Call.wellNests (g : Grammar) (c : Call) : (c.eval g).WellNests g c [] := by
  induction c using call_induction g with
  | step c hcalls _ =>
    by_cases hdepth : c.depth = 0
    · rw [Call.eval_of_depth_eq_zero hdepth]
      exact wellNests_of_log_eq_nil rfl
    · refine eval_inherits_successively (wellNests_successive g c) hdepth (fun K c' h => ?_)
        (fun c' h => ?_) fun _ past => wellNests_of_log_eq_nil rfl
      · exact (hcalls K c' h).within h
      · have hrun : WellNested g c [] [] ((InnerRun.mk .hole c c' (.here c) h).log ++ []) :=
          .run _ rfl (.nil _)
        rw [List.append_nil] at hrun
        cases h with
        | subrun n p source s => exact ⟨[], hrun, fun _ _ => rfl⟩

/-! ## Where a call is made -/

theorem Enters.wellNests (h : Enters g c K c') : (c'.eval g).WellNests g c K.log :=
  (c'.wellNests g).within h

/-- The rounds of a loop, each behind what is logged before it. -/
theorem Evaluation.Turns.wellNested {α σ : Type} {round : σ → Evaluation (Round σ α)} {n : Nat} {x y : σ}
    {past l : Log} (h : Turns round n x l y)
    (hround : ∀ k l z, k < n → Turns round k x l z → (round z).WellNests g c (past ++ l)) :
    WellNested g c past [] l := by
  induction h generalizing past with
  | start x => exact .nil past
  | @next n x z y l l' hfirst _ ih =>
    have hlog : (round x).WellNests g c (past ++ []) := hround 0 [] x (Nat.succ_pos n) (.start x)
    rw [List.append_nil] at hlog
    refine (hlog.returned hfirst).append (ih fun k l' z' hk h => ?_)
    rw [List.append_assoc]
    exact hround _ _ z' (Nat.succ_lt_succ hk) (.next hfirst h)

/-- The first item of a separated list and the links behind it. -/
theorem wellNested_of_links {n k m : Nat} {p sep : Parser} {s t : State} {v : Value} {l l' : Log}
    {y : Behaviour.Chain} (hp : eval g n p s = ⟨l, .returned ⟨t, .ok v⟩⟩)
    (h : Turns (Behaviour.sepByRound (eval g n p) (eval g n sep)) k ⟨t, v, []⟩ l' y)
    (hrounds : k + (m + 1) = t.rounds) :
    WellNested g ⟨n + 1, .sepBy1 p sep, s⟩ [] [] (l ++ l') := by
  refine ((Enters.sepBy1First n p sep s).wellNests.returned hp).append (h.wellNested ?_)
  intro i l'' z hi hturns
  obtain ⟨j, hj⟩ : ∃ j, i + (j + 1) = t.rounds := ⟨t.rounds - i - 1, by omega⟩
  have hseparator := (Enters.sepBy1Separator hp hturns hj).wellNests
  refine (wellNests_successive g _).sepByRound _ hseparator fun a w hafter => ?_
  exact (Enters.sepBy1Item hp hturns hj (eq_of_ending hafter)).wellNests

/-- What is logged before a call is made is well nested, and the traces around the call are open. -/
theorem Enters.wellNested (h : Enters g c K c') : WellNested g c [] K.traces K.log := by
  cases h with
  | bindFirst | orElseFirst | attempt | label | sepBy1First | rule => exact .nil []
  | bindNext hp => exact (Enters.bindFirst ..).wellNests.returned hp
  | orElseSecond hp => exact (Enters.orElseFirst ..).wellNests.returned hp
  | @many n k m p s l now hturns hrounds =>
    refine hturns.wellNested fun i l' now' hi h => ?_
    obtain ⟨j, hj⟩ : ∃ j, i + (j + 1) = s.rounds := ⟨s.rounds - i - 1, by omega⟩
    exact (wellNests_successive g _).manyRound _ (Enters.many h hj).wellNests
  | sepBy1Separator hp hturns hrounds => exact wellNested_of_links hp hturns hrounds
  | sepBy1Item hp hturns hrounds hsep =>
    have hseparator := (Enters.sepBy1Separator hp hturns hrounds).wellNests
    exact (wellNested_of_links hp hturns hrounds).append (hseparator.returned hsep)
  | trace n name p s => exact .unanswered name s (.nil _)

theorem Reaches.wellNested (h : Reaches g c K c') : WellNested g c [] K.traces K.log := by
  induction h with
  | here c => exact .nil []
  | through hfirst _ ih =>
    have hrest := ih.within hfirst
    rw [List.append_nil] at hrest
    exact hfirst.wellNested.append hrest

/-! ## Runs -/

theorem settle_log_of_returned {x : Evaluation Reply} {r : Reply} (h : x.ending = .returned r)
    (size : Nat) : (x.settle size).log = x.log ++ [.stopped size r.state.position r.outcome] := by
  rcases x with ⟨log, ending⟩
  cases h
  rfl

theorem settle_log_of_tooDeep {x : Evaluation Reply} (h : x.ending = .tooDeep) (size : Nat) :
    (x.settle size).log = x.log ++ [.exceeded size] := by
  rcases x with ⟨log, ending⟩
  cases h
  rfl

/-- Logs are well nested. A run that comes to an end leaves one event of its own, behind everything that
happened in it. What was logged before consists of the entries and answers of traces in this very run and of
what the runs made in it logged, and if the run stopped, all its entries are answered: the last one first,
under their names, in the same source and not further ahead. Only a run that exceeded the limit leaves
entries open. What a run inside logs stands there in one piece, where that run was made, and of two runs
inside one is over before the other begins. -/
theorem run_log_well_nested (g : Grammar) (limit : Nat) (p : Parser) (source : Source) :
    let c : Call := ⟨limit, p, .start source⟩
    (∀ r, (c.eval g).ending = .returned r →
        (runWithin limit g p source).log =
            (c.eval g).log ++ [.stopped source.size r.state.position r.outcome] ∧
          WellNested g c [] [] (c.eval g).log) ∧
      ((c.eval g).ending = .tooDeep →
        (runWithin limit g p source).log = (c.eval g).log ++ [.exceeded source.size] ∧
          ∃ names, WellNested g c [] names (c.eval g).log) ∧
      (∀ r : InnerRun g c, r.context.log ++ r.log <+: (c.eval g).log) ∧
      ∀ r r' : InnerRun g c, r = r' ∨ r.context.log ++ r.log <+: r'.context.log ∨
        r'.context.log ++ r'.log <+: r.context.log := by
  intro c
  obtain ⟨names, hlog, hclosed⟩ := c.wellNests g
  refine ⟨fun r hr => ⟨settle_log_of_returned hr source.size, ?_⟩,
    fun hdeep => ⟨settle_log_of_tooDeep hdeep source.size, names, hlog⟩, InnerRun.prefix_log,
    InnerRun.ordered⟩
  rw [← hclosed r hr]
  exact hlog

/-- A run that nests too deep, in the first alternative of a choice. The trace in that run stays open in
its log, and those around it are answered. -/
theorem run_log_well_nested_second_alternative :
    let g : Grammar := .rule
    let inner : Parser := .trace "inner" (.rule "r")
    let p : Parser := .trace "outer" (.orElse
      (.attempt (.bind .anyChar (Continuation.within inner))) (.trace "second" (.char 'y')))
    let x : Source := .ofString "x"
    let source : Source := .ofString "xy"
    let c : Call := ⟨9, p, .start source⟩
    let c' : Call := ⟨4, inner, .start x⟩
    let failure : Outcome := .err (.theChar 'y')
    (c.eval g).ending = .returned ⟨⟨1, source⟩, failure⟩ ∧
      (runWithin 9 g p source).log = (c.eval g).log ++ [.stopped 2 1 failure] ∧
      WellNested g c [] [] (c.eval g).log ∧ (c'.eval g).ending = .tooDeep ∧
      (runWithin 4 g inner x).log = (c'.eval g).log ++ [.exceeded 1] ∧
      (∃ names, WellNested g c' [] names (c'.eval g).log) ∧
      (∃ r : InnerRun g c, r.call = c' ∧ r.context.log ++ r.log <+: (c.eval g).log) ∧
      (c.eval g).log = [.trying "outer" (.start source), .trying "inner" (.start x), .exceeded 1,
        .trying "second" (.start source), .failed "second" ⟨1, source⟩ (.theChar 'y'),
        .failed "outer" ⟨1, source⟩ (.theChar 'y')] := by
  intro g inner p x source c c' failure
  have hreturn : (c.eval g).ending = .returned ⟨⟨1, source⟩, failure⟩ := by decide +kernel
  have hdeep : (c'.eval g).ending = .tooDeep := by decide +kernel
  have hreached : Reaches g c _ ⟨5, .subrun inner x, ⟨1, source⟩⟩ :=
    .through (.trace 8 _ _ _) (.through (.orElseFirst 7 _ _ _) (.through (.attempt 6 _ _)
      (.through (.bindNext (l := []) (v := .ofChar 'x') rfl) (.here _))))
  obtain ⟨hstopped, -, hinside, -⟩ := run_log_well_nested g 9 p source
  obtain ⟨hlog, hnested⟩ := hstopped _ hreturn
  obtain ⟨hlog', hnested'⟩ := (run_log_well_nested g 4 inner x).2.1 hdeep
  exact ⟨hreturn, hlog, hnested, hdeep, hlog', hnested',
    ⟨_, rfl, hinside ⟨_, _, _, hreached, .subrun 4 inner x _⟩⟩, by decide +kernel⟩

end Descent
