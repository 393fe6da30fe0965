import Descent.Proofs.Untraced

/-!
# Reasons decide nothing

A reason says what was expected where a parser failed. Some parsers are about nothing else: a label gives
another reason, and the reasons of failures are the author's. `p.bare` is the parser `p` without its labels
and with one reason for all its failures.

Combinators look at the position of a failure and hand on its reason. `b.blank` is what there is to see of a
behaviour `b` but for reasons: how it ends, in which state and with which value, and where it nests beyond
the limit. What there is to see of a combinator depends on what there is to see of its operands
(`Behaviour.blank_bind` and the others), and a label cannot be seen at all. Hence parsers that are the same
when they are bare do the same (`reasons_are_inert`). A label takes a level of nesting, which is why both
have to keep within their limits.
-/

namespace Descent

open Evaluation

/-! ## Without reasons -/

def Expected.blank : Expected := .named ""

def Reply.blank : Reply → Reply
  | ⟨t, .ok v⟩ => ⟨t, .ok v⟩
  | ⟨t, .err _⟩ => ⟨t, .err .blank⟩

namespace Evaluation

variable {α β γ σ : Type}

def Round.blank : Round σ Reply → Round σ Reply
  | .again x => .again x
  | .done r => .done r.blank

/-- What there is to see of an evaluation: its result, seen through `φ`, and of the log nesting beyond the
limit. -/
def seen (φ : α → β) (x : Evaluation α) : Evaluation β :=
  x.only Event.isExceeded >>= fun a => pure (φ a)

variable {φ : β → γ}

theorem seen_bind (x : Evaluation α) (f : α → Evaluation β) :
    (x >>= f).seen φ = x.only Event.isExceeded >>= fun a => (f a).seen φ := by
  unfold seen
  rw [only_bind, bind_assoc]

theorem bind_seen (x : Evaluation β) (f : γ → Evaluation α) :
    x.seen φ >>= f = x.only Event.isExceeded >>= fun b => f (φ b) := by
  unfold seen
  rw [bind_assoc]
  apply bind_congr
  intro b
  exact pure_bind (φ b) f

@[simp] theorem only_seen (x : Evaluation β) : (x.seen φ).only Event.isExceeded = x.seen φ := by
  unfold seen
  rw [only_bind, only_only]
  rfl

theorem shallow_seen_iff {x : Evaluation β} : (x.seen φ).Shallow ↔ x.Shallow := by
  refine shallow_bind_iff.trans ?_
  rw [shallow_only_iff fun _ h => h]
  simp

theorem Approximates.seen {x y : Evaluation β} (h : x.Approximates y) :
    (x.seen φ).Approximates (y.seen φ) := by
  intro hx
  rw [h (shallow_seen_iff.1 hx)]

theorem seen_ok_iff {x : Evaluation Reply} {t : State} {v : Value} :
    (x.seen Reply.blank).ending = .returned ⟨t, .ok v⟩ ↔ x.ending = .returned ⟨t, .ok v⟩ := by
  rcases x with ⟨log, ⟨u, w | e⟩ | _ | _⟩ <;> simp [seen, only, Reply.blank, pure_eq]

theorem seen_err_iff {x : Evaluation Reply} {t : State} :
    (x.seen Reply.blank).ending = .returned ⟨t, .err .blank⟩ ↔
      ∃ e, x.ending = .returned ⟨t, .err e⟩ := by
  rcases x with ⟨log, ⟨u, w | e⟩ | _ | _⟩ <;> simp [seen, only, Reply.blank, pure_eq]

theorem seen_iterate {round round' : σ → Evaluation (Round σ Reply)}
    (hround : ∀ x, (round x).seen Round.blank = (round' x).seen Round.blank) (n : Nat) (x : σ) :
    (iterate round n x).seen Reply.blank = (iterate round' n x).seen Reply.blank := by
  have hfirst : ∀ (round : σ → Evaluation (Round σ Reply)) (n : Nat) (x : σ),
      (iterate round (n + 1) x).seen Reply.blank =
        (round x).seen Round.blank >>= fun r => (Round.proceed round n r).seen Reply.blank := by
    intro round n x
    rw [iterate_succ_eq, seen_bind, bind_seen]
    apply bind_congr
    rintro (y | ⟨t, v | e⟩) <;> rfl
  induction n generalizing x with
  | zero => rfl
  | succ n ih =>
    rw [hfirst, hfirst, hround]
    apply bind_congr
    rintro (y | r)
    · exact ih y
    · rfl

theorem seen_settle (x : Evaluation Reply) (size : Nat) (s : State) :
    (x.settle size >>= fun o => pure ⟨s, o⟩).seen Reply.blank =
      ((x.seen Reply.blank).settle size >>= fun o => pure ⟨s, o⟩).seen Reply.blank := by
  have hstopped : ∀ position o, (Event.stopped size position o).isExceeded = false := fun _ _ => rfl
  rcases x with ⟨log, ⟨t, v | e⟩ | _ | _⟩ <;> simp [seen, only, settle, Reply.blank, pure_eq, hstopped]

end Evaluation

theorem Link.unwind_blank (e e' : Expected) (latest : Link) (chain : List Link) :
    (latest.unwind e chain).blank = (latest.unwind e' chain).blank := by
  induction chain generalizing latest with
  | nil =>
    unfold unwind
    split <;> rfl
  | cons earlier chain ih =>
    unfold unwind
    split
    · rfl
    · exact ih earlier

namespace Behaviour

def blank (b : Behaviour) : Behaviour := fun s => (b s).seen Reply.blank

theorem Approximates.blank {p p' : Behaviour} (h : p.Approximates p') :
    p.blank.Approximates p'.blank := fun s => (h s).seen

theorem blank_bind (p : Behaviour) (f : Value → Behaviour) :
    (p.bind f).blank = p.blank.bind fun v => (f v).blank := by
  funext s
  show (p s >>= _).seen Reply.blank = (p s).seen Reply.blank >>= _
  rw [Evaluation.seen_bind, Evaluation.bind_seen]
  apply bind_congr
  rintro ⟨t, v | e⟩ <;> rfl

theorem blank_orElse (p q : Behaviour) : (p.orElse q).blank = p.blank.orElse q.blank := by
  funext s
  show (p s >>= _).seen Reply.blank = (p s).seen Reply.blank >>= _
  rw [Evaluation.seen_bind, Evaluation.bind_seen]
  apply bind_congr
  rintro ⟨t, v | e⟩
  · rfl
  · show (if t.position = s.position then _ else _ : Evaluation Reply).seen Reply.blank =
      if t.position = s.position then _ else _
    split <;> rfl

theorem blank_attempt (p : Behaviour) : p.attempt.blank = p.blank.attempt := by
  funext s
  show (p s >>= _).seen Reply.blank = (p s).seen Reply.blank >>= _
  rw [Evaluation.seen_bind, Evaluation.bind_seen]
  apply bind_congr
  rintro ⟨t, v | e⟩ <;> rfl

theorem blank_label (p : Behaviour) (e : Expected) : (p.label e).blank = p.blank := by
  funext s
  show (p s >>= _).seen Reply.blank = (p s).only Event.isExceeded >>= _
  rw [Evaluation.seen_bind]
  apply bind_congr
  rintro ⟨t, v | e'⟩
  · rfl
  · simp only
    split <;> rfl

theorem blank_trace (p : Behaviour) (name : String) : (p.trace name).blank = p.blank := by
  have htrace : (p.trace name).only Event.isExceeded = p.only Event.isExceeded :=
    only_trace (fun _ _ => rfl) (by rintro name ⟨t, v | e⟩ <;> rfl) p name
  funext s
  show (p.trace name).only Event.isExceeded s >>= _ = p.only Event.isExceeded s >>= _
  rw [htrace]

/-! ## Loops -/

theorem blank_many (p : Behaviour) : p.many.blank = p.blank.many.blank := by
  have hround : ∀ now, (manyRound p now).seen Round.blank = (manyRound p.blank now).seen Round.blank := by
    intro now
    show (p now.current >>= _).seen _ = ((p now.current).seen Reply.blank >>= _).seen _
    rw [Evaluation.seen_bind, Evaluation.seen_bind, Evaluation.only_seen, Evaluation.bind_seen]
    apply bind_congr
    rintro ⟨t, v | e⟩ <;> rfl
  funext s
  exact Evaluation.seen_iterate hround _ _

theorem blank_sepBy1 (p sep : Behaviour) :
    (p.sepBy1 sep).blank = (p.blank.sepBy1 sep.blank).blank := by
  have hround : ∀ c, (sepByRound p sep c).seen Round.blank =
      (sepByRound p.blank sep.blank c).seen Round.blank := by
    intro c
    show (sep c.current >>= _).seen _ = ((sep c.current).seen Reply.blank >>= _).seen _
    rw [Evaluation.seen_bind, Evaluation.seen_bind, Evaluation.only_seen, Evaluation.bind_seen]
    apply bind_congr
    rintro ⟨a, w | e⟩
    · show (p a >>= _).seen _ = ((p a).seen Reply.blank >>= _).seen _
      rw [Evaluation.seen_bind, Evaluation.seen_bind, Evaluation.only_seen, Evaluation.bind_seen]
      apply bind_congr
      rintro ⟨t, v | e⟩
      · rfl
      · exact congrArg (fun r => pure (Round.done r))
          (Link.unwind_blank e .blank ⟨c.last, c.current, a⟩ c.links)
    · rfl
  unfold sepBy1
  rw [blank_bind, blank_bind]
  funext s
  show (p s).seen Reply.blank >>= _ = ((p s).seen Reply.blank).seen Reply.blank >>= _
  rw [Evaluation.bind_seen, Evaluation.bind_seen, Evaluation.only_seen, Evaluation.bind_seen]
  apply bind_congr
  rintro ⟨t, v | e⟩
  · exact Evaluation.seen_iterate hround t.rounds ⟨t, v, []⟩
  · rfl

end Behaviour

/-! ## Bare parsers -/

/-- The parser with every label replaced by what it labels, and with one reason for all failures that it
names; rules are not followed. -/
@[simp] def Parser.bare : Parser → Parser
  | .fail _ => .fail .blank
  | .bind p f => .bind p.bare fun v => (f v).bare
  | .orElse p q => .orElse p.bare q.bare
  | .attempt p => .attempt p.bare
  | .label _ p => p.bare
  | .many p => .many p.bare
  | .sepBy1 p sep => .sepBy1 p.bare sep.bare
  | .trace name p => .trace name p.bare
  | .subrun p source => .subrun p.bare source
  | p => p

def Grammar.bare (g : Grammar) : Grammar := fun name => (g name).bare

/-- By induction on the levels at hand with the labels. Where a label goes, one of them is saved. -/
theorem eval_bare_approximates (g : Grammar) {depth depth' : Nat} (h : depth ≤ depth') (p : Parser) :
    (eval g depth p).blank.Approximates (eval g.bare depth' p.bare).blank := by
  induction depth generalizing depth' p with
  | zero => exact fun s => Evaluation.tooDeep_approximates _
  | succ depth ih =>
    obtain ⟨n, rfl⟩ : ∃ n, depth' = n + 1 := ⟨depth' - 1, by omega⟩
    have hrest : ∀ q, (eval g depth q).blank.Approximates (eval g.bare n q.bare).blank :=
      fun q => ih (by omega) q
    cases p with
    | bind p f =>
      rw [eval_bind, Behaviour.blank_bind, Parser.bare, eval_bind, Behaviour.blank_bind]
      exact .bind (hrest p) fun v => hrest (f v)
    | orElse p q =>
      rw [eval_orElse, Behaviour.blank_orElse, Parser.bare, eval_orElse, Behaviour.blank_orElse]
      exact .orElse (hrest p) (hrest q)
    | attempt p =>
      rw [eval_attempt, Behaviour.blank_attempt, Parser.bare, eval_attempt, Behaviour.blank_attempt]
      exact .attempt (hrest p)
    | label e p =>
      rw [eval_label, Behaviour.blank_label, Parser.bare]
      exact ih (by omega) p
    | many p =>
      rw [eval_many, Behaviour.blank_many, Parser.bare, eval_many,
        Behaviour.blank_many (eval g.bare n p.bare)]
      exact .blank (.many (hrest p))
    | sepBy1 p sep =>
      rw [eval_sepBy1, Behaviour.blank_sepBy1, Parser.bare, eval_sepBy1,
        Behaviour.blank_sepBy1 (eval g.bare n p.bare)]
      exact .blank (.sepBy1 (hrest p) (hrest sep))
    | trace name p =>
      rw [eval_trace, Behaviour.blank_trace, Parser.bare, eval_trace, Behaviour.blank_trace]
      exact hrest p
    | rule name =>
      rw [eval_rule]
      exact hrest (g name)
    | subrun p source =>
      intro s
      show Evaluation.Approximates ((eval g (depth + 1) (.subrun p source) s).seen _)
        ((eval g.bare (n + 1) (.subrun p.bare source) s).seen _)
      rw [eval_subrun, eval_subrun, Evaluation.seen_settle, Evaluation.seen_settle (eval g.bare n _ _)]
      exact .seen (.bind (.settle (hrest p (.start source))) fun _ => .refl _)
    | _ => exact fun s => .refl _

/-- What there is to see of a call that keeps within its limit is what there is to see of it without
labels and with one reason for all failures. -/
theorem blank_eq_of_within {g : Grammar} {depth depth' : Nat} (h : depth ≤ depth') {p : Parser}
    {s : State} (hwithin : ∀ c, Causes g ⟨depth, p, s⟩ c → c.depth ≠ 0) :
    (eval g depth p).blank s = (eval g.bare depth' p.bare).blank s := by
  have hshallow : (eval g depth p s).Shallow :=
    shallow_iff_causes (c := ⟨depth, p, s⟩).2 hwithin
  exact (eval_bare_approximates g h p s (Evaluation.shallow_seen_iff.2 hshallow)).symm

/-- Reasons are inert. Two parsers that are the same when bare, with rules that are, do the same wherever
both keep within their limits, with all runs inside them: if one succeeds, the other succeeds with the same
value and in the same state, and if one fails, the other fails in the same state. -/
theorem reasons_are_inert {g h : Grammar} {p q : Parser} (hrules : g.bare = h.bare)
    (hparsers : p.bare = q.bare) {depth depth' : Nat} {s : State}
    (hp : ∀ c, Causes g ⟨depth, p, s⟩ c → c.depth ≠ 0)
    (hq : ∀ c, Causes h ⟨depth', q, s⟩ c → c.depth ≠ 0) :
    (∀ t v, (eval g depth p s).ending = .returned ⟨t, .ok v⟩ ↔
        (eval h depth' q s).ending = .returned ⟨t, .ok v⟩) ∧
      ∀ t, (∃ e, (eval g depth p s).ending = .returned ⟨t, .err e⟩) ↔
        ∃ e, (eval h depth' q s).ending = .returned ⟨t, .err e⟩ := by
  have hsame : (eval g depth p).blank s = (eval h depth' q).blank s := by
    rw [blank_eq_of_within (Nat.le_max_left depth depth') hp,
      blank_eq_of_within (Nat.le_max_right depth depth') hq, hrules, hparsers]
  have hending := congrArg Evaluation.ending hsame
  refine ⟨fun t v => ?_, fun t => ?_⟩
  · refine Evaluation.seen_ok_iff.symm.trans (Iff.trans ?_ Evaluation.seen_ok_iff)
    exact Eq.congr_left hending
  · refine Evaluation.seen_err_iff.symm.trans (Iff.trans ?_ Evaluation.seen_err_iff)
    exact Eq.congr_left hending

/-- A list in a run inside, whose second item is missing. One grammar has a label for its items, the other
one a reason of its own, and one choice has a label as a whole. Both lists fail, and both choices fail
behind the text that was read. -/
theorem reasons_are_inert_missing_item :
    let g : Grammar := fun _ =>
      .label (.named "an item") (.orElse (.attempt (.char 'a')) (.fail .alternative))
    let h : Grammar := fun _ => .orElse (.attempt (.char 'a')) (.fail (.named "the letter a"))
    let list : Parser := .bind (.text "a,") (Continuation.within (.sepBy1 (.rule "item") (.char ',')))
    let p : Parser := .orElse list (.text "b")
    let q : Parser := .label (.named "a list") p
    let s : State := .start (.ofString "a,b")
    g.bare = h.bare ∧ p.bare = q.bare ∧ (∀ c, Causes g ⟨10, p, s⟩ c → c.depth ≠ 0) ∧
      (∀ c, Causes h ⟨11, q, s⟩ c → c.depth ≠ 0) ∧
      (eval g 10 p s).ending = .returned ⟨⟨2, s.source⟩, .err (.named "an item")⟩ ∧
      ∃ e, (eval h 11 q s).ending = .returned ⟨⟨2, s.source⟩, .err e⟩ := by
  intro g h list p q s
  have hp : (eval g 10 p s).Shallow := by decide +kernel
  have hq : (eval h 11 q s).Shallow := by decide +kernel
  have hp' : ∀ c, Causes g ⟨10, p, s⟩ c → c.depth ≠ 0 := shallow_iff_causes.1 hp
  have hq' : ∀ c, Causes h ⟨11, q, s⟩ c → c.depth ≠ 0 := shallow_iff_causes.1 hq
  have hfails : (eval g 10 p s).ending = .returned ⟨⟨2, s.source⟩, .err (.named "an item")⟩ := by
    decide +kernel
  have hinert := (reasons_are_inert (g := g) (h := h) (p := p) (q := q) rfl rfl hp' hq').2 ⟨2, s.source⟩
  exact ⟨rfl, rfl, hp', hq', hfails, hinert.1 ⟨_, hfails⟩⟩

end Descent
