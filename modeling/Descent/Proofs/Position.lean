import Descent.Eval
import Descent.Proofs.Occurrence
import Descent.Proofs.Returning

/-!
# Where parsers go

A parser moves in two ways only: it reads a character, or it steps beyond the end. Everything else is a
choice among states it has been in, and a state before those is never needed. Hence `eval_keeps`:
whatever relation between states is reflexive, transitive and holds across these two steps holds
between the state a parser starts in and the one it replies with, whether it succeeds or fails.

`State.Leads` and `State.Within` are two such relations, the first for all parsers and the second for
those that do not read the end of the input.
-/

namespace Descent

/-- A preorder on states that holds across the reading of a character. -/
structure Passage (R : State → State → Prop) : Prop where
  refl : ∀ s, R s s
  trans : ∀ {s t u}, R s t → R t u → R s u
  char : ∀ {s c}, s.peek? = some c → R s (s.advance 1)

variable {R : State → State → Prop} {p q sep : Behaviour}

namespace State

theorem readChar_passage (hR : Passage R) (s : State) : R s s.readChar.state := by
  unfold readChar
  cases h : s.peek? with
  | none => exact hR.refl s
  | some c => exact hR.char h

theorem readEnd_passage (hR : Passage R) {s : State} (hend : s.atEnd → R s (s.advance 1)) :
    R s s.readEnd.state := by
  unfold readEnd
  by_cases h : s.atEnd
  · rw [if_pos h]
    exact hend h
  · rw [if_neg h]
    exact hR.refl s

theorem readText_passage (hR : Passage R) (v : Value) (s : State) (text : List Char) :
    R s (s.readText v text).state := by
  induction text generalizing s with
  | nil => exact hR.refl s
  | cons c rest ih =>
    unfold readText
    cases h : s.peek? with
    | none => exact hR.refl s
    | some d =>
      by_cases hd : d = c
      · simp only [if_pos hd]
        exact hR.trans (hR.char h) (ih _)
      · simp only [if_neg hd]
        exact hR.refl s

end State

namespace Behaviour

/-- Every reply of `b` is `R`-after its start. -/
def Keeps (R : State → State → Prop) (b : Behaviour) : Prop :=
  ∀ s, (b s).Ensures fun r => R s r.state

theorem Keeps.bind (hR : Passage R) {f : Value → Behaviour} (hp : p.Keeps R)
    (hf : ∀ v, (f v).Keeps R) : (p.bind f).Keeps R := by
  intro s
  refine (hp s).bind ?_
  rintro ⟨t, v | e⟩ ht
  · exact (hf v t).mono fun r hr => hR.trans ht hr
  · exact Evaluation.ensures_pure_iff.2 (hR.refl s)

theorem Keeps.orElse (hp : p.Keeps R) (hq : q.Keeps R) : (p.orElse q).Keeps R := by
  intro s
  refine (hp s).bind ?_
  rintro ⟨t, v | e⟩ ht
  · exact Evaluation.ensures_pure_iff.2 ht
  · by_cases h : t.position = s.position
    · simp only [if_pos h]
      exact hq s
    · simp only [if_neg h]
      exact Evaluation.ensures_pure_iff.2 ht

theorem Keeps.attempt (hR : Passage R) (hp : p.Keeps R) : p.attempt.Keeps R := by
  intro s
  refine (hp s).bind ?_
  rintro ⟨t, v | e⟩ ht
  · exact Evaluation.ensures_pure_iff.2 ht
  · exact Evaluation.ensures_pure_iff.2 (hR.refl s)

theorem Keeps.label (hp : p.Keeps R) (e : Expected) : (p.label e).Keeps R := by
  intro s
  refine (hp s).bind ?_
  rintro ⟨t, v | e⟩ ht
  · exact Evaluation.ensures_pure_iff.2 ht
  · by_cases h : t.position = s.position
    · simp only [if_pos h]
      exact Evaluation.ensures_pure_iff.2 ht
    · simp only [if_neg h]
      exact Evaluation.ensures_pure_iff.2 ht

theorem Keeps.trace (hp : p.Keeps R) (name : String) : (p.trace name).Keeps R := by
  intro s
  refine Evaluation.Ensures.bind (P := fun _ => True) (fun _ _ => trivial) fun _ _ => ?_
  refine (hp s).bind fun r hr => ?_
  exact Evaluation.Ensures.bind (P := fun _ => True) (fun _ _ => trivial)
    fun _ _ => Evaluation.ensures_pure_iff.2 hr

/-! ## Loops -/

theorem ensures_manyRound (hR : Passage R) {s : State} {now : Progress} (hnow : R s now.current)
    (hp : (p now.current).Ensures fun r => R now.current r.state) : (manyRound p now).Ensures
      (Evaluation.Round.Holds (fun now => R s now.current) fun r => R s r.state) := by
  refine hp.bind ?_
  rintro ⟨next, v | e⟩ hnext
  · simp only
    split
    · exact Evaluation.ensures_pure_iff.2 hnow
    · exact Evaluation.ensures_pure_iff.2 (hR.trans hnow hnext)
  · exact Evaluation.ensures_pure_iff.2 hnow

theorem Keeps.many (hR : Passage R) (hp : p.Keeps R) : p.many.Keeps R := fun s =>
  Evaluation.ensures_iterate (fun now hnow => ensures_manyRound hR hnow (hp now.current)) _ (hR.refl s)

end Behaviour

/-- A chain that comes undone stops before or after one of its separators. -/
theorem Link.unwind_state (e : Expected) (latest : Link) (chain : List Link) :
    ∃ link ∈ latest :: chain,
      (latest.unwind e chain).state = link.before ∨ (latest.unwind e chain).state = link.after := by
  induction chain generalizing latest with
  | nil =>
    refine ⟨latest, List.mem_singleton_self _, ?_⟩
    unfold unwind
    split
    · exact .inl rfl
    · exact .inr rfl
  | cons earlier chain ih =>
    unfold unwind
    split
    · exact ⟨latest, List.mem_cons_self, .inl rfl⟩
    · obtain ⟨link, hmem, h⟩ := ih earlier
      exact ⟨link, List.mem_cons_of_mem _ hmem, h⟩

namespace Behaviour

structure Chain.After (R : State → State → Prop) (s : State) (c : Chain) : Prop where
  current : R s c.current
  links : ∀ link ∈ c.links, R s link.before ∧ R s link.after

/-- A round of a separated list stays after `s` if the separator does from where the round begins, and the
item from where the separator has come. -/
theorem ensures_sepByRound (hR : Passage R) {s : State} {c : Chain} (hc : c.After R s)
    (hsep : (sep c.current).Ensures fun r => R c.current r.state)
    (hp : ∀ a w, (sep c.current).ending = .returned ⟨a, .ok w⟩ → (p a).Ensures fun r => R a r.state) :
    (sepByRound p sep c).Ensures (Evaluation.Round.Holds (Chain.After R s) fun r => R s r.state) := by
  intro x hx
  obtain ⟨⟨after, w | e⟩, hafter, hx⟩ := Evaluation.bind_returns_iff.1 hx
  · have hs : R s after := hR.trans hc.current (hsep _ hafter)
    have hlinks : ∀ link ∈ ⟨c.last, c.current, after⟩ :: c.links,
        R s link.before ∧ R s link.after := by
      intro link hmem
      rcases List.mem_cons.1 hmem with rfl | hmem
      · exact ⟨hc.current, hs⟩
      · exact hc.links link hmem
    refine (hp after w hafter).bind ?_ x hx
    rintro ⟨next, v | e⟩ hnext
    · simp only
      split
      · exact Evaluation.ensures_pure_iff.2 hc.current
      · exact Evaluation.ensures_pure_iff.2 ⟨hR.trans hs hnext, hlinks⟩
    · refine Evaluation.ensures_pure_iff.2 ?_
      show R s (Link.unwind e ⟨c.last, c.current, after⟩ c.links).state
      obtain ⟨link, hmem, h | h⟩ := Link.unwind_state e ⟨c.last, c.current, after⟩ c.links
      · rw [h]
        exact (hlinks link hmem).1
      · rw [h]
        exact (hlinks link hmem).2
  · cases hx
    exact hc.current

theorem Chain.after_start (hR : Passage R) (s : State) (v : Value) :
    Chain.After R s ⟨s, v, []⟩ := ⟨hR.refl s, fun _ hmem => absurd hmem List.not_mem_nil⟩

theorem Keeps.sepBy1 (hR : Passage R) (hp : p.Keeps R) (hsep : sep.Keeps R) :
    (p.sepBy1 sep).Keeps R := by
  refine Keeps.bind hR hp fun v s => ?_
  refine Evaluation.ensures_iterate (fun c hc => ?_) _ (Chain.after_start hR s v)
  exact ensures_sepByRound hR hc (hsep c.current) fun a _ _ => hp a

end Behaviour

/-! ## All parsers -/

/-- The state of a reply is `R`-after the start, if `R` holds across a step beyond the end or the parser
takes no such step. -/
theorem eval_keeps (hR : Passage R) {g : Grammar} (depth : Nat) {p : Parser}
    (hend : Occurs g .endOfInput p → ∀ s : State, s.atEnd → R s (s.advance 1)) :
    (eval g depth p).Keeps R := by
  induction depth generalizing p with
  | zero => exact fun s => Evaluation.ensures_tooDeep _
  | succ depth ih =>
    have part : ∀ {q}, Part g q p → (eval g depth q).Keeps R :=
      fun hq => ih fun hocc => hend (hocc.ofPart hq)
    cases p with
    | succeed v =>
      intro s
      rw [eval_succeed]
      exact Evaluation.ensures_pure_iff.2 (hR.refl s)
    | fail e =>
      intro s
      rw [eval_fail]
      exact Evaluation.ensures_pure_iff.2 (hR.refl s)
    | anyChar =>
      intro s
      rw [eval_anyChar]
      exact Evaluation.ensures_pure_iff.2 (s.readChar_passage hR)
    | endOfInput =>
      intro s
      rw [eval_endOfInput]
      exact Evaluation.ensures_pure_iff.2 (State.readEnd_passage hR (hend (.refl g _) s))
    | text expected =>
      intro s
      rw [eval_text]
      exact Evaluation.ensures_pure_iff.2 (s.readText_passage hR _ _)
    | bind p f =>
      rw [eval_bind]
      exact .bind hR (part (.bindFirst p f)) fun v => part (.bindNext p f v)
    | orElse p q =>
      rw [eval_orElse]
      exact .orElse (part (.orElseFirst p q)) (part (.orElseSecond p q))
    | attempt p =>
      rw [eval_attempt]
      exact .attempt hR (part (.attempt p))
    | label e p =>
      rw [eval_label]
      exact .label (part (.label e p)) e
    | many p =>
      rw [eval_many]
      exact .many hR (part (.many p))
    | sepBy1 p sep =>
      rw [eval_sepBy1]
      exact .sepBy1 hR (part (.sepBy1Item p sep)) (part (.sepBy1Separator p sep))
    | trace name p =>
      rw [eval_trace]
      exact .trace (part (.trace name p)) name
    | rule name =>
      rw [eval_rule]
      exact part (.rule name)
    | subrun p source =>
      intro s
      rw [eval_subrun]
      exact Evaluation.Ensures.bind (P := fun _ => True) (fun _ _ => trivial)
        fun _ _ => Evaluation.ensures_pure_iff.2 (hR.refl s)

/-! ## Forward, and no further than the end -/

namespace State

/-- `t` may come after `s`: in the same source, not before `s`, and at `s` itself if that is before the
start. -/
structure Leads (s t : State) : Prop where
  source : t.source = s.source
  forward : s.position ≤ t.position
  outside : s.position < 0 → t.position = s.position

/-- `t` is not beyond both `s` and the end of the source. -/
structure Within (s t : State) : Prop where
  source : t.source = s.source
  bound : t.position ≤ max s.position s.source.size

theorem peek?_eq_some {s : State} {c : Char} (h : s.peek? = some c) :
    0 ≤ s.position ∧ s.position < s.source.size := by
  unfold peek? Source.charAt? at h
  split at h
  · cases h
  · have hlt := (Array.getElem?_eq_some_iff.1 h).1
    omega

theorem atEnd_iff {s : State} : s.atEnd ↔ s.source.size ≤ s.position := by
  simp [atEnd]

theorem Leads.trans {s t u : State} (h₁ : s.Leads t) (h₂ : t.Leads u) : s.Leads u where
  source := h₂.source.trans h₁.source
  forward := Int.le_trans h₁.forward h₂.forward
  outside h := by
    have h₁ := h₁.outside h
    have h₂ := h₂.outside (h₁ ▸ h)
    exact h₂.trans h₁

theorem leads_passage : Passage Leads where
  refl s := ⟨rfl, Int.le_refl _, fun _ => rfl⟩
  trans := Leads.trans
  char {s c} h := by
    have := peek?_eq_some h
    exact ⟨rfl, by rw [advance_position]; omega, by omega⟩

theorem leads_end (s : State) (h : s.atEnd) : s.Leads (s.advance 1) := by
  have := atEnd_iff.1 h
  exact ⟨rfl, by rw [advance_position]; omega, by omega⟩

theorem within_passage : Passage Within where
  refl s := ⟨rfl, by omega⟩
  trans h₁ h₂ := by
    have hsource := h₁.source
    have h₁ := h₁.bound
    have h₂' := h₂.bound
    rw [hsource] at h₂'
    exact ⟨h₂.source.trans hsource, by omega⟩
  char {s c} h := by
    have := peek?_eq_some h
    exact ⟨rfl, by rw [advance_position]; omega⟩

end State

theorem eval_leads (g : Grammar) (depth : Nat) (p : Parser) : (eval g depth p).Keeps State.Leads :=
  eval_keeps State.leads_passage depth fun _ => State.leads_end

theorem eval_within {g : Grammar} (depth : Nat) {p : Parser} (h : EndFree g p) :
    (eval g depth p).Keeps State.Within :=
  eval_keeps State.within_passage depth fun hocc => absurd hocc h

/-- A reply is in the same source and never before the start. Outside the source a parser stays where it
is, and without a step beyond the end it does not leave the source. -/
theorem reply_position (g : Grammar) (depth : Nat) (p : Parser) (s : State) (r : Reply)
    (h : (eval g depth p s).result? = some r) :
    r.state.source = s.source ∧ s.position ≤ r.state.position ∧
      (s.position < 0 → r.state.position = s.position) ∧
      (EndFree g p → r.state.position ≤ max s.position s.source.size) := by
  have hreturn := Evaluation.result?_eq_some_iff.1 h
  have hleads := eval_leads g depth p s r hreturn
  exact ⟨hleads.source, hleads.forward, hleads.outside,
    fun hfree => (eval_within depth hfree s r hreturn).bound⟩

/-- A list with a trailing separator, which fails behind its first separator. -/
theorem reply_position_trailing_separator :
    let g : Grammar := fun _ => .fail .alternative
    let p : Parser := .sepBy1 (.char 'a') (.char '-')
    let s : State := ⟨1, #['x', 'a', '-', 'a', '-']⟩
    let r : Reply := ⟨⟨3, s.source⟩, .err .aChar⟩
    (eval g 5 p s).result? = some r ∧ EndFree g p ∧ r.state.source = s.source ∧
      s.position ≤ r.state.position ∧ r.state.position ≤ max s.position s.source.size := by
  intro g p s r
  have hreply : (eval g 5 p s).result? = some r := by decide +kernel
  have hfree : EndFree g p := endFree_of_all (by simp [g]) (by simp [p, Parser.char])
  obtain ⟨hsource, hforward, -, hbound⟩ := reply_position g 5 p s r hreply
  exact ⟨hreply, hfree, hsource, hforward, hbound hfree⟩

end Descent
