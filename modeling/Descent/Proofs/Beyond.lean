import Descent.Proofs.Calls

/-!
# Steps beyond the end

Reading the end of the input moves beyond it, and does so again from there: a parser that reads the end
twice comes to stand two behind the last character. One behind it is the bound otherwise, and
`position_bound_iff` says what otherwise means: no call within the run reads the end from beyond the end.

The steps that count are those that calls really take, so `eval_keeps` will not do, which has a relation
hold across all steps that the parser could take from anywhere. `Call.keeps` asks for it only where the
call reaches a parser of the end, and `Reaches.keeps` gives it for every call on the way.
-/

namespace Descent

open Evaluation

/-! ## Loops in their rounds -/

namespace Evaluation

variable {α σ : Type} {round : σ → Evaluation (Round σ α)} {J : σ → Prop} {P : α → Prop} {k n : Nat}
  {x y : σ} {l : Log} {a : α}

theorem exists_turns_of_iterate (h : (iterate round n x).ending = .returned a) :
    ∃ k m l y, k + (m + 1) = n ∧ Turns round k x l y ∧ (round y).ending = .returned (.done a) := by
  induction n generalizing x with
  | zero => cases h
  | succ n ih =>
    rw [iterate_succ_eq] at h
    obtain ⟨z | b, hround, h⟩ := bind_returns_iff.1 h
    · obtain ⟨k, m, l, y, hk, hturns, hdone⟩ := ih h
      exact ⟨k + 1, m, _, y, by omega, .next (eq_of_ending hround) hturns, hdone⟩
    · cases h
      exact ⟨0, n, [], x, Nat.zero_add _, .start x, hround⟩

/-- What each round keeps, in its turn, holds behind all of them. -/
theorem Turns.holds (h : Turns round k x l y) (hk : k ≤ n) (hround : ∀ i m l z, i + (m + 1) = n →
    Turns round i x l z → J z → (round z).Ensures (Round.Holds J P)) (hx : J x) : J y := by
  induction h generalizing n with
  | start x => exact hx
  | @next k x y z l l' hfirst _ ih =>
    obtain ⟨n, rfl⟩ : ∃ m, n = m + 1 := ⟨n - 1, by omega⟩
    have hy : J y :=
      hround 0 n [] x (by omega) (.start x) hx (.again y) (congrArg Evaluation.ending hfirst)
    refine ih (n := n) (by omega) (fun i m l u hi hturns => ?_) hy
    exact hround (i + 1) m _ u (by omega) (.next hfirst hturns)

theorem ensures_iterate_in_turn (hround : ∀ i m l z, i + (m + 1) = n → Turns round i x l z → J z →
    (round z).Ensures (Round.Holds J P)) (hx : J x) : (iterate round n x).Ensures P := by
  intro a h
  obtain ⟨k, m, l, y, hk, hturns, hdone⟩ := exists_turns_of_iterate h
  exact hround k m l y hk hturns (hturns.holds (by omega) hround hx) _ hdone

end Evaluation

/-! ## What calls keep -/

variable {R : State → State → Prop} {g : Grammar} {c c' : Call} {K : Context} {n k m : Nat}
  {p sep : Parser} {s t : State} {v : Value} {l l' : Log}

/-- What the calls that `c` makes reply is `R`-after where they are made. -/
def OperandsKeep (R : State → State → Prop) (g : Grammar) (c : Call) : Prop :=
  ∀ K c', Enters g c K c' → (c'.eval g).Ensures fun r => R c'.state r.state

namespace OperandsKeep

theorem returns (h : OperandsKeep R g c) (hcall : Enters g c K ⟨n, p, s⟩)
    (hreturn : eval g n p s = ⟨l, .returned ⟨t, .ok v⟩⟩) : R s t :=
  h _ _ hcall _ (congrArg Evaluation.ending hreturn)

theorem manyRound (hR : Passage R) (h : OperandsKeep R g ⟨n + 1, .many p, s⟩) (k m : Nat) (l : Log)
    (now : Behaviour.Progress) (hk : k + (m + 1) = s.rounds)
    (hturns : Turns (Behaviour.manyRound (eval g n p)) k ⟨s, []⟩ l now) (hnow : R s now.current) :
    (Behaviour.manyRound (eval g n p) now).Ensures
      (Round.Holds (fun now => R s now.current) fun r => R s r.state) :=
  Behaviour.ensures_manyRound hR hnow (h _ _ (.many hturns hk))

theorem manyTurns (hR : Passage R) (h : OperandsKeep R g ⟨n + 1, .many p, s⟩) {now : Behaviour.Progress}
    (hturns : Turns (Behaviour.manyRound (eval g n p)) k ⟨s, []⟩ l now) (hk : k + (m + 1) = s.rounds) :
    R s now.current :=
  hturns.holds (J := fun now => R s now.current) (Nat.le.intro hk) (h.manyRound hR) (hR.refl s)

theorem sepByRound (hR : Passage R) (h : OperandsKeep R g ⟨n + 1, .sepBy1 p sep, s⟩)
    (hitem : eval g n p s = ⟨l, .returned ⟨t, .ok v⟩⟩) (k m : Nat) (l' : Log) (d : Behaviour.Chain)
    (hk : k + (m + 1) = t.rounds)
    (hturns : Turns (Behaviour.sepByRound (eval g n p) (eval g n sep)) k ⟨t, v, []⟩ l' d)
    (hd : d.After R t) : (Behaviour.sepByRound (eval g n p) (eval g n sep) d).Ensures
      (Round.Holds (Behaviour.Chain.After R t) fun r => R t r.state) :=
  Behaviour.ensures_sepByRound hR hd (h _ _ (.sepBy1Separator hitem hturns hk))
    fun _ _ ha => h _ _ (.sepBy1Item hitem hturns hk (eq_of_ending ha))

theorem sepByTurns (hR : Passage R) (h : OperandsKeep R g ⟨n + 1, .sepBy1 p sep, s⟩)
    (hitem : eval g n p s = ⟨l, .returned ⟨t, .ok v⟩⟩) {d : Behaviour.Chain}
    (hturns : Turns (Behaviour.sepByRound (eval g n p) (eval g n sep)) k ⟨t, v, []⟩ l' d)
    (hk : k + (m + 1) = t.rounds) : R s d.current := by
  have hd := hturns.holds (Nat.le.intro hk) (h.sepByRound hR hitem) (Behaviour.Chain.after_start hR t v)
  exact hR.trans (h.returns (.sepBy1First ..) hitem) hd.current

/-- A call replies with a state that is `R`-after its start if the calls that it makes do so, and, where it
reads the end, the step beyond the end does. -/
theorem call (hR : Passage R) (h : OperandsKeep R g c)
    (hend : ∀ n s, c = ⟨n + 1, .endOfInput, s⟩ → s.atEnd → R s (s.advance 1)) :
    (c.eval g).Ensures fun r => R c.state r.state := by
  obtain ⟨_ | n, p, s⟩ := c
  · exact ensures_tooDeep _
  cases p with
  | succeed | fail => exact ensures_pure_iff.2 (hR.refl s)
  | anyChar => exact ensures_pure_iff.2 (s.readChar_passage hR)
  | endOfInput => exact ensures_pure_iff.2 (State.readEnd_passage hR (hend n s rfl))
  | text expected => exact ensures_pure_iff.2 (s.readText_passage hR _ _)
  | bind p f =>
    intro r hr
    obtain ⟨⟨t, v | e⟩, hp, hr⟩ := bind_returns_iff.1 hr
    · exact hR.trans (h _ _ (.bindFirst n p f s) _ hp) (h _ _ (.bindNext (eq_of_ending hp)) r hr)
    · cases hr
      exact hR.refl s
  | orElse p q =>
    intro r hr
    obtain ⟨⟨t, v | e⟩, hp, hr⟩ := bind_returns_iff.1 hr
    · cases hr
      exact h _ _ (.orElseFirst n p q s) _ hp
    · by_cases hstill : t.position = s.position
      · simp only [if_pos hstill] at hr
        exact h _ _ (.orElseSecond (eq_of_ending hp) hstill) r hr
      · simp only [if_neg hstill] at hr
        cases hr
        exact h _ _ (.orElseFirst n p q s) _ hp
  | attempt p =>
    refine (h _ _ (.attempt n p s)).bind ?_
    rintro ⟨t, v | e⟩ ht
    · exact ensures_pure_iff.2 ht
    · exact ensures_pure_iff.2 (hR.refl s)
  | label e p =>
    refine (h _ _ (.label n e p s)).bind ?_
    rintro ⟨t, v | e⟩ ht
    · exact ensures_pure_iff.2 ht
    · simp only
      split <;> exact ensures_pure_iff.2 ht
  | many p => exact ensures_iterate_in_turn (h.manyRound hR) (hR.refl s)
  | sepBy1 p sep =>
    intro r hr
    obtain ⟨⟨t, v | e⟩, hp, hr⟩ := bind_returns_iff.1 hr
    · have hloop := ensures_iterate_in_turn (h.sepByRound hR (eq_of_ending hp))
        (Behaviour.Chain.after_start hR t v)
      exact hR.trans (h _ _ (.sepBy1First n p sep s) _ hp) (hloop r hr)
    · cases hr
      exact hR.refl s
  | trace name p =>
    refine Ensures.bind (P := fun _ => True) (fun _ _ => trivial) fun _ _ => ?_
    refine (h _ _ (.trace n name p s)).bind fun r hr => ?_
    exact Ensures.bind (P := fun _ => True) (fun _ _ => trivial) fun _ _ => ensures_pure_iff.2 hr
  | rule name =>
    have hrule := h _ _ (.rule n name s)
    exact hrule
  | subrun p source =>
    exact Ensures.bind (P := fun _ => True) (fun _ _ => trivial)
      fun _ _ => ensures_pure_iff.2 (hR.refl s)

end OperandsKeep

/-- A call is made at a state that is `R`-after the start, if all calls made before keep `R`. -/
theorem Enters.keeps (hR : Passage R) (h : Enters g c K c') (hc : OperandsKeep R g c) :
    R c.state c'.state := by
  cases h with
  | bindFirst | orElseFirst | orElseSecond | attempt | label | sepBy1First | trace | rule =>
    exact hR.refl _
  | bindNext hp => exact hc.returns (.bindFirst ..) hp
  | many hturns hk => exact hc.manyTurns hR hturns hk
  | sepBy1Separator hp hturns hk => exact hc.sepByTurns hR hp hturns hk
  | sepBy1Item hp hturns hk hsep =>
    have hseparator := hc.returns (.sepBy1Separator hp hturns hk) hsep
    exact hR.trans (hc.sepByTurns hR hp hturns hk) hseparator

/-- `R` holds across each step beyond the end that the call comes to. -/
def StepsKeep (R : State → State → Prop) (g : Grammar) (c : Call) : Prop :=
  ∀ K n s, Reaches g c K ⟨n + 1, .endOfInput, s⟩ → s.atEnd → R s (s.advance 1)

theorem StepsKeep.enters (h : StepsKeep R g c) (hcall : Enters g c K c') : StepsKeep R g c' :=
  fun _ n s hreaches => h _ n s (.through hcall hreaches)

theorem StepsKeep.reaches (h : StepsKeep R g c) (hcall : Reaches g c K c') : StepsKeep R g c' := by
  induction hcall with
  | here => exact h
  | through hfirst _ ih => exact ih (h.enters hfirst)

theorem Call.keeps (hR : Passage R) (c : Call) (h : StepsKeep R g c) :
    (c.eval g).Ensures fun r => R c.state r.state := by
  induction c using call_induction g with
  | step c hcalls _ =>
    have hoperands : OperandsKeep R g c := fun K c' hcall => hcalls K c' hcall (h.enters hcall)
    refine hoperands.call hR fun n s hc hatEnd => ?_
    subst hc
    exact h .hole n s (.here _) hatEnd

theorem Reaches.keeps (hR : Passage R) (hcall : Reaches g c K c') (h : StepsKeep R g c) :
    R c.state c'.state := by
  induction hcall with
  | here c => exact hR.refl c.state
  | through hfirst _ ih =>
    have hoperands : OperandsKeep R g _ := fun K c' hcall => Call.keeps hR c' (h.enters hcall)
    exact hR.trans (hfirst.keeps hR hoperands) (ih (h.enters hfirst))

/-! ## The bound -/

theorem Reaches.leads (h : Reaches g c K c') : c.state.Leads c'.state :=
  h.keeps State.leads_passage fun _ _ s _ => State.leads_end s

/-- The position is one beyond the end at most. -/
def State.InBounds (s : State) : Prop := s.position ≤ s.source.size + 1

theorem State.inBounds_passage : Passage fun s t => s.InBounds → t.InBounds where
  refl _ h := h
  trans hst htu h := htu (hst h)
  char {s c} h _ := by
    have hinside := peek?_eq_some h
    show s.position + 1 ≤ s.source.size + 1
    omega

/-- Every state that a parser comes to on its way through a text, its own reply's and those of the calls
within its run, is at most one beyond the end, exactly if the end of the input is never read from beyond
the end. -/
theorem position_bound_iff (g : Grammar) (depth : Nat) (p : Parser) (source : Source) :
    (∀ K c r, Reaches g ⟨depth, p, .start source⟩ K c → (c.eval g).result? = some r →
        0 ≤ r.state.position ∧ r.state.position ≤ source.size + 1) ↔
      ∀ K n s, Reaches g ⟨depth, p, .start source⟩ K ⟨n + 1, .endOfInput, s⟩ →
        s.position ≤ source.size := by
  constructor
  · intro hbound K n s hreaches
    have hsource : s.source = source := hreaches.leads.source
    by_contra hbeyond
    have hatEnd : s.atEnd := State.atEnd_iff.2 (by rw [hsource]; omega)
    have hreply : ((⟨n + 1, .endOfInput, s⟩ : Call).eval g).result? = some ⟨s.advance 1, .ok .unit⟩ := by
      show some s.readEnd = _
      rw [State.readEnd, if_pos hatEnd]
    have hle : s.position + 1 ≤ source.size + 1 := (hbound K _ _ hreaches hreply).2
    omega
  · intro hends K c r hreaches hreply
    have hreturn := result?_eq_some_iff.1 hreply
    have hsteps : StepsKeep (fun s t => s.InBounds → t.InBounds) g ⟨depth, p, .start source⟩ := by
      intro K n s hend _ _
      have hsource : s.source = source := hend.leads.source
      have hle := hends K n s hend
      show s.position + 1 ≤ s.source.size + 1
      rw [hsource]
      omega
    have hstart : (State.start source).InBounds := by
      show (0 : Int) ≤ source.size + 1
      omega
    have hleads : (State.start source).Leads r.state :=
      hreaches.leads.trans (eval_leads g c.depth c.parser c.state r hreturn)
    have hcall : c.state.InBounds := hreaches.keeps State.inBounds_passage hsteps hstart
    have hbound : r.state.InBounds :=
      Call.keeps State.inBounds_passage c (hsteps.reaches hreaches) r hreturn hcall
    unfold State.InBounds at hbound
    rw [hleads.source] at hbound
    exact ⟨hleads.forward, hbound⟩

/-- The end of the empty text, read twice: the second time it is read from beyond the end, and leads to
position 2. -/
theorem not_position_bound : ¬ ∀ (g : Grammar) (depth : Nat) (p : Parser) (text : String) (r : Reply),
    (eval g depth p (.start (.ofString text))).result? = some r →
      0 ≤ r.state.position ∧ r.state.position ≤ text.length + 1 := by
  intro hbound
  have hreply : (eval Parser.rule 3 (.seqRight .endOfInput .endOfInput)
      (.start (.ofString ""))).result? = some ⟨⟨2, #[]⟩, .ok .unit⟩ := by decide +kernel
  have hle : (2 : Int) ≤ 0 + 1 := (hbound _ _ _ "" _ hreply).2
  exact absurd hle (by decide)

end Descent
