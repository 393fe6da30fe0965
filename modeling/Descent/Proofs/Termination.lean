import Descent.Proofs.Calls

/-!
# Runs come to an end

Recursion ends with the levels, and a repetition stops at the latest beyond the end of its source. What can
go on for ever is a separated list, and it is the cause whenever an evaluation is endless
(`causes_goesOn_of_endless`). It has to step beyond the end for that, so without reading the end of the
input in items or separators no run is endless.
-/

namespace Descent

open Evaluation

variable {g : Grammar} {c c' : Call} {K : Context} {p sep : Parser}

theorem Enters.part (h : Enters g c K c') : Part g c'.parser c.parser := by
  cases h with
  | bindFirst n p f s => exact .bindFirst p f
  | bindNext => exact .bindNext _ _ _
  | orElseFirst n p q s => exact .orElseFirst p q
  | orElseSecond => exact .orElseSecond _ _
  | attempt n p s => exact .attempt p
  | label n e p s => exact .label e p
  | many => exact .many _
  | sepBy1First n p sep s => exact .sepBy1Item p sep
  | sepBy1Separator => exact .sepBy1Separator _ _
  | sepBy1Item => exact .sepBy1Item _ _
  | trace n name p s => exact .trace name p
  | rule n name s => exact .rule name

theorem Starts.part (h : Starts c c') : Part g c'.parser c.parser := by
  cases h with
  | subrun n p source s => exact .subrun p source

theorem part_of_step (h : (∃ K, Enters g c K c') ∨ Starts c c') : Part g c'.parser c.parser := by
  obtain ⟨K, h⟩ | h := h
  · exact h.part
  · exact h.part

theorem Causes.occurs (h : Causes g c c') : Occurs g c'.parser c.parser := by
  induction h using Relation.ReflTransGen.head_induction_on with
  | refl => exact .refl g _
  | head hstep _ ih => exact ih.ofPart (part_of_step hstep)

theorem settle_endless_iff {x : Evaluation Reply} {size : Nat} :
    (x.settle size).ending = .endless ↔ x.ending = .endless := by
  rcases x with ⟨log, r | _ | _⟩ <;> simp [settle]

/-- An endless evaluation comes from a separated list that has no last round. -/
theorem causes_goesOn_of_endless (hendless : (c.eval g).ending = .endless) :
    ∃ c', Causes g c c' ∧ GoesOn g c' := by
  induction c using call_induction g with
  | step c hcalls hruns =>
    by_contra hnone
    have hdepth : c.depth ≠ 0 := by
      intro hzero
      rw [Call.eval_of_depth_eq_zero hzero] at hendless
      cases hendless
    have hP : Hereditary fun α x => x.ending ≠ (.endless : Ending α) :=
      hereditary_of_ending (Q := fun _ e => e ≠ .endless) (by simp) (by simp) (by simp)
    refine eval_inherits hP hdepth (fun K c' h hc' => ?_) (fun c' h hc' => ?_)
      (fun hover => absurd ⟨c, .refl, hover⟩ hnone) hendless
    · obtain ⟨c'', hcauses, hover⟩ := hcalls K c' h hc'
      exact hnone ⟨c'', hcauses.head (.inl ⟨K, h⟩), hover⟩
    · obtain ⟨c'', hcauses, hover⟩ := hruns c' h (settle_endless_iff.1 hc')
      exact hnone ⟨c'', hcauses.head (.inr h), hover⟩

/-- Neither the items nor the separators of the lists in the parser read the end of the input. -/
def EndFreeLists (g : Grammar) (p : Parser) : Prop :=
  ∀ q sep, Occurs g (.sepBy1 q sep) p → EndFree g q ∧ EndFree g sep

theorem not_goesOn (hp : EndFreeLists g c.parser) : ¬ GoesOn g c := by
  intro h
  cases h with
  | @sepBy1 n p sep s t v hitem hforever =>
    obtain ⟨hfree, hfree'⟩ := hp p sep (.refl g _)
    obtain ⟨l, d, hturns⟩ := hforever ((t.source.size - t.position).toNat + 1)
    have hle : _ + 1 ≤ (t.source.size - t.position).toNat := turns_sepByRound_le hfree hfree' hturns
    exact Nat.not_succ_le_self _ hle

theorem EndFreeLists.ending_ne_endless (hp : EndFreeLists g c.parser) :
    (c.eval g).ending ≠ .endless := by
  intro hendless
  obtain ⟨c', hcauses, hover⟩ := causes_goesOn_of_endless hendless
  refine not_goesOn (fun q sep h => ?_) hover
  exact hp q sep (h.trans hcauses.occurs)

/-! ## Runs -/

/-- A run whose parser comes to an end has the outcome of its reply, or is a failure to nest shallower. -/
theorem settle_result?_of_ne_endless {x : Evaluation Reply} (h : x.ending ≠ .endless) (size : Nat) :
    (∃ r, x.ending = .returned r ∧ (x.settle size).result? = some r.outcome) ∨
      x.ending = .tooDeep ∧ (x.settle size).result? = some (.err .shallowerNesting) := by
  rcases x with ⟨log, r | _ | _⟩
  · exact .inl ⟨r, rfl, rfl⟩
  · exact .inr ⟨rfl, rfl⟩
  · exact absurd rfl h

/-- A run comes to an outcome if no item and no separator of a list reads the end of the input. Where the
parser has no reply within the limit, as with endless recursion, this is the failure to nest shallower.
On the way every call comes to an end, and so does every loop: the calls that a repetition makes are
applications of its operand, one in each round, and if it gets to a round behind `k` others, they are `k + 1`. -/
theorem run_returns (g : Grammar) (limit : Nat) (p : Parser) (text : String)
    (hends : EndFreeLists g p) :
    (∃ o, (runWithin limit g p (.ofString text)).result? = some o) ∧
      ((∀ r, (eval g limit p (.start (.ofString text))).ending ≠ .returned r) →
        (runWithin limit g p (.ofString text)).result? = some (.err .shallowerNesting)) ∧
      (∀ c, Causes g ⟨limit, p, .start (.ofString text)⟩ c → (c.eval g).ending ≠ .endless) ∧
      (∀ depth q s, (∀ c, (∃ K, Enters g ⟨depth + 1, .many q, s⟩ K c) ↔ ∃ k l now,
          Turns (Behaviour.manyRound (eval g depth q)) k ⟨s, []⟩ l now ∧ c = ⟨depth, q, now.current⟩) ∧
        ∀ k l now, Turns (Behaviour.manyRound (eval g depth q)) k ⟨s, []⟩ l now →
          (k + 1 : Int) ≤ max (s.source.size - s.position) 0 + 2) ∧
      ∀ q sep, Occurs g (.sepBy1 q sep) p → ∀ depth s v k l chain,
        Turns (Behaviour.sepByRound (eval g depth q) (eval g depth sep)) k ⟨s, v, []⟩ l chain →
        (k + 1 : Int) ≤ max (s.source.size - s.position) 0 + 1 := by
  have hcalls : ∀ c, Causes g ⟨limit, p, .start (.ofString text)⟩ c →
      (c.eval g).ending ≠ .endless := by
    intro c hcauses
    refine EndFreeLists.ending_ne_endless fun q sep h => hends q sep ?_
    exact h.trans hcauses.occurs
  have hrun := settle_result?_of_ne_endless (hcalls _ .refl) (Source.ofString text).size
  refine ⟨?_, fun hnone => ?_, hcalls,
    fun depth q s => ⟨fun c => enters_many_iff, fun k l now h => ?_⟩,
    fun q sep hocc depth s v k l chain h => ?_⟩
  · obtain ⟨r, -, houtcome⟩ | ⟨-, houtcome⟩ := hrun
    · exact ⟨r.outcome, houtcome⟩
    · exact ⟨.err .shallowerNesting, houtcome⟩
  · obtain ⟨r, hreturn, -⟩ | ⟨-, houtcome⟩ := hrun
    · exact absurd hreturn (hnone r)
    · exact houtcome
  · have hle : k ≤ s.ahead := turns_manyRound_le h
    unfold State.ahead at hle
    omega
  · obtain ⟨hfree, hfree'⟩ := hends q sep hocc
    have hle : k ≤ (s.source.size - s.position).toNat := turns_sepByRound_le hfree hfree' h
    omega

/-- Recursion without end, behind a list and the end of the input. -/
theorem run_returns_endless_recursion :
    let g : Grammar := .rule
    let p : Parser :=
      .seqRight (.sepBy1 (.char 'a') (.char ',')) (.seqRight .endOfInput (.rule "r"))
    let s : State := ⟨3, .ofString "a,a"⟩
    EndFreeLists g p ∧ (eval g 9 p (.start s.source)).ending = .tooDeep ∧
      (runWithin 9 g p s.source).result? = some (.err .shallowerNesting) ∧
      (∃ K, Enters g ⟨2, .many .endOfInput, s⟩ K ⟨1, .endOfInput, ⟨4, s.source⟩⟩) ∧
      (1 + 1 : Int) ≤ max (s.source.size - s.position) 0 + 2 := by
  intro g p s
  have hchar : ∀ c, EndFree g (.char c) := fun c =>
    endFree_of_all (by simp [g]) (by simp [Parser.char])
  have hends : EndFreeLists g p := fun q sep h =>
    occurs_induction (P := fun r => ∀ q sep, r = .sepBy1 q sep → EndFree g q ∧ EndFree g sep)
      (by simp [g])
      (by simpa [p, Parser.seqRight, Parser.char] using And.intro (hchar 'a') (hchar ',')) h q sep rfl
  have hdeep : (eval g 9 p (.start s.source)).ending = .tooDeep := by decide +kernel
  have hnone : ∀ r, (eval g 9 p (.start s.source)).ending ≠ .returned r := by simp [hdeep]
  have hround : Behaviour.manyRound (eval g 1 .endOfInput) ⟨s, []⟩ =
      ⟨[], .returned (.again ⟨⟨4, s.source⟩, [.unit]⟩)⟩ := rfl
  have hturns : Turns (Behaviour.manyRound (eval g 1 .endOfInput)) 1 ⟨s, []⟩ []
      ⟨⟨4, s.source⟩, [.unit]⟩ := .next hround (.start _)
  obtain ⟨-, hrecursion, -, hrounds, -⟩ := run_returns g 9 p "a,a" hends
  obtain ⟨hcalls, hbound⟩ := hrounds 1 .endOfInput s
  exact ⟨hends, hdeep, hrecursion hnone, (hcalls _).2 ⟨_, _, _, hturns, rfl⟩, hbound 1 _ _ hturns⟩

end Descent
