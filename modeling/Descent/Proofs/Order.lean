import Descent.Proofs.Calls

/-!
# The order of calls

The calls that a call makes follow each other: of any two, one is over before the other begins
(`Enters.ordered`). So of any two calls within one run, either one is over before the other begins, or one
is made by way of the other (`Reaches.ordered`). `Over g K c L` says so in terms of the log: what is logged
up to the end of the call `c`, which is made in the context `K`, is the first that is logged before a call
in the context `L`. For loops this comes from their rounds, which `During` tells apart by their number.
-/

namespace Descent

open Evaluation

variable {g : Grammar} {c c₁ c₂ : Call} {J K L : Context}

/-- The call `c`, made in the context `K`, is over when a call in the context `L` is made. -/
def Over (g : Grammar) (K : Context) (c : Call) (L : Context) : Prop :=
  K.log ++ (c.eval g).log <+: L.log

theorem Over.comp (h : Over g K c L) (J : Context) : Over g (J.comp K) c (J.comp L) := by
  unfold Over
  show J.log ++ K.log ++ (c.eval g).log <+: J.log ++ L.log
  rw [List.append_assoc]
  exact (List.prefix_append_right_inj _).2 h

theorem Over.later (h : Over g K c L) (J : Context) : Over g K c (L.comp J) :=
  h.trans (List.prefix_append _ _)

theorem prefix_bind_log {α β : Type} (x : Evaluation α) (f : α → Evaluation β) :
    x.log <+: (x >>= f).log := by
  rcases x with ⟨log, a | _ | _⟩
  · exact List.prefix_append _ _
  · exact List.prefix_refl _
  · exact List.prefix_refl _

theorem Reaches.prefix_log (h : Reaches g c K c₁) : K.log ++ (c₁.eval g).log <+: (c.eval g).log := by
  rw [h.eval_eq]
  show _ <+: K.log ++ (c₁.eval g >>= K.resume).log
  exact (List.prefix_append_right_inj _).2 (prefix_bind_log _ _)

theorem Over.reaches (h : Over g K c L) (hc : Reaches g c J c₁) : Over g (K.comp J) c₁ L := by
  refine List.IsPrefix.trans ?_ h
  show K.log ++ J.log ++ (c₁.eval g).log <+: K.log ++ (c.eval g).log
  rw [List.append_assoc]
  exact (List.prefix_append_right_inj _).2 hc.prefix_log

/-! ## Rounds -/

section
variable {α σ : Type} {round : σ → Evaluation (Round σ α)} {past : Log} {x : σ} {k m : Nat}

/-- The call `c` is made in the round of a loop that follows `k` others, with `past` logged before. -/
def During (g : Grammar) (past : Log) (round : σ → Evaluation (Round σ α)) (x : σ) (k : Nat)
    (K : Context) (c : Call) : Prop :=
  ∃ l y, Turns round k x l y ∧ past ++ l <+: K.log ∧
    K.log ++ (c.eval g).log <+: past ++ (l ++ (round y).log)

theorem During.over (h : During g past round x k K c₁) (h' : During g past round x m L c₂)
    (hlt : k < m) : Over g K c₁ L := by
  obtain ⟨l, y, hturns, -, hwithin⟩ := h
  obtain ⟨l', y', hturns', hbehind, -⟩ := h'
  have hround : past ++ (l ++ (round y).log) <+: past ++ l' :=
    (List.prefix_append_right_inj _).2 (hturns.prefix_log hturns' hlt)
  exact (hwithin.trans hround).trans hbehind

theorem During.ordered (h : During g past round x k K c₁) (h' : During g past round x m L c₂)
    (hne : k ≠ m) : Over g K c₁ L ∨ Over g L c₂ K := by
  rcases Nat.lt_or_gt_of_ne hne with hlt | hgt
  · exact .inl (h.over h' hlt)
  · exact .inr (h'.over h hgt)

theorem During.repeated {n k : Nat} {p : Parser} {now x : Behaviour.Progress} {l : Log}
    {r : Reply → Evaluation Reply} (h : Turns (Behaviour.manyRound (eval g n p)) k x l now) :
    During g [] (Behaviour.manyRound (eval g n p)) x k ⟨l, [], r⟩ ⟨n, p, now.current⟩ :=
  ⟨l, now, h, List.prefix_refl _, (List.prefix_append_right_inj _).2 (prefix_bind_log _ _)⟩

theorem During.separator {n k : Nat} {p sep : Parser} {y x : Behaviour.Chain} {l : Log}
    {r : Reply → Evaluation Reply}
    (h : Turns (Behaviour.sepByRound (eval g n p) (eval g n sep)) k x l y) :
    During g past (Behaviour.sepByRound (eval g n p) (eval g n sep)) x k ⟨past ++ l, [], r⟩
      ⟨n, sep, y.current⟩ := by
  refine ⟨l, y, h, List.prefix_refl _, ?_⟩
  rw [← List.append_assoc]
  exact (List.prefix_append_right_inj _).2 (prefix_bind_log _ _)

theorem During.item {n k : Nat} {p sep : Parser} {y x : Behaviour.Chain} {l l' : Log} {a : State}
    {w : Value} {r : Reply → Evaluation Reply}
    (h : Turns (Behaviour.sepByRound (eval g n p) (eval g n sep)) k x l y)
    (hsep : eval g n sep y.current = ⟨l', .returned ⟨a, .ok w⟩⟩) :
    During g past (Behaviour.sepByRound (eval g n p) (eval g n sep)) x k ⟨past ++ l ++ l', [], r⟩
      ⟨n, p, a⟩ := by
  refine ⟨l, y, h, List.prefix_append _ _, ?_⟩
  have hround : l' ++ (eval g n p a).log <+:
      (Behaviour.sepByRound (eval g n p) (eval g n sep) y).log := by
    unfold Behaviour.sepByRound
    rw [hsep, returned_bind]
    exact (List.prefix_append_right_inj _).2 (prefix_bind_log _ _)
  show past ++ l ++ l' ++ (eval g n p a).log <+: _
  rw [List.append_assoc, List.append_assoc]
  exact (List.prefix_append_right_inj _).2 ((List.prefix_append_right_inj _).2 hround)

end

/-! ## Calls -/

theorem over_of_eval_eq {l : Log} {e : Ending Reply} (h : c.eval g = ⟨l, e⟩)
    (hL : K.log ++ l <+: L.log) : Over g K c L := by
  unfold Over
  rw [h]
  exact hL

/-- Two calls that a call makes are one and the same, or one is over before the other begins. -/
theorem Enters.ordered (h : Enters g c K c₁) (h' : Enters g c L c₂) :
    (K = L ∧ c₁ = c₂) ∨ Over g K c₁ L ∨ Over g L c₂ K := by
  cases h with
  | bindFirst n p f s =>
    cases h' with
    | bindFirst => exact .inl ⟨rfl, rfl⟩
    | bindNext hp => exact .inr (.inl (over_of_eval_eq hp (List.prefix_refl _)))
  | bindNext hp =>
    cases h' with
    | bindFirst => exact .inr (.inr (over_of_eval_eq hp (List.prefix_refl _)))
    | bindNext hp' =>
      cases hp.symm.trans hp'
      exact .inl ⟨rfl, rfl⟩
  | orElseFirst n p q s =>
    cases h' with
    | orElseFirst => exact .inl ⟨rfl, rfl⟩
    | orElseSecond hp => exact .inr (.inl (over_of_eval_eq hp (List.prefix_refl _)))
  | orElseSecond hp hstill =>
    cases h' with
    | orElseFirst => exact .inr (.inr (over_of_eval_eq hp (List.prefix_refl _)))
    | orElseSecond hp' =>
      cases hp.symm.trans hp'
      exact .inl ⟨rfl, rfl⟩
  | attempt n p s =>
    cases h' with
    | attempt => exact .inl ⟨rfl, rfl⟩
  | label n e p s =>
    cases h' with
    | label => exact .inl ⟨rfl, rfl⟩
  | many hturns hrounds =>
    cases h' with
    | many hturns' hrounds' =>
      obtain ⟨rfl, rfl, rfl, rfl⟩ | hk := hturns.same_or_ne hturns' hrounds hrounds'
      · exact .inl ⟨rfl, rfl⟩
      · exact .inr ((During.repeated hturns).ordered (.repeated hturns') hk)
  | sepBy1First n p sep s =>
    cases h' with
    | sepBy1First => exact .inl ⟨rfl, rfl⟩
    | sepBy1Separator hp => exact .inr (.inl (over_of_eval_eq hp (List.prefix_append _ _)))
    | sepBy1Item hp =>
      refine .inr (.inl (over_of_eval_eq hp ?_))
      exact (List.prefix_append _ _).trans (List.prefix_append _ _)
  | sepBy1Separator hp hturns hrounds =>
    cases h' with
    | sepBy1First => exact .inr (.inr (over_of_eval_eq hp (List.prefix_append _ _)))
    | sepBy1Separator hp' hturns' hrounds' =>
      cases hp.symm.trans hp'
      obtain ⟨rfl, rfl, rfl, rfl⟩ | hk := hturns.same_or_ne hturns' hrounds hrounds'
      · exact .inl ⟨rfl, rfl⟩
      · exact .inr ((During.separator hturns).ordered (.separator hturns') hk)
    | sepBy1Item hp' hturns' hrounds' hsep' =>
      cases hp.symm.trans hp'
      obtain ⟨rfl, rfl, rfl, rfl⟩ | hk := hturns.same_or_ne hturns' hrounds hrounds'
      · exact .inr (.inl (over_of_eval_eq hsep' (List.prefix_refl _)))
      · exact .inr ((During.separator hturns).ordered (.item hturns' hsep') hk)
  | sepBy1Item hp hturns hrounds hsep =>
    cases h' with
    | sepBy1First =>
      refine .inr (.inr (over_of_eval_eq hp ?_))
      exact (List.prefix_append _ _).trans (List.prefix_append _ _)
    | sepBy1Separator hp' hturns' hrounds' =>
      cases hp.symm.trans hp'
      obtain ⟨rfl, rfl, rfl, rfl⟩ | hk := hturns.same_or_ne hturns' hrounds hrounds'
      · exact .inr (.inr (over_of_eval_eq hsep (List.prefix_refl _)))
      · exact .inr ((During.item hturns hsep).ordered (.separator hturns') hk)
    | sepBy1Item hp' hturns' hrounds' hsep' =>
      cases hp.symm.trans hp'
      obtain ⟨rfl, rfl, rfl, rfl⟩ | hk := hturns.same_or_ne hturns' hrounds hrounds'
      · cases hsep.symm.trans hsep'
        exact .inl ⟨rfl, rfl⟩
      · exact .inr ((During.item hturns hsep).ordered (.item hturns' hsep') hk)
  | trace n name p s =>
    cases h' with
    | trace => exact .inl ⟨rfl, rfl⟩
  | rule n name s =>
    cases h' with
    | rule => exact .inl ⟨rfl, rfl⟩

/-- Of two calls within one run one is made by way of the other, or one is over before the other begins. -/
theorem Reaches.ordered (h : Reaches g c K c₁) (h' : Reaches g c L c₂) :
    (∃ J, Reaches g c₁ J c₂ ∧ L = K.comp J) ∨ (∃ J, Reaches g c₂ J c₁ ∧ K = L.comp J) ∨
      Over g K c₁ L ∨ Over g L c₂ K := by
  induction h generalizing L with
  | here c => exact .inl ⟨L, h', (Context.hole_comp L).symm⟩
  | @through c d c₁ K₀ K₁ hfirst hrest ih =>
    cases h' with
    | here => exact .inr (.inl ⟨_, .through hfirst hrest, (Context.hole_comp _).symm⟩)
    | @through _ d' _ L₀ L₁ hfirst' hrest' =>
      obtain ⟨rfl, rfl⟩ | hover | hover := hfirst.ordered hfirst'
      · obtain ⟨J, hJ, rfl⟩ | ⟨J, hJ, rfl⟩ | hover | hover := ih hrest'
        · exact .inl ⟨J, hJ, (Context.comp_assoc _ _ _).symm⟩
        · exact .inr (.inl ⟨J, hJ, (Context.comp_assoc _ _ _).symm⟩)
        · exact .inr (.inr (.inl (hover.comp K₀)))
        · exact .inr (.inr (.inr (hover.comp K₀)))
      · exact .inr (.inr (.inl ((hover.reaches hrest).later L₁)))
      · exact .inr (.inr (.inr ((hover.reaches hrest').later K₁)))

end Descent
