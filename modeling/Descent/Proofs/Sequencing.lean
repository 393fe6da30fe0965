import Descent.Proofs.Choice

/-!
# Sequencing

A sequence whose first step fails is reported where it started, and one whose second step fails is reported
where that step reports it. Of three steps in a row the middle one is a second step if they are grouped from
the right, and belongs to the first step if they are grouped from the left. So the two groupings have the
same outcomes always, and the same replies unless the middle step fails (`replies_bind_left_iff`,
`replies_bind_right_iff`). For a choice this makes a difference where the step before it has moved.
-/

namespace Descent

open Descent.Parser

/-- From `s` the first step `m` succeeds at `t`, and the step behind it, `f` of its value, replies `r`. -/
def RepliesBehind (g : Grammar) (m : Parser) (f : Value → Parser) (s t : State) (r : Reply) : Prop :=
  ∃ v, Replies g m s ⟨t, .ok v⟩ ∧ Replies g (f v) t r

/-- The step behind `m`, which has come to `t`, fails with `e`. -/
def FailsBehind (g : Grammar) (m : Parser) (f : Value → Parser) (s t : State) (e : Expected) : Prop :=
  ∃ u, RepliesBehind g m f s t ⟨u, .err e⟩

variable {g : Grammar} {m : Parser} {f h : Value → Parser} {s t : State} {r : Reply} {e : Expected}

theorem State.Leads.eq_of_position (hleads : s.Leads t) (hstill : t.position = s.position) : t = s := by
  have hsource := hleads.source
  cases s
  cases t
  cases hstill
  cases hsource
  rfl

theorem FailsBehind.leads (hfail : FailsBehind g m f s t e) : s.Leads t := by
  obtain ⟨_, _, hm, _⟩ := hfail
  exact hm.leads

theorem replies_bind_iff_behind : Replies g (.bind m f) s r ↔
    (∃ t, RepliesBehind g m f s t r) ∨ ∃ t e, Replies g m s ⟨t, .err e⟩ ∧ r = ⟨s, .err e⟩ := by
  rw [replies_bind_iff]
  unfold RepliesBehind
  rfl

/-! ## Three steps -/

theorem replies_bind_left_iff : Replies g (.bind (.bind m f) h) s r ↔
    (∃ t u w, RepliesBehind g m f s t ⟨u, .ok w⟩ ∧ Replies g (h w) u r) ∨
      (∃ t e, FailsBehind g m f s t e ∧ r = ⟨s, .err e⟩) ∨
      ∃ t e, Replies g m s ⟨t, .err e⟩ ∧ r = ⟨s, .err e⟩ := by
  rw [replies_bind_iff]
  simp only [replies_bind_iff_behind]
  constructor
  · intro hr
    obtain ⟨u, w, ⟨t, hf⟩ | ⟨_, _, _, hbad⟩, hh⟩ | ⟨u, e, ⟨t, hf⟩ | ⟨t, _, hm, heq⟩, hr⟩ := hr
    · exact .inl ⟨t, u, w, hf, hh⟩
    · cases hbad
    · exact .inr (.inl ⟨t, e, ⟨u, hf⟩, hr⟩)
    · cases heq
      exact .inr (.inr ⟨t, e, hm, hr⟩)
  · intro hr
    obtain ⟨t, u, w, hf, hh⟩ | ⟨t, e, ⟨u, hf⟩, hr⟩ | ⟨t, e, hm, hr⟩ := hr
    · exact .inl ⟨u, w, .inl ⟨t, hf⟩, hh⟩
    · exact .inr ⟨u, e, .inl ⟨t, hf⟩, hr⟩
    · exact .inr ⟨s, e, .inr ⟨t, e, hm, rfl⟩, hr⟩

theorem replies_bind_right_iff : Replies g (.bind m fun v => .bind (f v) h) s r ↔
    (∃ t u w, RepliesBehind g m f s t ⟨u, .ok w⟩ ∧ Replies g (h w) u r) ∨
      (∃ t e, FailsBehind g m f s t e ∧ r = ⟨t, .err e⟩) ∨
      ∃ t e, Replies g m s ⟨t, .err e⟩ ∧ r = ⟨s, .err e⟩ := by
  rw [replies_bind_iff]
  simp only [replies_bind_iff (f := h)]
  constructor
  · intro hr
    obtain ⟨t, v, hm, ⟨u, w, hf, hh⟩ | ⟨u, e, hf, hr⟩⟩ | hr := hr
    · exact .inl ⟨t, u, w, ⟨v, hm, hf⟩, hh⟩
    · exact .inr (.inl ⟨t, e, ⟨u, v, hm, hf⟩, hr⟩)
    · exact .inr (.inr hr)
  · intro hr
    obtain ⟨t, u, w, ⟨v, hm, hf⟩, hh⟩ | ⟨t, e, ⟨u, v, hm, hf⟩, hr⟩ | hr := hr
    · exact .inl ⟨t, v, hm, .inl ⟨u, w, hf, hh⟩⟩
    · exact .inl ⟨t, v, hm, .inr ⟨u, e, hf, hr⟩⟩
    · exact .inr hr

theorem outcome_bind_assoc (g : Grammar) (m : Parser) (f h : Value → Parser) (s : State) (o : Outcome) :
    (∃ t, Replies g (.bind (.bind m f) h) s ⟨t, o⟩) ↔
      ∃ t, Replies g (.bind m fun v => .bind (f v) h) s ⟨t, o⟩ := by
  simp only [replies_bind_left_iff, replies_bind_right_iff]
  constructor
  · intro ho
    obtain ⟨u, hall | ⟨t, e, hfail, hr⟩ | hm⟩ := ho
    · exact ⟨u, .inl hall⟩
    · cases hr
      exact ⟨t, .inr (.inl ⟨t, e, hfail, rfl⟩)⟩
    · exact ⟨u, .inr (.inr hm)⟩
  · intro ho
    obtain ⟨u, hall | ⟨t, e, hfail, hr⟩ | hm⟩ := ho
    · exact ⟨u, .inl hall⟩
    · cases hr
      exact ⟨s, .inr (.inl ⟨u, e, hfail, rfl⟩)⟩
    · exact ⟨u, .inr (.inr hm)⟩

/-- The groupings do not differ where the middle step does not fail, or fails where the first one started. -/
theorem sameReplies_bind_assoc (h : Value → Parser) (hstill : ∀ t e, FailsBehind g m f s t e → t = s) :
    SameReplies g (.bind (.bind m f) h) (.bind m fun v => .bind (f v) h) s := by
  intro r
  rw [replies_bind_left_iff, replies_bind_right_iff]
  refine or_congr_right (or_congr_left ?_)
  refine exists_congr fun t => exists_congr fun e => and_congr_right fun hfail => ?_
  rw [hstill t e hfail]

/-- Three steps in a row have the same outcome whichever way they are grouped, and the same state but in one
case: if the middle step fails, the failure is reported at the start when they are grouped from the left, and
behind the first step when they are grouped from the right. Before another alternative the groupings do not
differ where there is no such failure or the first step did not move, and if it moved, then in this: grouped
from the left the choice goes on, and grouped from the right it ends. -/
theorem bind_assoc_but_for_rewinding (g : Grammar) (m : Parser) (f h : Value → Parser) (s : State) :
    let left : Parser := .bind (.bind m f) h
    let right : Parser := .bind m fun v => .bind (f v) h
    (∀ o, (∃ t, Replies g left s ⟨t, o⟩) ↔ ∃ t, Replies g right s ⟨t, o⟩) ∧
      (∀ t e, FailsBehind g m f s t e →
        Replies g left s ⟨s, .err e⟩ ∧ Replies g right s ⟨t, .err e⟩) ∧
      ((∀ t e, ¬ FailsBehind g m f s t e) → SameReplies g left right s) ∧
      ((∀ t e, FailsBehind g m f s t e → t.position = s.position) →
        ∀ q, SameReplies g (.orElse left q) (.orElse right q) s) ∧
      ∀ t e, FailsBehind g m f s t e → t.position ≠ s.position →
        ∀ q, SameReplies g (.orElse left q) q s ∧ Replies g (.orElse right q) s ⟨t, .err e⟩ := by
  intro left right
  have hleft : ∀ t e, FailsBehind g m f s t e → Replies g left s ⟨s, .err e⟩ := fun t e hfail =>
    replies_bind_left_iff.2 (.inr (.inl ⟨t, e, hfail, rfl⟩))
  have hright : ∀ t e, FailsBehind g m f s t e → Replies g right s ⟨t, .err e⟩ := fun t e hfail =>
    replies_bind_right_iff.2 (.inr (.inl ⟨t, e, hfail, rfl⟩))
  refine ⟨outcome_bind_assoc g m f h s, fun t e hfail => ⟨hleft t e hfail, hright t e hfail⟩,
    fun hnone => ?_, fun hstill q => ?_, fun t e hfail hmoved q => ⟨?_, ?_⟩⟩
  · exact sameReplies_bind_assoc h fun t e hfail => absurd hfail (hnone t e)
  · have hstart : ∀ t e, FailsBehind g m f s t e → t = s := fun t e hfail =>
      hfail.leads.eq_of_position (hstill t e hfail)
    exact .orElse (sameReplies_bind_assoc h hstart) (.refl g q s)
  · exact sameReplies_orElse_of_declines ⟨_, hleft t e hfail, rfl, rfl⟩
  · exact replies_orElse_iff_declines.2 (.inl ⟨hright t e hfail, mt Reply.declines_err_iff.1 hmoved⟩)

/-- A character, and behind it another one that is not there. -/
theorem bind_assoc_but_for_rewinding_moved :
    let g : Grammar := .rule
    let s : State := .start #['a', 'b']
    let m : Parser := .char 'a'
    let f : Value → Parser := fun _ => .char 'c'
    let h : Value → Parser := fun _ => .anyChar
    let left : Parser := .bind (.bind m f) h
    let right : Parser := .bind m fun v => .bind (f v) h
    FailsBehind g m f s (s.advance 1) (.theChar 'c') ∧
      Replies g left s ⟨s, .err (.theChar 'c')⟩ ∧ Replies g right s ⟨s.advance 1, .err (.theChar 'c')⟩ ∧
      (s.advance 1).position ≠ s.position ∧
      SameReplies g (.orElse left .anyChar) .anyChar s ∧
      Replies g (.orElse right .anyChar) s ⟨s.advance 1, .err (.theChar 'c')⟩ ∧
      (∀ t e, ¬ FailsBehind g m h s t e) ∧ SameReplies g (.bind (.bind m h) f)
        (.bind m fun v => .bind (h v) f) s ∧
      (∀ t e, FailsBehind g m h s t e → t.position = s.position) ∧
      SameReplies g (.orElse (.bind (.bind m h) f) .anyChar)
        (.orElse (.bind m fun v => .bind (h v) f) .anyChar) s := by
  intro g s m f h left right
  have hfirst : Replies g m s ⟨s.advance 1, .ok .unit⟩ := ⟨2, by decide +kernel⟩
  have hfail : FailsBehind g m f s (s.advance 1) (.theChar 'c') :=
    ⟨s.advance 2, .unit, hfirst, 2, by decide +kernel⟩
  have hmoved : (s.advance 1).position ≠ s.position := by decide
  have hnone : ∀ t e, ¬ FailsBehind g m h s t e := by
    intro t e ⟨u, v, hm, hread⟩
    cases hfirst.unique hm
    cases replies_anyChar_iff.1 hread
  have hstill : ∀ t e, FailsBehind g m h s t e → t.position = s.position := fun t e hbad =>
    absurd hbad (hnone t e)
  obtain ⟨-, hreports, -, -, hchoice⟩ := bind_assoc_but_for_rewinding g m f h s
  obtain ⟨-, -, hsame, hbefore, -⟩ := bind_assoc_but_for_rewinding g m h f s
  obtain ⟨hleft, hright⟩ := hreports _ _ hfail
  obtain ⟨hgoes, hends⟩ := hchoice _ _ hfail hmoved .anyChar
  exact ⟨hfail, hleft, hright, hmoved, hgoes, hends, hnone, hsame hnone, hstill,
    hbefore hstill .anyChar⟩

end Descent
