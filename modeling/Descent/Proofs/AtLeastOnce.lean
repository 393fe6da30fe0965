import Descent.Proofs.AlikeCalls

/-!
# Repetition at least once

`many1 p` is one `p` and then `many p`. Where the first `p` fails there is nothing to repeat, and the failure
is reported at the start. Behind it the repetition is the rest of the one that `many p` is from the start, so
both come to the same end. They also fail together: a repetition that is stuck behind its first round is
stuck from the start, and the other way around (`Stuck.next`). That failure is one of a second step, hence
reported behind the first `p`, and `many1` fails although its first `p` does not.
-/

namespace Descent

open Descent.Parser

variable {g : Grammar} {p : Parser} {s t : State} {v : Value} {vs : List Value} {r : Reply}

/-- A repetition that is stuck is so behind its first round. If a guard fires in that round, the round is
followed by another one of its kind, from an alike state. -/
theorem Stuck.next (h : Stuck g p s) (hp : Replies g p s ⟨t, .ok v⟩) : Stuck g p t := by
  cases h with
  | here hp' hguard =>
    cases hp.unique hp'
    have ha : s.Alike t := hp.leads.alike hguard
    obtain ⟨⟨u, _⟩, hu, hsame, rfl⟩ := hp.exists_alike ha
    have hguard' : NoProgress t u :=
      (or_congr (hsame.position_eq_iff (.refl s t)) ha.beyond_iff).1 hguard
    exact .here hu hguard'
  | later hp' hrest =>
    cases hp.unique hp'
    exact hrest

theorem Repeats.next {u : State} (h : Repeats g p s vs u) (hp : Replies g p s ⟨t, .ok v⟩) :
    ∃ ws, vs = v :: ws ∧ Repeats g p t ws u := by
  cases h with
  | stop hfail => cases hp.unique hfail
  | more hp' hrest =>
    cases hp.unique hp'
    exact ⟨_, rfl, hrest⟩

/-- Repetition at least once fails at its start where `p` does, and with its reason. Where `p` succeeds it
has the list and the state of the repetition that may be empty if that one succeeds; and it fails if that one
does, for want of progress, but behind the first `p`. It has no other replies. -/
theorem many1_fails_with_item_or_many (g : Grammar) (p : Parser) (s : State) (r : Reply) :
    Replies g (many1 p) s r ↔
      (∃ t e, Replies g p s ⟨t, .err e⟩ ∧ r = ⟨s, .err e⟩) ∨
      ∃ t v, Replies g p s ⟨t, .ok v⟩ ∧
        ((∃ u vs, Replies g (.many p) s ⟨u, .ok vs⟩ ∧ r = ⟨u, .ok vs⟩) ∨
          ∃ u e, Replies g (.many p) s ⟨u, .err e⟩ ∧ r = ⟨t, .err e⟩ ∧
            e.describe = "many: parser succeeded without consuming input") := by
  unfold many1
  rw [replies_bind_iff, or_comm]
  refine or_congr_right (exists_congr fun t => exists_congr fun v => and_congr_right fun hp => ?_)
  rw [replies_map_iff]
  constructor
  · intro hr
    obtain ⟨u, w, hmany, rfl⟩ | ⟨u, e, hmany, rfl⟩ := hr
    all_goals obtain ⟨vs, u', hrest, heq⟩ | ⟨hstuck, u', heq⟩ := hmany.repeats_or_stuck
    all_goals cases heq
    · exact .inl ⟨u, .list (v :: vs), (Repeats.more hp hrest).replies_many, rfl⟩
    · obtain ⟨u', hfail⟩ := (Stuck.later hp hstuck).replies_many
      exact .inr ⟨u', .progress, hfail, rfl, rfl⟩
  · intro hr
    obtain ⟨u, w, hmany, rfl⟩ | ⟨u, e, hmany, rfl, -⟩ := hr
    all_goals obtain ⟨vs, u', hrest, heq⟩ | ⟨hstuck, u', heq⟩ := hmany.repeats_or_stuck
    all_goals cases heq
    · obtain ⟨ws, rfl, hws⟩ := hrest.next hp
      exact .inl ⟨u, .list ws, hws.replies_many, rfl⟩
    · obtain ⟨u', hfail⟩ := (hstuck.next hp).replies_many
      exact .inr ⟨u', .progress, hfail, rfl⟩

/-- An item that reads nothing is there, and yet repetition at least once fails. -/
theorem not_many1_fails_with_item :
    ¬ ∀ (g : Grammar) (p : Parser) (s : State),
      (∀ t e, Replies g (many1 p) s ⟨t, .err e⟩ ↔ t = s ∧ ∃ u, Replies g p s ⟨u, .err e⟩) ∧
        ∀ t v, Replies g p s ⟨t, .ok v⟩ →
          ∃ u vs, Replies g (.many p) s ⟨u, .ok vs⟩ ∧ Replies g (many1 p) s ⟨u, .ok vs⟩ := by
  intro hitem
  have hmany1 : Replies .rule (many1 (succeed (.int 1))) (.start #[]) ⟨.start #[], .err .progress⟩ :=
    ⟨4, by decide +kernel⟩
  obtain ⟨-, u, hfail⟩ := ((hitem .rule (succeed (.int 1)) (.start #[])).1 _ _).1 hmany1
  cases replies_succeed_iff.1 hfail

end Descent
