import Descent.Proofs.Nesting
import Descent.Proofs.Remaining

/-!
# The longest run of a class

Repetition of a character of some class takes all the characters of that class which come next, and leaves the
first one of another class: it has been read by the item that rejects it, but a failure of the item ends the
repetition where the item began. This holds from every state (`repeats_satisfy`). From outside the source no
character follows, so the run is empty there.
-/

namespace Descent

open Evaluation Descent.Parser

variable {pred : Char → Bool} {u l : List Char} {s t : State} {e : Expected} {g : Grammar}

/-- Of the prefixes that are all of one class there is a longest. -/
theorem prefix_takeWhile_iff : u <+: l.takeWhile pred ↔ u <+: l ∧ u.all pred := by
  constructor
  · intro h
    refine ⟨h.trans (List.takeWhile_prefix pred), List.all_eq_true.2 fun c hc => ?_⟩
    exact List.mem_takeWhile_imp (h.subset hc)
  · rintro ⟨⟨rest, rfl⟩, hall⟩
    rw [List.takeWhile_append_of_pos (List.all_eq_true.1 hall)]
    exact List.prefix_append u _

theorem State.following_of_outside (h : s.position < 0 ∨ s.source.size ≤ s.position) : s.following = [] := by
  unfold following
  rcases h with hbefore | hbehind
  · exact if_pos hbefore
  · rw [if_neg (by omega), List.drop_eq_nil_iff, Array.length_toList]
    omega

theorem describe_of_replies_satisfy (h : Replies g (satisfy pred) s ⟨t, .err e⟩) :
    e.describe = match s.peek? with
      | some _ => "satisfy"
      | none => "a char" := by
  have hreply := replies_satisfy_iff.1 h
  cases hpeek : s.peek? with
  | none =>
    simp only [hpeek] at hreply
    cases hreply
    rfl
  | some c =>
    simp only [hpeek] at hreply
    split at hreply <;> cases hreply
    rfl

theorem repeats_satisfy (g : Grammar) (pred : Char → Bool) (s : State) :
    Repeats g (satisfy pred) s ((s.following.takeWhile pred).map .ofChar)
      (s.past (s.following.takeWhile pred)) := by
  by_cases hinside : 0 ≤ s.position
  · have hbefore := State.before_following hinside
    rw [← List.takeWhile_append_dropWhile (p := pred) (l := s.following)] at hbefore
    exact (readsOne_satisfy g pred).repeats hbefore (fun _ => List.mem_takeWhile_imp) (stops_dropWhile pred _)
  · have hnone := State.following_of_outside (.inl (Int.not_le.1 hinside))
    have hpeek := s.head?_following
    rw [hnone] at hpeek
    have hfail : Replies g (satisfy pred) s ⟨s, .err .aChar⟩ := by
      rw [replies_satisfy_iff, ← hpeek]
      rfl
    rw [hnone, List.takeWhile_nil, State.past_nil]
    exact .stop hfail

/-- Whatever comes next, repetition of a class of characters succeeds, with the longest run of that class and
behind it; the run is empty outside the source. If at least one character is wanted it is the same, unless the
run is empty: the failure is then at the start, and tells a character of another class from none. Repetition
takes three levels for this, and two more for a first character. -/
theorem repetition_takes_longest_run (g : Grammar) (pred : Char → Bool) (s : State) (n : Nat) :
    let run := s.following.takeWhile pred
    let stop := s.advance run.length
    let taken : Outcome := .ok (.list (run.map .ofChar))
    (∀ u, u <+: run ↔ u <+: s.following ∧ u.all pred) ∧
      (if s.position < 0 ∨ s.source.size ≤ s.position then run = [] else s.Before s.following) ∧
      (eval g (n + 3) (.many (satisfy pred)) s).Gives ⟨stop, taken⟩ ∧
      ∃ o, (eval g (n + 5) (many1 (satisfy pred)) s).Gives ⟨stop, o⟩ ∧
        if run = [] then ∃ e, o = .err e ∧ e.describe = match s.peek? with
            | some _ => "satisfy"
            | none => "a char"
        else o = taken := by
  intro run stop taken
  have hrepeats : Repeats g (satisfy pred) s (run.map .ofChar) stop := repeats_satisfy g pred s
  have hmany : (Parser.many (satisfy pred)).Fits 3 := by simp [satisfy]
  have hmany1 : (many1 (satisfy pred)).Fits 5 := by simp [many1, Parser.map, satisfy]
  refine ⟨fun u => prefix_takeWhile_iff, ?_,
    hrepeats.replies_many.gives (eval_shallow g hmany (by omega) s), ?_⟩
  · by_cases houtside : s.position < 0 ∨ s.source.size ≤ s.position
    · rw [if_pos houtside]
      show s.following.takeWhile pred = []
      rw [State.following_of_outside houtside, List.takeWhile_nil]
    · rw [if_neg houtside]
      exact State.before_following (by omega)
  · obtain ⟨o, hreply, ho⟩ := hrepeats.exists_many1_reply
    refine ⟨o, hreply.gives (eval_shallow g hmany1 (by omega) s), ?_⟩
    by_cases hrun : run = []
    · rw [if_pos (List.map_eq_nil_iff.2 hrun)] at ho
      obtain ⟨t, e, hfail, rfl⟩ := ho
      rw [if_pos hrun]
      exact ⟨e, rfl, describe_of_replies_satisfy hfail⟩
    · rw [if_neg (mt List.map_eq_nil_iff.1 hrun)] at ho
      rw [if_neg hrun]
      exact ho

end Descent
