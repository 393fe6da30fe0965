import Descent.Proofs.Mapping

/-!
# A recursive counter

The rule reads a letter and itself again, and adds one; or it reads the end of the text, which counts as none.
So it counts the letters of a text that has no others, and it refuses every other text, always for the same
reason (`run_counts`).

The refusal comes from the innermost call, where both alternatives fail at their start. Around it the first
alternative has read its letter and what follows is mapped, so the failure is reported behind that letter, and
the choice does not go on (`eval_count_of_letter`). Hence the reason of the innermost call is the one of them
all.
-/

namespace Descent.Counting

open Descent.Parser

def count : Parser :=
  oneOf [(char 'a').seqRight ((rule "count").map Value.increment), endOfInput.seqRight (succeed (.int 0))]

def grammar : Grammar := .ofList [("count", count)]

variable {s t : State} {r : Reply} {l rest : List Char} {n k : Nat}

/-! ## One letter -/

/-- What the rule makes of the letter at `s`, from its reply behind that letter, is no reply after which a choice
goes on. -/
theorem not_declines_mapped (f : Value → Value) (r : Reply) :
    ¬ ((r.rewound (s.advance 1)).map f).Declines s := by
  obtain ⟨t, v | e⟩ := r
  · exact Reply.not_declines_ok s t (f v)
  · intro hdeclines
    have hstill : s.position + 1 = s.position := Reply.declines_err_iff.1 hdeclines
    omega

theorem eval_count_of_letter (h : s.Before ('a' :: l))
    (hrest : eval grammar (n + 1) (rule "count") (s.advance 1) = pure r) :
    eval grammar (n + 5) (rule "count") s = pure ((r.rewound (s.advance 1)).map Value.increment) := by
  have hletter : eval grammar (n + 2) (char 'a') s = pure ⟨s.advance 1, .ok .unit⟩ := by
    rw [eval_char grammar n h 'a', if_pos rfl]
  have hmapped : eval grammar (n + 2) ((rule "count").map Value.increment) (s.advance 1) =
      pure ((r.rewound (s.advance 1)).map Value.increment) := by
    rw [eval_map, hrest, map_pure]
  have hfirst : eval grammar (n + 3) ((char 'a').seqRight ((rule "count").map Value.increment)) s =
      pure ((r.rewound (s.advance 1)).map Value.increment) := by
    rw [eval_seqRight_of_ok hletter, hmapped]
  rw [eval_rule]
  exact eval_orElse_of_returned hfirst (not_declines_mapped Value.increment r)

/-! ## No letter -/

theorem exists_eval_letter_err (h : s.Before l) (hstop : Stops (· == 'a') l) (n : Nat) : ∃ e,
    eval grammar (n + 3) ((char 'a').seqRight ((rule "count").map Value.increment)) s =
      pure ⟨s, .err e⟩ := by
  cases l with
  | nil =>
    have hchar := eval_char_eq grammar n 'a' s
    rw [h.peek?] at hchar
    exact ⟨.aChar, eval_seqRight_of_err hchar⟩
  | cons d l =>
    have hd : d ≠ 'a' := by simpa using hstop
    have hchar := eval_char grammar n h 'a'
    rw [if_neg hd] at hchar
    exact ⟨.theChar 'a', eval_seqRight_of_err hchar⟩

theorem eval_end (h : s.Before l) (n : Nat) :
    eval grammar (n + 3) (oneOf [endOfInput.seqRight (succeed (.int 0))]) s =
      pure (if l = [] then ⟨s.advance 1, .ok (.int 0)⟩ else ⟨s, .err .alternative⟩) := by
  by_cases hl : l = []
  · have hend : eval grammar (n + 1) endOfInput s = pure ⟨s.advance 1, .ok .unit⟩ := by
      rw [eval_endOfInput, State.readEnd, if_pos (h.atEnd_iff.2 hl)]
    have hcount : eval grammar (n + 2) (endOfInput.seqRight (succeed (.int 0))) s =
        pure ⟨s.advance 1, .ok (.int 0)⟩ := by
      rw [eval_seqRight_of_ok hend, eval_succeed]
    rw [if_pos hl]
    exact eval_orElse_of_returned hcount (Reply.not_declines_ok s _ _)
  · have hend : eval grammar (n + 1) endOfInput s = pure ⟨s, .err .endOfInput⟩ := by
      rw [eval_endOfInput, State.readEnd, if_neg (mt h.atEnd_iff.1 hl)]
    have hcount : eval grammar (n + 2) (endOfInput.seqRight (succeed (.int 0))) s =
        pure ⟨s, .err .endOfInput⟩ := eval_seqRight_of_err hend
    rw [if_neg hl, oneOf_cons, eval_orElse_of_declines hcount (Reply.declines_start s .endOfInput),
      oneOf_nil, eval_fail, Evaluation.after_nil]

theorem eval_count_of_stops (h : s.Before l) (hstop : Stops (· == 'a') l) (n : Nat) :
    eval grammar (n + 5) (rule "count") s =
      pure (if l = [] then ⟨s.advance 1, .ok (.int 0)⟩ else ⟨s, .err .alternative⟩) := by
  obtain ⟨e, hletter⟩ := exists_eval_letter_err h hstop n
  rw [eval_rule]
  show eval grammar (n + 3 + 1) count s = _
  rw [count, oneOf_cons, eval_orElse_of_declines hletter (Reply.declines_start s e), Evaluation.after_nil,
    eval_end h n]

/-! ## Many letters -/

/-- By induction on the number of letters, each of which takes four levels. -/
theorem exists_eval_count (h : s.Before (List.replicate k 'a' ++ rest)) (hstop : Stops (· == 'a') rest)
    (n : Nat) : ∃ t, eval grammar (n + 4 * k + 5) (rule "count") s =
      pure ⟨t, if rest = [] then .ok (.int k) else .err .alternative⟩ := by
  induction k generalizing s with
  | zero =>
    have hnone := eval_count_of_stops h hstop n
    by_cases hrest : rest = []
    · exact ⟨s.advance 1, by simpa [hrest] using hnone⟩
    · exact ⟨s, by simpa [hrest] using hnone⟩
  | succ k ih =>
    obtain ⟨t, hbehind⟩ := ih h.advance
    have hletter := eval_count_of_letter h hbehind
    rw [show n + 4 * (k + 1) + 5 = n + 4 * k + 4 + 5 by omega, hletter]
    by_cases hrest : rest = []
    · exact ⟨t, by simp [hrest, Reply.rewound, Reply.map, Value.increment]⟩
    · exact ⟨s.advance 1, by simp [hrest, Reply.rewound, Reply.map]⟩

/-! ## Runs -/

theorem exists_letters (text : List Char) : ∃ rest,
    text = List.replicate (text.takeWhile (· == 'a')).length 'a' ++ rest ∧ Stops (· == 'a') rest := by
  have hletters : text.takeWhile (· == 'a') = List.replicate (text.takeWhile (· == 'a')).length 'a' :=
    List.eq_replicate_iff.2 ⟨rfl, fun c hc => by simpa using List.mem_takeWhile_imp hc⟩
  refine ⟨text.dropWhile (· == 'a'), ?_, stops_dropWhile _ _⟩
  rw [← hletters, List.takeWhile_append_dropWhile]

theorem letters_append_eq_iff (hstop : Stops (· == 'a') rest) :
    List.replicate k 'a' ++ rest = List.replicate n 'a' ↔ rest = [] ∧ n = k := by
  constructor
  · intro heq
    have hrest : rest = [] := by
      cases rest with
      | nil => rfl
      | cons d rest =>
        have hd : d ∈ List.replicate n 'a' := heq ▸ List.mem_append_right _ List.mem_cons_self
        rw [(List.mem_replicate.1 hd).2] at hstop
        cases stops_cons_iff.1 hstop
    have hlength := congrArg List.length heq
    rw [hrest, List.append_nil, List.length_replicate, List.length_replicate] at hlength
    exact ⟨hrest, hlength.symm⟩
  · rintro ⟨rfl, rfl⟩
    exact List.append_nil _

/-- A text that begins with at most a thousand letters is counted exactly if there is nothing else in it, and
refused exactly if there is, for the same reason whatever it is. -/
theorem run_counts (text : String) (hletters : (text.toList.takeWhile (· == 'a')).length ≤ 1000) :
    (∀ v, (run grammar (rule "count") text).result? = some (.ok v) ↔
        ∃ n : Nat, text.toList = List.replicate n 'a' ∧ v = .int n) ∧
      ((∃ e : Expected, e.describe = "no match" ∧
          (run grammar (rule "count") text).result? = some (.err e)) ↔
        ¬ ∃ n, text.toList = List.replicate n 'a') := by
  obtain ⟨rest, htext, hstop⟩ := exists_letters text.toList
  generalize (text.toList.takeWhile (· == 'a')).length = k at hletters htext
  have hstart : (State.start (.ofString text)).Before (List.replicate k 'a' ++ rest) :=
    htext ▸ State.before_start _
  obtain ⟨t, heval⟩ := exists_eval_count hstart hstop (nestingLimit - (4 * k + 5))
  have hlevels : nestingLimit - (4 * k + 5) + 4 * k + 5 = nestingLimit := by
    unfold nestingLimit
    omega
  rw [hlevels] at heval
  have hresult : (run grammar (rule "count") text).result? =
      some (if rest = [] then .ok (.int k) else .err .alternative) := by
    unfold run runWithin
    rw [heval]
    rfl
  rw [hresult]
  simp only [htext, letters_append_eq_iff hstop]
  by_cases hrest : rest = []
  · simp [hrest, eq_comm]
  · simp [hrest, Expected.describe]

/-- Three letters, and two of them before another one. -/
theorem run_counts_other_letter :
    ("aaa".toList.takeWhile (· == 'a')).length ≤ 1000 ∧ ("aab".toList.takeWhile (· == 'a')).length ≤ 1000 ∧
      (run grammar (rule "count") "aaa").result? = some (.ok (.int 3)) ∧
      ∃ e : Expected, e.describe = "no match" ∧
        (run grammar (rule "count") "aab").result? = some (.err e) := by
  have hall : ("aaa".toList.takeWhile (· == 'a')).length ≤ 1000 := by decide +kernel
  have hsome : ("aab".toList.takeWhile (· == 'a')).length ≤ 1000 := by decide +kernel
  have hother : ¬ ∃ n, "aab".toList = List.replicate n 'a' := by
    intro ⟨n, hn⟩
    have hmem : 'b' ∈ List.replicate n 'a' := hn ▸ by decide
    exact absurd (List.mem_replicate.1 hmem).2 (by decide)
  exact ⟨hall, hsome, ((run_counts "aaa" hall).1 _).2 ⟨3, by decide +kernel, rfl⟩,
    (run_counts "aab" hsome).2.2 hother⟩

end Descent.Counting
