import Descent.Proofs.NestedList.Grammar
import Descent.Proofs.Remaining

/-!
# The parsers of nested lists, piece by piece

What each parser of the grammar replies, from the characters ahead of it. A list reports a missing
bracket at its end where that bracket should stand; every other failure inside a list is reported at
its start, and a value then has no alternative left.
-/

namespace Descent.NestedList

open Descent.Parser Descent.Text

variable {p : Parser} {s t : State} {v : Value} {e : Expected} {c : Char} {k : Nat}
  {digits l rest : List Char}

abbrev NoSpace (l : List Char) : Prop := Stops (· == ' ') l

abbrev NoDigit (l : List Char) : Prop := Stops isDecimal l

theorem exists_blanks (l : List Char) : ∃ k rest, l = blanks k ++ rest ∧ NoSpace rest := by
  obtain ⟨w, rest, rfl, hw, hstop⟩ := exists_run (· == ' ') l
  have hblanks : w = blanks w.length :=
    List.eq_replicate_iff.2 ⟨rfl, fun c hc => by simpa using hw c hc⟩
  exact ⟨w.length, rest, by rw [← hblanks], hstop⟩

theorem dropWhile_blanks_append (k : Nat) (h : NoSpace l) :
    (blanks k ++ l).dropWhile (· == ' ') = l := by
  induction k with
  | zero =>
    cases l with
    | nil => rfl
    | cons c l =>
      have hc : c ≠ ' ' := by simpa using h c rfl
      exact List.dropWhile_cons_of_neg (by simpa using hc)
  | succ k ih => exact ih

theorem stops_or_exists_blanks (c : Char) (l : List Char) :
    Stops (· == c) l ∨ ∃ k rest, l = c :: blanks k ++ rest ∧ NoSpace rest := by
  cases l with
  | nil => exact .inl (stops_nil _)
  | cons d l =>
    by_cases hd : d = c
    · obtain ⟨k, rest, rfl, hstop⟩ := exists_blanks l
      exact .inr ⟨k, rest, by rw [hd, List.cons_append], hstop⟩
    · exact .inl (stops_cons_iff.2 (beq_false_of_ne hd))

theorem exists_numeral (hdigit : ¬ NoDigit l) : ∃ digits k rest, l = digits ++ (blanks k ++ rest) ∧
    Numeral.isNumeral digits ∧ NoDigit (blanks k ++ rest) ∧ NoSpace rest := by
  obtain ⟨digits, rest, rfl, hdigits, hstop⟩ := exists_run isDecimal l
  have hnil : digits ≠ [] := by
    rintro rfl
    exact hdigit hstop
  obtain ⟨k, rest, rfl, hspace⟩ := exists_blanks rest
  exact ⟨digits, k, rest, rfl, Numeral.isNumeral_iff.2 ⟨hnil, hdigits⟩, hstop, hspace⟩

/-! ## Tokens -/

theorem replies_spaces (h : s.Before (blanks k ++ rest)) (hstop : NoSpace rest) :
    Replies grammar spaces s ⟨s.past (blanks k), .ok (.list ((blanks k).map fun _ => .unit))⟩ :=
  (readsOne_char grammar ' ').replies_many h (by simp [blanks]) hstop

theorem replies_lexeme (hp : Replies grammar p s ⟨t, .ok v⟩) (h : t.Before (blanks k ++ rest))
    (hstop : NoSpace rest) : Replies grammar (lexeme p) s ⟨t.past (blanks k), .ok v⟩ :=
  hp.seqLeft (replies_spaces h hstop)

theorem replies_sign (h : s.Before (c :: blanks k ++ rest)) (hstop : NoSpace rest) :
    Replies grammar (lexeme (char c)) s ⟨s.past (c :: blanks k), .ok .unit⟩ := by
  have hchar : Replies grammar (char c) s ⟨s.advance 1, .ok .unit⟩ :=
    (readsOne_char grammar c).accepts h (by simp)
  rw [State.past_cons]
  exact replies_lexeme hchar h.advance hstop

theorem replies_sign_nil (h : s.Before []) :
    Replies grammar (lexeme (char c)) s ⟨s, .err .aChar⟩ := by
  have hchar : Replies grammar (char c) s ⟨s, .err .aChar⟩ := by
    rw [replies_char_iff, h.peek?]
    rfl
  exact hchar.bind_err

theorem replies_sign_other {d : Char} (h : s.Before (d :: rest)) (hd : d ≠ c) :
    Replies grammar (lexeme (char c)) s ⟨s, .err (.theChar c)⟩ := by
  have hchar : Replies grammar (char c) s ⟨s.advance 1, .err (.theChar c)⟩ := by
    rw [replies_char_iff, h.peek?]
    simp [hd]
  exact hchar.bind_err

theorem replies_sign_err (h : s.Before l) (hstop : Stops (· == c) l) :
    ∃ e, Replies grammar (lexeme (char c)) s ⟨s, .err e⟩ := by
  cases l with
  | nil => exact ⟨_, replies_sign_nil h⟩
  | cons d rest => exact ⟨_, replies_sign_other h (by simpa using hstop)⟩

theorem before_of_replies_sign (h : s.Before l)
    (hsign : Replies grammar (lexeme (char c)) s ⟨t, .ok v⟩) :
    ∃ k rest, l = c :: blanks k ++ rest ∧ t.Before rest := by
  rcases stops_or_exists_blanks c l with hstop | ⟨k, rest, rfl, hspace⟩
  · obtain ⟨e, hfail⟩ := replies_sign_err h hstop
    cases hsign.unique hfail
  · cases hsign.unique (replies_sign h hspace)
    exact ⟨k, rest, rfl, h.past⟩

theorem replies_number (hdigits : Numeral.isNumeral digits)
    (h : s.Before (digits ++ (blanks k ++ rest))) (hdigit : NoDigit (blanks k ++ rest))
    (hspace : NoSpace rest) : Replies grammar number s
      ⟨s.past (digits ++ blanks k), .ok (.int (Numeral.value digits))⟩ := by
  obtain ⟨c, w, rfl⟩ : ∃ c w, digits = c :: w := by
    cases digits with
    | nil => cases hdigits
    | cons c w => exact ⟨c, w, rfl⟩
  have hall : ∀ d ∈ c :: w, isDecimal d := (Numeral.isNumeral_iff.1 hdigits).2
  have hrun := (readsOne_satisfy grammar isDecimal).replies_many1 h hall hdigit
  have hlexeme := (replies_lexeme hrun h.past hspace).map Value.toInteger
  rw [Value.toInteger_ofChar hdigits] at hlexeme
  rw [State.past_append]
  exact hlexeme

theorem replies_number_err (h : s.Before l) (hdigit : NoDigit l) :
    ∃ e, Replies grammar number s ⟨s, .err e⟩ := by
  obtain ⟨e, hrun⟩ := (readsOne_satisfy grammar isDecimal).replies_many1_err h hdigit
  exact ⟨e, hrun.bind_err.bind_err⟩

/-! ## Lists -/

def items : Parser := sepBy (rule "value") comma

section
variable {j : Nat} (h : s.Before ('[' :: blanks j ++ l)) (hstop : NoSpace l)
include h hstop

theorem replies_list (hitems : Replies grammar items (s.past ('[' :: blanks j)) ⟨t, .ok v⟩)
    (hclose : t.Before (']' :: blanks k ++ rest)) (hrest : NoSpace rest) :
    Replies grammar list s ⟨t.past (']' :: blanks k), .ok v⟩ :=
  replies_trace_iff.2 (.seqLeft ((replies_sign h hstop).bind hitems) (replies_sign hclose hrest))

theorem replies_list_unclosed {u : State}
    (hitems : Replies grammar items (s.past ('[' :: blanks j)) ⟨t, .ok v⟩)
    (hclose : Replies grammar (lexeme (char ']')) t ⟨u, .err e⟩) :
    Replies grammar list s ⟨t, .err e⟩ :=
  replies_trace_iff.2 (.seqLeft_err ((replies_sign h hstop).bind hitems) hclose)

theorem replies_list_items_err
    (hitems : Replies grammar items (s.past ('[' :: blanks j)) ⟨t, .err e⟩) :
    Replies grammar list s ⟨s, .err e⟩ :=
  replies_trace_iff.2 (Replies.bind_err ((replies_sign h hstop).bind hitems))

end

theorem replies_list_err (h : s.Before l) (hopen : Stops (· == '[') l) :
    ∃ e, Replies grammar list s ⟨s, .err e⟩ := by
  obtain ⟨e, hfail⟩ := replies_sign_err h hopen
  exact ⟨e, replies_trace_iff.2 hfail.bind_err.bind_err⟩

/-! ## Values -/

theorem replies_value_number (hnumber : Replies grammar number s ⟨t, .ok v⟩) :
    Replies grammar (rule "value") s ⟨t, .ok v⟩ := by
  rw [replies_rule_iff]
  exact replies_orElse_iff.2 (.inl ⟨t, v, hnumber, rfl⟩)

theorem replies_value_of_noDigit {r : Reply} (h : s.Before l) (hdigit : NoDigit l)
    (hlist : Replies grammar (oneOf [list]) s r) : Replies grammar (rule "value") s r := by
  obtain ⟨e, hnumber⟩ := replies_number_err h hdigit
  rw [replies_rule_iff]
  exact replies_orElse_iff.2 (.inr ⟨s, e, hnumber, .inl ⟨rfl, hlist⟩⟩)

theorem replies_value_list (h : s.Before l) (hdigit : NoDigit l)
    (hlist : Replies grammar list s ⟨t, .ok v⟩) : Replies grammar (rule "value") s ⟨t, .ok v⟩ :=
  replies_value_of_noDigit h hdigit (replies_orElse_iff.2 (.inl ⟨t, v, hlist, rfl⟩))

/-- A list that fails without reading leaves nothing to try. -/
theorem replies_value_err (h : s.Before l) (hdigit : NoDigit l)
    (hlist : Replies grammar list s ⟨t, .err e⟩) : Replies grammar (rule "value") s
      (if t.position = s.position then ⟨s, .err .alternative⟩ else ⟨t, .err e⟩) := by
  refine replies_value_of_noDigit h hdigit (replies_orElse_iff.2 (.inr ⟨t, e, hlist, ?_⟩))
  by_cases hmoved : t.position = s.position
  · rw [if_pos hmoved]
    exact .inl ⟨hmoved, replies_fail_iff.2 rfl⟩
  · rw [if_neg hmoved]
    exact .inr ⟨hmoved, rfl⟩

end Descent.NestedList
