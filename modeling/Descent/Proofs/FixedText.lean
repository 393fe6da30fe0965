import Descent.Proofs.Choice

/-!
# Fixed texts

A text is read as far as the characters that follow agree with those wanted, that is, over the longest common
prefix of the two, and no further (`State.readText_eq`): the character that differs is not passed. Reading the
characters one by one, each followed by all that come behind it, does the same. The parser of a character does
pass the one that differs, but it is a first step, and its failure is reported where it began.
-/

namespace Descent

open Evaluation Descent.Parser

variable {u l m : List Char} {c : Char}

/-! ## Common prefixes -/

def commonPrefix : List Char → List Char → List Char
  | c :: l, d :: m => if c = d then c :: commonPrefix l m else []
  | _, _ => []

@[simp] theorem commonPrefix_nil_left (m : List Char) : commonPrefix [] m = [] := rfl

@[simp] theorem commonPrefix_nil_right (l : List Char) : commonPrefix l [] = [] := by
  cases l <;> rfl

theorem commonPrefix_cons_self (c : Char) (l m : List Char) :
    commonPrefix (c :: l) (c :: m) = c :: commonPrefix l m := if_pos rfl

theorem commonPrefix_cons_of_ne {d : Char} (h : c ≠ d) : commonPrefix (c :: l) (d :: m) = [] := if_neg h

/-- The longest common prefix has the common prefixes for prefixes, and no others. -/
theorem prefix_commonPrefix_iff : u <+: commonPrefix l m ↔ u <+: l ∧ u <+: m := by
  induction l generalizing u m with
  | nil =>
    rw [commonPrefix_nil_left]
    refine (and_iff_left_of_imp fun hnil => ?_).symm
    rw [List.prefix_nil.1 hnil]
    exact List.nil_prefix
  | cons c l ih =>
    cases m with
    | nil =>
      rw [commonPrefix_nil_right]
      refine (and_iff_right_of_imp fun hnil => ?_).symm
      rw [List.prefix_nil.1 hnil]
      exact List.nil_prefix
    | cons d m =>
      cases u with
      | nil => simp
      | cons x u =>
        by_cases hcd : c = d
        · rw [hcd, commonPrefix_cons_self]
          simp only [List.cons_prefix_cons, ih]
          exact and_and_left
        · rw [commonPrefix_cons_of_ne hcd]
          simp only [List.cons_prefix_cons, List.prefix_nil, reduceCtorEq, false_iff]
          rintro ⟨⟨rfl, -⟩, rfl, -⟩
          exact hcd rfl

/-! ## Where reading stops -/

/-- Reading stops behind the longest common prefix of what is wanted and what follows. It succeeds if this is
all that is wanted. -/
theorem State.readText_eq (v : Value) (wanted : List Char) (s : State) :
    let k := (commonPrefix wanted s.following).length
    s.readText v wanted = ⟨s.advance k, match wanted[k]? with
      | none => .ok v
      | some c => .err (match (s.advance k).peek? with
        | none => .aChar
        | some _ => .theChar c)⟩ := by
  induction wanted generalizing s with
  | nil => exact congrArg (Reply.mk · _) s.advance_zero.symm
  | cons c wanted ih =>
    have hpeek := s.head?_following
    unfold readText
    cases hahead : s.following with
    | nil =>
      rw [hahead] at hpeek
      simp [← hpeek]
    | cons d rest =>
      rw [hahead] at hpeek
      by_cases hd : d = c
      · have hrest := ih (s.advance 1)
        rw [following_advance hahead] at hrest
        have hadvance : s.advance ((commonPrefix wanted rest).length + 1 : Nat) =
            (s.advance 1).advance (commonPrefix wanted rest).length := by
          rw [advance_advance]
          congr 1
          omega
        rw [hd, commonPrefix_cons_self, List.length_cons, ← hpeek, hd]
        simp only [hadvance, List.head?_cons, List.getElem?_cons_succ, if_pos]
        exact hrest
      · rw [commonPrefix_cons_of_ne (Ne.symm hd)]
        simp [← hpeek, hd]

/-! ## Character by character -/

/-- The characters one after the other and then `p`, sequenced from the right. -/
def Parser.charsThen (cs : List Char) (p : Parser) : Parser :=
  cs.foldr (fun c q => (char c).seqRight q) p

/-- A level for each character, and two for the parser of the last one. -/
theorem eval_charsThen (g : Grammar) (n : Nat) (v : Value) (cs : List Char) (s : State) :
    eval g (n + cs.length + 2) (charsThen cs (succeed v)) s = pure (s.readText v cs) := by
  induction cs generalizing s with
  | nil => rfl
  | cons c cs ih =>
    have hchar := eval_char_eq g (n + cs.length) c s
    show eval g (n + cs.length + 2 + 1) ((char c).seqRight (charsThen cs (succeed v))) s = _
    unfold State.readText
    cases hpeek : s.peek? with
    | none =>
      rw [hpeek] at hchar
      exact eval_seqRight_of_err hchar
    | some d =>
      rw [hpeek] at hchar
      by_cases hd : d = c
      · simp only [if_pos hd] at hchar ⊢
        rw [eval_seqRight_of_ok hchar]
        exact ih (s.advance 1)
      · simp only [if_neg hd] at hchar ⊢
        exact eval_seqRight_of_err hchar

/-- A text is read over the longest common prefix of its characters and those that follow, and the reply
stands behind that prefix. It is the text if the prefix is all of it, and else the failure of the character
that is wanted next, or of any character if there is none. To read the characters one by one, sequenced from
the right, makes no difference. -/
theorem text_stops_behind_common_prefix (g : Grammar) (expected : String) (s : State) (n : Nat) :
    let wanted := expected.toList
    let matched := commonPrefix wanted s.following
    let stop := s.advance matched.length
    ∃ o, eval g (n + 1) (.text expected) s = pure ⟨stop, o⟩ ∧
      eval g (n + expected.length + 2) (charsThen wanted (succeed (.str expected))) s = pure ⟨stop, o⟩ ∧
      (∀ u, u <+: matched ↔ u <+: wanted ∧ u <+: s.following) ∧
      match wanted[matched.length]? with
      | none => matched = wanted ∧ o = .ok (.str expected)
      | some c => ∃ e, o = .err e ∧ e.describe = match stop.peek? with
        | none => "a char"
        | some _ => "the char `" ++ String.singleton c ++ "`" := by
  intro wanted matched stop
  have hread := s.readText_eq (.str expected) wanted
  have htext := (eval_text g n expected s).trans (congrArg pure hread)
  refine ⟨_, htext, ?_, fun u => prefix_commonPrefix_iff, ?_⟩
  · rw [← String.length_toList, eval_charsThen]
    exact congrArg pure hread
  · cases hnext : wanted[matched.length]? with
    | none =>
      have hlength := List.getElem?_eq_none_iff.1 hnext
      have hmatched : matched <+: wanted := (prefix_commonPrefix_iff.1 List.prefix_rfl).1
      exact ⟨hmatched.eq_of_length_le hlength, rfl⟩
    | some c =>
      refine ⟨_, rfl, ?_⟩
      show Expected.describe (match stop.peek? with | none => .aChar | some _ => .theChar c) = _
      cases stop.peek? with
      | none => rfl
      | some d => rfl

end Descent
