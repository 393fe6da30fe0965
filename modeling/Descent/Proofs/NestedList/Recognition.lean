import Descent.Proofs.Nesting
import Descent.Proofs.NestedList.Reading

/-!
# The recognition of nested lists

Eight levels of nesting are taken by each list inside a list. A text with few brackets open at any place
therefore keeps within the limit of a run, whether or not it is well formed, and `parse` accepts the
language of the grammar exactly, with the values it gives.
-/

namespace Descent.NestedList

open Descent.Parser Evaluation

variable {s t : State} {v : Value} {r : Reply} {w l rest : List Char} {n depth : Nat}

/-- From `s` on at most `n` brackets are open at once. -/
def OpensFrom (n : Nat) (s : State) : Prop := ∃ l, s.Before l ∧ square.OpensAtMost n l

theorem OpensFrom.value (h : OpensFrom n s) (hvalue : Replies grammar (rule "value") s ⟨t, .ok v⟩) :
    OpensFrom n t := by
  obtain ⟨l, hs, hopens⟩ := h
  obtain ⟨r, hr, hread⟩ := exists_value_reply hs
  cases hvalue.unique hr
  cases hread with
  | ok rest hv => exact ⟨rest, hs.past, hopens.behind hv.balanced⟩

theorem OpensFrom.comma (h : OpensFrom n s) (hcomma : Replies grammar comma s ⟨t, .ok v⟩) :
    OpensFrom n t := by
  obtain ⟨l, hs, hopens⟩ := h
  obtain ⟨k, rest, rfl, ht⟩ := before_of_replies_sign hs hcomma
  exact ⟨rest, ht, hopens.behind (balanced_comma_blanks k)⟩

theorem OpensFrom.bracket (h : OpensFrom n s)
    (hopen : Replies grammar (lexeme (char '[')) s ⟨t, .ok v⟩) : ∃ m < n, OpensFrom m t := by
  obtain ⟨l, hs, hopens⟩ := h
  obtain ⟨k, rest, rfl, ht⟩ := before_of_replies_sign hs hopen
  obtain ⟨m, rfl, hm⟩ := hopens.opened
  exact ⟨m, Nat.lt_succ_self m, rest, ht, hm.behind (balanced_blanks k)⟩

theorem OpensFrom.spaces (h : OpensFrom n s) (hspaces : Replies grammar spaces s ⟨t, .ok v⟩) :
    OpensFrom n t := by
  obtain ⟨l, hs, hopens⟩ := h
  obtain ⟨k, rest, rfl, hstop⟩ := exists_blanks l
  cases hspaces.unique (replies_spaces hs hstop)
  exact ⟨rest, hs.past, hopens.behind (balanced_blanks k)⟩

/-! ## Levels -/

theorem fits_sign (c : Char) : (lexeme (char c)).Fits 5 := by
  simp [lexeme, char, spaces, Parser.seqLeft]

theorem fits_number : number.Fits 7 := by
  simp [number, lexeme, spaces, satisfy, char, many1, Parser.map, Parser.seqLeft]

theorem eval_items_shallow (hdepth : 5 ≤ depth)
    (hvalue : ∀ s, OpensFrom n s → (eval grammar depth (rule "value") s).Shallow)
    (hs : OpensFrom n s) : (eval grammar (depth + 2) items s).Shallow := by
  have hloop : (eval grammar (depth + 1) (.sepBy1 (rule "value") comma) s).Shallow := by
    rw [eval_sepBy1]
    exact Behaviour.shallow_sepBy1 hvalue (fun s _ => eval_shallow grammar (fits_sign ',') hdepth s)
      (fun s t v hs hitem => hs.value ⟨depth, hitem⟩)
      (fun s t v hs hsep => hs.comma ⟨depth, hsep⟩) hs
  have hnone : (oneOf [succeed (.list [])]).Fits 2 := by simp
  rw [items, sepBy, oneOf_cons, eval_orElse]
  exact Behaviour.shallow_orElse hloop (eval_shallow grammar hnone (by omega) s)

/-- By induction on the number of brackets that may be opened; the parser of lists is eight levels above
that of the values in it. -/
theorem eval_value_shallow (hdepth : 8 * n + 16 ≤ depth) (hs : OpensFrom n s) :
    (eval grammar depth (rule "value") s).Shallow := by
  induction n using Nat.strongRecOn generalizing depth s with
  | ind n ih =>
    obtain ⟨d, rfl⟩ : ∃ d, depth = d + 8 := ⟨depth - 8, by omega⟩
    have hopening : (eval grammar (d + 3) ((lexeme (char '[')).seqRight items) s).Shallow := by
      rw [Parser.seqRight, eval_bind]
      apply Behaviour.shallow_bind (eval_shallow grammar (fits_sign '[') (by omega) s)
      intro t v hopen
      obtain ⟨m, hm, ht⟩ := hs.bracket ⟨d + 2, hopen⟩
      exact eval_items_shallow (by omega) (fun u hu => ih m hm (by omega) hu) ht
    have hlist : (eval grammar (d + 5) list s).Shallow := by
      rw [list, eval_trace]
      apply Behaviour.shallow_trace
      rw [Parser.seqLeft, eval_bind]
      apply Behaviour.shallow_bind hopening
      intro t v _
      have hclose : ((lexeme (char ']')).bind fun _ => succeed v).Fits 6 :=
        ⟨fits_sign ']', fun _ => trivial⟩
      exact eval_shallow grammar hclose (by omega) t
    have hnumber : (eval grammar (d + 6) number s).Shallow :=
      eval_shallow grammar fits_number (by omega) s
    have hnone : (oneOf []).Fits 1 := trivial
    rw [eval_rule]
    show (eval grammar (d + 7) (oneOf [number, list]) s).Shallow
    rw [oneOf_cons, oneOf_cons, eval_orElse, eval_orElse]
    exact Behaviour.shallow_orElse hnumber
      (Behaviour.shallow_orElse hlist (eval_shallow grammar hnone (by omega) s))

theorem eval_document_shallow (hdepth : 8 * n + 18 ≤ depth) (hs : OpensFrom n s) :
    (eval grammar depth document s).Shallow := by
  obtain ⟨d, rfl⟩ : ∃ d, depth = d + 2 := ⟨depth - 2, by omega⟩
  have hspaces : spaces.Fits 3 := by simp [spaces, char]
  have hright : (eval grammar (d + 1) (spaces.seqRight (rule "value")) s).Shallow := by
    rw [Parser.seqRight, eval_bind]
    apply Behaviour.shallow_bind (eval_shallow grammar hspaces (by omega) s)
    intro t v h
    exact eval_value_shallow (by omega) (hs.spaces ⟨d, h⟩)
  rw [document, Parser.seqLeft, eval_bind]
  apply Behaviour.shallow_bind hright
  intro t v _
  have hend : (endOfInput.bind fun _ => succeed v).Fits 2 := ⟨trivial, fun _ => trivial⟩
  exact eval_shallow grammar hend (by omega) t

/-! ## Runs -/

/-- With at most a thousand brackets open at once the run is the reply of the parser of documents. -/
theorem parse_result?_of_replies {text : String} (hopens : square.OpensAtMost 1000 text.toList)
    (hr : Replies grammar document (.start (.ofString text)) r) :
    (parse text).result? = some r.outcome := by
  have hstart : (State.start (.ofString text)).Before text.toList := State.before_start _
  have hshallow : (eval grammar nestingLimit document (.start (.ofString text))).Shallow :=
    eval_document_shallow (by decide) ⟨_, hstart, hopens⟩
  exact hr.run_result? hshallow

theorem exists_parse_outcome {text : String} (hopens : square.OpensAtMost 1000 text.toList) :
    ∃ o, (parse text).result? = some o ∧ ∀ v, o = .ok v ↔ IsDocument text.toList v := by
  obtain ⟨r, hr, hiff⟩ := exists_document_reply (State.before_start (.ofString text))
  exact ⟨r.outcome, parse_result?_of_replies hopens hr, hiff⟩

/-- With at most a thousand brackets open at once, a text is parsed with the value `v` exactly if it is a
document with that value, and refused exactly if it is no document. -/
theorem parse_recognizes (text : String) (hopens : square.OpensAtMost 1000 text.toList) :
    (∀ v, (parse text).result? = some (.ok v) ↔ IsDocument text.toList v) ∧
      ((∃ e, (parse text).result? = some (.err e)) ↔ ¬ ∃ v, IsDocument text.toList v) := by
  obtain ⟨o, ho, hiff⟩ := exists_parse_outcome hopens
  rw [ho]
  refine ⟨fun v => ?_, ?_⟩
  · rw [Option.some.injEq]
    exact hiff v
  · simp only [Option.some.injEq, ← hiff]
    cases o with
    | ok v => simp
    | err e => simp

/-- A text that is a document, and one that is none because a list ends in a comma. -/
theorem parse_recognizes_trailing_comma :
    square.OpensAtMost 1000 " [1 ,[02], []]".toList ∧ square.OpensAtMost 1000 "[1, 2,]".toList ∧
      IsDocument " [1 ,[02], []]".toList (.list [.int 1, .list [.int 2], .list []]) ∧
      ¬ ∃ v, IsDocument "[1, 2,]".toList v := by
  have hgood : square.OpensAtMost 1000 " [1 ,[02], []]".toList := Brackets.opensAtMost_of_count_le (by decide)
  have hbad : square.OpensAtMost 1000 "[1, 2,]".toList := Brackets.opensAtMost_of_count_le (by decide)
  refine ⟨hgood, hbad, ((parse_recognizes _ hgood).1 _).1 (by decide +kernel), ?_⟩
  exact (parse_recognizes _ hbad).2.1 ⟨.alternative, by decide +kernel⟩

end Descent.NestedList
