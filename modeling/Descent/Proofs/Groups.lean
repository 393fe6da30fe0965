import Descent.Proofs.Brackets
import Descent.Proofs.Nesting
import Descent.Proofs.Remaining
import Descent.Value.Operations

/-!
# Nested groups

A group is a pair of parentheses around any number of groups, and its value is how deep it is nested. The
parser of groups computes the depth of every group, and of nothing else (`run_computes_depth`).

Repetition recovers from every failure of a group inside, however much of it was read, and goes back to where
that group began. The recovery lets nothing through: the group around it has to be closed just there, and what
stands there is the opening parenthesis of the malformed one.
-/

namespace Descent.Groups

open Descent.Parser

def group : Parser :=
  (((char '(').seqRight (many (rule "nested"))).seqLeft (char ')')).map Value.depth

def grammar : Grammar := .ofList [("nested", group)]

def document : Parser := group.seqLeft endOfInput

def parentheses : Brackets := ⟨'(', ')', by decide⟩

/-- The characters are those of a group: parentheses around groups. -/
inductive IsGroup : List Char → Prop
  | mk {ws : List (List Char)} : (∀ w ∈ ws, IsGroup w) → IsGroup ('(' :: ws.flatten ++ [')'])

variable {s t : State} {v : Value} {r : Reply} {w l rest : List Char} {ws : List (List Char)}
  {n depth : Nat}

theorem IsGroup.balanced (h : IsGroup w) : parentheses.Balanced w := by
  induction h with
  | mk _ ih => exact (Brackets.balanced_flatten ih).enclosed

theorem IsGroup.ne_nil (h : IsGroup w) : w ≠ [] := by
  cases h
  exact List.cons_ne_nil _ _

def depths (ws : List (List Char)) : List Value := (ws.map parentheses.depth).map fun n : Nat => .int n

theorem depth_depths (hws : ∀ w ∈ ws, IsGroup w) :
    Value.depth (.list (depths ws)) = .int (parentheses.depth ('(' :: ws.flatten ++ [')'])) := by
  have hbalanced : ∀ w ∈ ws, parentheses.Balanced w := fun w hw => (hws w hw).balanced
  have henclosed : parentheses.depth ('(' :: ws.flatten ++ [')']) = parentheses.depth ws.flatten + 1 :=
    Brackets.depth_enclosed (Brackets.balanced_flatten hbalanced)
  rw [depths, Value.depth_int, henclosed, Brackets.depth_flatten hbalanced, Nat.add_comm]

/-! ## One group -/

theorem past_group (s : State) (w : List Char) :
    s.past ('(' :: w ++ [')']) = ((s.advance 1).past w).advance 1 := by
  rw [State.past_append, State.past_cons, State.past_cons, State.past_nil]

theorem replies_rule_group_iff : Replies grammar (rule "nested") s r ↔ Replies grammar group s r :=
  replies_rule_iff

theorem replies_group_err (h : s.Before l) (hstop : Stops (· == '(') l) :
    ∃ t e, Replies grammar group s ⟨t, .err e⟩ := by
  obtain ⟨t, e, hopen⟩ := (readsOne_char grammar '(').rejects h hstop
  exact ⟨_, e, hopen.bind_err.bind_err.bind_err⟩

theorem replies_group (h : s.Before ('(' :: l))
    (hrepeats : Repeats grammar (rule "nested") (s.advance 1) (depths ws) t) (hws : ∀ w ∈ ws, IsGroup w)
    (hclose : t.Before (')' :: rest)) : Replies grammar group s
      ⟨t.advance 1, .ok (.int (parentheses.depth ('(' :: ws.flatten ++ [')'])))⟩ := by
  have hopen := (readsOne_char grammar '(').accepts h (beq_self_eq_true '(')
  have hinside : Replies grammar ((char '(').seqRight (many (rule "nested"))) s
      ⟨t, .ok (.list (depths ws))⟩ := hopen.bind hrepeats.replies_many
  have hgroup := hinside.seqLeft ((readsOne_char grammar ')').accepts hclose (beq_self_eq_true ')'))
  rw [← depth_depths hws]
  exact hgroup.map Value.depth

theorem replies_group_unclosed {vs : List Value} (h : s.Before ('(' :: l))
    (hrepeats : Repeats grammar (rule "nested") (s.advance 1) vs t)
    (hclose : t.Before rest) (hstop : Stops (· == ')') rest) :
    ∃ u e, Replies grammar group s ⟨u, .err e⟩ := by
  have hopen := (readsOne_char grammar '(').accepts h (beq_self_eq_true '(')
  have hinside : Replies grammar ((char '(').seqRight (many (rule "nested"))) s ⟨t, .ok (.list vs)⟩ :=
    hopen.bind hrepeats.replies_many
  obtain ⟨u, e, hfail⟩ := (readsOne_char grammar ')').rejects hclose hstop
  exact ⟨_, e, (hinside.seqLeft_err hfail).bind_err⟩

/-! ## What is read is a group -/

/-- From `s`, before `l`, a group was read or there was a failure. -/
inductive ReadsGroup (s : State) : List Char → Reply → Prop
  | ok {w : List Char} (rest : List Char) : IsGroup w →
      ReadsGroup s (w ++ rest) ⟨s.past w, .ok (.int (parentheses.depth w))⟩
  | err (l : List Char) (t : State) (e : Expected) : ReadsGroup s l ⟨t, .err e⟩

/-- Before fewer than `n` characters the parser of groups returns, and reads groups only. -/
def ReadsBelow (n : Nat) : Prop :=
  ∀ s l, l.length < n → s.Before l → ∃ r, Replies grammar group s r ∧ ReadsGroup s l r

/-- Repetition takes some groups, up to where there is no further one. By induction on the number of
characters ahead. -/
theorem ReadsBelow.exists_repeats (hn : ReadsBelow n) (hl : l.length < n) (h : s.Before l) :
    ∃ ws rest, l = ws.flatten ++ rest ∧ (∀ w ∈ ws, IsGroup w) ∧
      Repeats grammar (rule "nested") s (depths ws) (s.past ws.flatten) := by
  induction hlen : l.length using Nat.strongRecOn generalizing s l with
  | ind m ih =>
    obtain ⟨r, hr, hread⟩ := hn s l hl h
    rw [← replies_rule_group_iff] at hr
    cases hread with
    | err l t e =>
      refine ⟨[], l, rfl, nofun, ?_⟩
      rw [List.flatten_nil, State.past_nil]
      exact .stop hr
    | @ok w rest hw =>
      have hpos : 0 < w.length := List.length_pos_iff.2 hw.ne_nil
      rw [List.length_append] at hlen hl
      obtain ⟨ws, rest, rfl, hws, hrepeats⟩ := ih rest.length (by omega) (by omega) h.past rfl
      refine ⟨w :: ws, rest, ?_, List.forall_mem_cons.2 ⟨hw, hws⟩, ?_⟩
      · rw [List.flatten_cons, List.append_assoc]
      · rw [List.flatten_cons, State.past_append]
        exact .more hr hrepeats

theorem readsBelow (n : Nat) : ReadsBelow n := by
  induction n with
  | zero =>
    intro s l hl
    exact absurd hl (Nat.not_lt_zero _)
  | succ n ih =>
    intro s l hl h
    by_cases hopen : Stops (· == '(') l
    · obtain ⟨t, e, hfail⟩ := replies_group_err h hopen
      exact ⟨_, hfail, .err l t e⟩
    · obtain ⟨l, rfl⟩ := exists_cons_of_not_stops hopen
      rw [List.length_cons] at hl
      obtain ⟨ws, rest, rfl, hws, hrepeats⟩ := ih.exists_repeats (by omega) h.advance
      by_cases hclose : Stops (· == ')') rest
      · obtain ⟨t, e, hfail⟩ := replies_group_unclosed h hrepeats h.advance.past hclose
        exact ⟨_, hfail, .err _ t e⟩
      · obtain ⟨rest, rfl⟩ := exists_cons_of_not_stops hclose
        have hread : ReadsGroup s _ _ := .ok rest (.mk hws)
        rw [past_group, List.append_assoc, List.cons_append] at hread
        exact ⟨_, replies_group h hrepeats hws h.advance.past, hread⟩

theorem exists_group_reply (h : s.Before l) : ∃ r, Replies grammar group s r ∧ ReadsGroup s l r :=
  readsBelow (l.length + 1) s l (Nat.lt_succ_self _) h

/-! ## Groups are read -/

theorem repeats_groups {e : Expected} (hws : ∀ w ∈ ws, ∀ {s rest}, s.Before (w ++ rest) →
      Replies grammar group s ⟨s.past w, .ok (.int (parentheses.depth w))⟩)
    (h : s.Before (ws.flatten ++ rest)) (hlast : Replies grammar group (s.past ws.flatten) ⟨t, .err e⟩) :
    Repeats grammar (rule "nested") s (depths ws) (s.past ws.flatten) := by
  induction ws generalizing s with
  | nil =>
    rw [List.flatten_nil, State.past_nil] at hlast ⊢
    exact .stop (replies_rule_group_iff.2 hlast)
  | cons w ws ih =>
    obtain ⟨hw, hws⟩ := List.forall_mem_cons.1 hws
    rw [List.flatten_cons, List.append_assoc] at h
    rw [List.flatten_cons, State.past_append] at hlast ⊢
    exact .more (replies_rule_group_iff.2 (hw h)) (ih hws h.past hlast)

/-- A group is read whatever follows it: it ends at its closing parenthesis. -/
theorem IsGroup.replies (hw : IsGroup w) (h : s.Before (w ++ rest)) :
    Replies grammar group s ⟨s.past w, .ok (.int (parentheses.depth w))⟩ := by
  induction hw generalizing s rest with
  | @mk ws hws ih =>
    rw [List.append_assoc, List.cons_append] at h
    have hclose := h.advance.past
    obtain ⟨t, e, hlast⟩ := replies_group_err hclose (stops_cons_iff.2 rfl)
    rw [past_group]
    exact replies_group h (repeats_groups ih h.advance hlast) hws hclose

/-! ## Levels -/

/-- From `s` on at most `n` parentheses are open at once. -/
def OpensFrom (n : Nat) (s : State) : Prop := ∃ l, s.Before l ∧ parentheses.OpensAtMost n l

theorem OpensFrom.group (h : OpensFrom n s) (hgroup : Replies grammar (rule "nested") s ⟨t, .ok v⟩) :
    OpensFrom n t := by
  obtain ⟨l, hs, hopens⟩ := h
  obtain ⟨r, hr, hread⟩ := exists_group_reply hs
  cases (replies_rule_group_iff.1 hgroup).unique hr
  cases hread with
  | ok rest hw => exact ⟨rest, hs.past, hopens.behind hw.balanced⟩

theorem OpensFrom.opened (h : OpensFrom n s) (hopen : Replies grammar (char '(') s ⟨t, .ok v⟩) :
    ∃ m < n, OpensFrom m t := by
  obtain ⟨l, hs, hopens⟩ := h
  by_cases hstop : Stops (· == '(') l
  · obtain ⟨u, e, hfail⟩ := (readsOne_char grammar '(').rejects hs hstop
    cases hopen.unique hfail
  · obtain ⟨l, rfl⟩ := exists_cons_of_not_stops hstop
    cases hopen.unique ((readsOne_char grammar '(').accepts hs (beq_self_eq_true '('))
    obtain ⟨m, rfl, hm⟩ := Brackets.OpensAtMost.opened hopens
    exact ⟨m, Nat.lt_succ_self m, l, hs.advance, hm⟩

/-- By induction on the number of parentheses that may be opened; a group is five levels above those in it. -/
theorem eval_group_shallow (hdepth : 5 * n + 5 ≤ depth) (hs : OpensFrom n s) :
    (eval grammar depth group s).Shallow := by
  induction n using Nat.strongRecOn generalizing depth s with
  | ind n ih =>
    obtain ⟨d, rfl⟩ : ∃ d, depth = d + 5 := ⟨depth - 5, by omega⟩
    have hchar : ∀ c, (char c).Fits 2 := by simp [char]
    have hinside : (eval grammar (d + 3) ((char '(').seqRight (many (rule "nested"))) s).Shallow := by
      rw [Parser.seqRight, eval_bind]
      apply Behaviour.shallow_bind (eval_shallow grammar (hchar '(') (by omega) s)
      intro t v hopen
      obtain ⟨m, hm, ht⟩ := hs.opened ⟨d + 2, hopen⟩
      have hgroup : ∀ u, OpensFrom m u → (eval grammar (d + 1) (rule "nested") u).Shallow := by
        intro u hu
        rw [eval_rule]
        exact ih m hm (by omega) hu
      rw [eval_many]
      exact Behaviour.shallow_many hgroup (fun u u' v hu hgives => hu.group ⟨d + 1, hgives⟩) ht
    have hclosed : (eval grammar (d + 4)
        (((char '(').seqRight (many (rule "nested"))).seqLeft (char ')')) s).Shallow := by
      rw [Parser.seqLeft, eval_bind]
      apply Behaviour.shallow_bind hinside
      intro t v _
      have hclose : ((char ')').bind fun _ => succeed v).Fits 3 := ⟨hchar ')', fun _ => trivial⟩
      exact eval_shallow grammar hclose (by omega) t
    rw [group, Parser.map, eval_bind]
    apply Behaviour.shallow_bind hclosed
    intro t v _
    have hvalue : (succeed v.depth).Fits 1 := trivial
    exact eval_shallow grammar hvalue (by omega) t

theorem eval_document_shallow (hdepth : 5 * n + 6 ≤ depth) (hs : OpensFrom n s) :
    (eval grammar depth document s).Shallow := by
  obtain ⟨d, rfl⟩ : ∃ d, depth = d + 1 := ⟨depth - 1, by omega⟩
  rw [document, Parser.seqLeft, eval_bind]
  apply Behaviour.shallow_bind (eval_group_shallow (by omega) hs)
  intro t v _
  have hend : (endOfInput.bind fun _ => succeed v).Fits 2 := ⟨trivial, fun _ => trivial⟩
  exact eval_shallow grammar hend (by omega) t

/-! ## Runs -/

/-- The reply of the parser of whole groups is a success exactly on a group, with its depth. -/
theorem exists_document_reply (h : s.Before l) : ∃ r, Replies grammar document s r ∧
    ∀ v, r.outcome = .ok v ↔ IsGroup l ∧ v = .int (parentheses.depth l) := by
  obtain ⟨r, hgroup, hread⟩ := exists_group_reply h
  have hwhole : IsGroup l → r = ⟨s.past l, .ok (.int (parentheses.depth l))⟩ := by
    intro hl
    rw [← List.append_nil l] at h
    exact hgroup.unique (hl.replies h)
  cases hread with
  | err l t e =>
    refine ⟨_, hgroup.bind_err, fun v => ⟨nofun, ?_⟩⟩
    rintro ⟨hl, -⟩
    cases hwhole hl
  | @ok w rest hw =>
    obtain ⟨u, hdocument⟩ := hgroup.seqLeft_endOfInput h.past
    refine ⟨_, hdocument, fun v => ?_⟩
    by_cases hrest : rest = []
    · subst hrest
      rw [List.append_nil, if_pos rfl]
      simp [hw, eq_comm]
    · simp only [if_neg hrest]
      refine ⟨nofun, ?_⟩
      rintro ⟨hl, -⟩
      exact absurd (State.past_append_eq_iff.1 (congrArg Reply.state (hwhole hl)).symm) hrest

/-- With at most a thousand parentheses open at once, a text is read with the value `v` exactly if it is a
group and `v` its depth, and refused exactly if it is no group. -/
theorem run_computes_depth (text : String) (hopens : parentheses.OpensAtMost 1000 text.toList) :
    (∀ v, (run grammar document text).result? = some (.ok v) ↔
        IsGroup text.toList ∧ v = .int (parentheses.depth text.toList)) ∧
      ((∃ e, (run grammar document text).result? = some (.err e)) ↔ ¬ IsGroup text.toList) := by
  have hstart : (State.start (.ofString text)).Before text.toList := State.before_start _
  have hshallow : (eval grammar nestingLimit document (.start (.ofString text))).Shallow :=
    eval_document_shallow (by decide) ⟨_, hstart, hopens⟩
  obtain ⟨r, hr, hiff⟩ := exists_document_reply hstart
  rw [hr.run_result? hshallow]
  refine ⟨fun v => ?_, ?_⟩
  · rw [Option.some.injEq]
    exact hiff v
  · obtain ⟨u, v | e⟩ := r
    · obtain ⟨hgroup, -⟩ := (hiff v).1 rfl
      simpa using hgroup
    · have hnone : ¬ IsGroup text.toList := fun hgroup => by cases (hiff _).2 ⟨hgroup, rfl⟩
      simpa using hnone

/-- Two groups in a group, the second one holding a third, and a group that is not closed. -/
theorem run_computes_depth_unclosed :
    parentheses.OpensAtMost 1000 "(()(()))".toList ∧ parentheses.OpensAtMost 1000 "(()".toList ∧
      IsGroup "(()(()))".toList ∧ parentheses.depth "(()(()))".toList = 3 ∧ ¬ IsGroup "(()".toList := by
  have hgood : parentheses.OpensAtMost 1000 "(()(()))".toList := by decide +kernel
  have hbad : parentheses.OpensAtMost 1000 "(()".toList := by decide +kernel
  obtain ⟨hgroup, hdepth⟩ := ((run_computes_depth _ hgood).1 (.int 3)).1 (by decide +kernel)
  refine ⟨hgood, hbad, hgroup, ?_, (run_computes_depth _ hbad).2.1 ⟨.aChar, by decide +kernel⟩⟩
  decide +kernel

end Descent.Groups
