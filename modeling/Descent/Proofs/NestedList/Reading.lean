import Descent.Proofs.NestedList.Tokens
import Descent.Proofs.SeparatedList

/-!
# Reading nested lists

The parser of values returns from wherever it starts, and what it has read on success is a value of the
grammar (`exists_value_reply`). Conversely it reads every value that takes all it can of what follows
(`IsValue.replies`): spaces behind any token, and digits behind a number.

The recovery of a separated list from a malformed first item lets nothing through: the list is empty
then, and what stands in place of its bracket is the malformed item.
-/

namespace Descent.NestedList

open Descent.Parser Descent.Text

variable {s t : State} {v : Value} {vs : List Value} {r : Reply} {w ws l rest : List Char} {n : Nat}

/-! ## What is read is a value -/

/-- From `s`, before `l`, a value was read or there was a failure. -/
inductive ReadsValue (s : State) : List Char → Reply → Prop
  | ok {w : List Char} {v : Value} (rest : List Char) : IsValue w v →
      ReadsValue s (w ++ rest) ⟨s.past w, .ok v⟩
  | err (l : List Char) (t : State) (e : Expected) : ReadsValue s l ⟨t, .err e⟩

/-- From `s`, before `l`, the items of a list were read or there was a failure. -/
inductive ReadsItems (s : State) : List Char → Reply → Prop
  | ok {w : List Char} {vs : List Value} (rest : List Char) : IsItems w vs →
      ReadsItems s (w ++ rest) ⟨s.past w, .ok (.list vs)⟩
  | err (l : List Char) (t : State) (e : Expected) : ReadsItems s l ⟨t, .err e⟩

/-- From `s`, before `l`, the items after `v` were read or there was a failure. -/
inductive ReadsTail (v : Value) (s : State) : List Char → Reply → Prop
  | ok {w : List Char} {vs : List Value} (rest : List Char) : IsTail w vs →
      ReadsTail v s (w ++ rest) ⟨s.past w, .ok (.list (v :: vs))⟩
  | err (l : List Char) (t : State) (e : Expected) : ReadsTail v s l ⟨t, .err e⟩

/-- Before fewer than `n` characters the parser of values returns, and reads values only. -/
def ReadsBelow (n : Nat) : Prop :=
  ∀ s l, l.length < n → s.Before l → ∃ r, Replies grammar (rule "value") s r ∧ ReadsValue s l r

theorem past_comma_position (s : State) (k : Nat) :
    (s.past (',' :: blanks k)).position ≠ s.position := by
  rw [State.past_position, List.length_cons]
  omega

/-- By induction on the number of characters ahead. -/
theorem ReadsBelow.exists_continues (hn : ReadsBelow n) (hl : l.length < n) (h : s.Before l) (v : Value) :
    ∃ r, Continues grammar (rule "value") comma v s r ∧ ReadsTail v s l r := by
  induction hlen : l.length using Nat.strongRecOn generalizing s l v with
  | ind m ih =>
    rcases stops_or_exists_blanks ',' l with hstop | ⟨k, l, rfl, hspace⟩
    · obtain ⟨e, hfail⟩ := replies_sign_err h hstop
      have hread : ReadsTail v s ([] ++ l) ⟨s.past [], .ok (.list [v])⟩ := .ok l .nil
      rw [State.past_nil] at hread
      exact ⟨_, .last hfail, hread⟩
    · have hsep := replies_sign h hspace
      have hshorter : l.length < m := by
        rw [← hlen, List.length_append, List.length_cons]
        omega
      obtain ⟨r, hitem, hread⟩ := hn _ _ (by omega) h.past
      cases hread with
      | err l t e =>
        -- the comma was read, so the failure behind it is not absorbed
        refine ⟨_, .trailing hsep hitem, ?_⟩
        rw [Link.absorb, if_neg (past_comma_position s k)]
        exact .err _ _ _
      | @ok w u rest hu =>
        rw [List.length_append] at hshorter
        obtain ⟨r, hcont, hread⟩ := ih rest.length (by omega) (by omega) h.past.past u rfl
        refine ⟨_, .more hsep hitem hcont, ?_⟩
        cases hread with
        | err l t e =>
          rw [Link.absorb, if_neg (past_comma_position s k)]
          exact .err _ _ _
        | @ok ws us rest hus =>
          have hread : ReadsTail v s _ _ := .ok rest (.cons k hu hus)
          rw [State.past_append, State.past_append, List.append_assoc, List.append_assoc] at hread
          exact hread

/-- A failure of the items is passed on, or it leaves an empty list and reads nothing. -/
theorem exists_items_of_err {e : Expected} (l : List Char)
    (hloop : Replies grammar (.sepBy1 (rule "value") comma) s ⟨t, .err e⟩) :
    ∃ r, Replies grammar items s r ∧ ReadsItems s l r := by
  have hitems : Replies grammar items s
      (if t.position = s.position then ⟨s, .ok (.list [])⟩ else ⟨t, .err e⟩) :=
    replies_oneOf_succeed_iff.2 (.inr ⟨t, e, hloop, rfl⟩)
  refine ⟨_, hitems, ?_⟩
  split
  · have hread : ReadsItems s ([] ++ l) ⟨s.past [], .ok (.list [])⟩ := .ok l .none
    rw [State.past_nil] at hread
    exact hread
  · exact .err l t e

theorem ReadsBelow.exists_items (hn : ReadsBelow n) (hl : l.length < n) (h : s.Before l) :
    ∃ r, Replies grammar items s r ∧ ReadsItems s l r := by
  obtain ⟨r, hitem, hread⟩ := hn s l hl h
  cases hread with
  | err l t e => exact exists_items_of_err l (Separates.noItem hitem).replies
  | @ok w v rest hv =>
    rw [List.length_append] at hl
    obtain ⟨r, hcont, hread⟩ := hn.exists_continues (by omega) h.past v
    have hloop := (Separates.item hitem hcont).replies
    cases hread with
    | err l t e => exact exists_items_of_err _ hloop
    | @ok ws vs rest hvs =>
      have hread : ReadsItems s _ _ := .ok rest (.some hv hvs)
      rw [State.past_append, List.append_assoc] at hread
      exact ⟨_, replies_oneOf_succeed_iff.2 (.inl ⟨_, _, hloop, rfl⟩), hread⟩

theorem exists_value_reply_of_list_err {e : Expected} (h : s.Before l) (hdigit : NoDigit l)
    (hlist : Replies grammar list s ⟨t, .err e⟩) :
    ∃ r, Replies grammar (rule "value") s r ∧ ReadsValue s l r := by
  refine ⟨_, replies_value_err h hdigit hlist, ?_⟩
  split
  · exact .err l s .alternative
  · exact .err l t e

theorem ReadsBelow.exists_list_reply (hn : ReadsBelow n) (hl : l.length ≤ n) (h : s.Before l)
    (hdigit : NoDigit l) : ∃ r, Replies grammar (rule "value") s r ∧ ReadsValue s l r := by
  rcases stops_or_exists_blanks '[' l with hopen | ⟨j, l, rfl, hspace⟩
  · obtain ⟨e, hlist⟩ := replies_list_err h hopen
    exact exists_value_reply_of_list_err h hdigit hlist
  · rw [List.length_append, List.length_cons] at hl
    obtain ⟨r, hitems, hread⟩ := hn.exists_items (l := l) (by omega) h.past
    cases hread with
    | err l t e =>
      exact exists_value_reply_of_list_err h hdigit (replies_list_items_err h hspace hitems)
    | @ok w vs rest hvs =>
      rcases stops_or_exists_blanks ']' rest with hclose | ⟨k, rest, rfl, hrest⟩
      · obtain ⟨e, hfail⟩ := replies_sign_err h.past.past hclose
        exact exists_value_reply_of_list_err h hdigit (replies_list_unclosed h hspace hitems hfail)
      · have hlist := replies_list h hspace hitems h.past.past hrest
        have hread : ReadsValue s _ _ := .ok rest (.list j k hvs)
        rw [State.past_append, State.past_append, List.append_assoc, List.append_assoc] at hread
        exact ⟨_, replies_value_list h hdigit hlist, hread⟩

theorem exists_number_reply (h : s.Before l) (hdigit : ¬ NoDigit l) :
    ∃ r, Replies grammar (rule "value") s r ∧ ReadsValue s l r := by
  obtain ⟨digits, k, rest, rfl, hnumeral, hstop, hspace⟩ := exists_numeral hdigit
  have hread : ReadsValue s _ _ := .ok rest (.number k hnumeral)
  rw [List.append_assoc] at hread
  exact ⟨_, replies_value_number (replies_number hnumeral h hstop hspace), hread⟩

theorem readsBelow (n : Nat) : ReadsBelow n := by
  induction n with
  | zero =>
    intro s l hl
    exact absurd hl (Nat.not_lt_zero _)
  | succ n ih =>
    intro s l hl h
    by_cases hdigit : NoDigit l
    · exact ih.exists_list_reply (by omega) h hdigit
    · exact exists_number_reply h hdigit

theorem exists_value_reply (h : s.Before l) :
    ∃ r, Replies grammar (rule "value") s r ∧ ReadsValue s l r :=
  readsBelow (l.length + 1) s l (Nat.lt_succ_self _) h

def StartsValue (l : List Char) : Prop := ∃ w v rest, l = w ++ rest ∧ IsValue w v

theorem not_startsValue_nil : ¬ StartsValue [] := by
  rintro ⟨w, v, rest, heq, hv⟩
  obtain ⟨c, w, rfl, -⟩ := hv.head
  cases heq

theorem not_startsValue_cons {c : Char} (hdigit : isDecimal c = false) (hopen : c ≠ '[') :
    ¬ StartsValue (c :: l) := by
  rintro ⟨w, v, rest, heq, hv⟩
  obtain ⟨d, w, rfl, hd⟩ := hv.head
  cases heq
  simp_all

theorem exists_value_err (h : s.Before l) (hnone : ¬ StartsValue l) :
    ∃ t e, Replies grammar (rule "value") s ⟨t, .err e⟩ := by
  obtain ⟨r, hr, hread⟩ := exists_value_reply h
  cases hread with
  | ok rest hv => exact absurd ⟨_, _, rest, rfl, hv⟩ hnone
  | err l t e => exact ⟨t, e, hr⟩

/-! ## Values are read -/

/-- The last token of `w` takes nothing from `rest`: no space, and no digit behind a digit. -/
structure Maximal (w rest : List Char) : Prop where
  space : NoSpace rest
  digit : ∀ c ∈ w.getLast?, isDecimal c → NoDigit rest

theorem maximal_nil (w : List Char) : Maximal w [] := ⟨stops_nil _, fun _ _ _ => stops_nil _⟩

theorem maximal_comma (w rest : List Char) : Maximal w (',' :: rest) :=
  ⟨stops_cons_iff.2 rfl, fun _ _ _ => stops_cons_iff.2 rfl⟩

theorem maximal_bracket (w rest : List Char) : Maximal w (']' :: rest) :=
  ⟨stops_cons_iff.2 rfl, fun _ _ _ => stops_cons_iff.2 rfl⟩

theorem Maximal.of_append (h : Maximal (w ++ ws) rest) : Maximal ws rest :=
  ⟨h.space, fun c hc => h.digit c (List.mem_getLast?_append_of_mem_getLast? hc)⟩

theorem IsTail.maximal (h : IsTail ws vs) (hrest : Maximal (w ++ ws) rest) :
    Maximal w (ws ++ rest) := by
  cases h with
  | nil =>
    rw [List.append_nil] at hrest
    exact hrest
  | cons => exact maximal_comma _ _

/-- The digits of a number that is read to its end are all its digits. -/
theorem Maximal.noDigit {digits : List Char} {k : Nat} (hdigits : Numeral.isNumeral digits)
    (h : Maximal (digits ++ blanks k) rest) : NoDigit (blanks k ++ rest) := by
  cases k with
  | succ k => exact stops_cons_iff.2 rfl
  | zero =>
    obtain ⟨hnil, hall⟩ := Numeral.isNumeral_iff.1 hdigits
    refine h.digit (digits.getLast hnil) ?_ (hall _ (List.getLast_mem hnil))
    rw [blanks, List.replicate_zero, List.append_nil]
    exact List.getLast_mem_getLast? hnil

theorem IsValue.noSpace (h : IsValue w v) (rest : List Char) : NoSpace (w ++ rest) := by
  obtain ⟨c, w, rfl, hc⟩ := h.head
  refine stops_cons_iff.2 ?_
  rcases hc with hc | rfl
  · refine beq_false_of_ne ?_
    rintro rfl
    exact absurd hc (by decide)
  · rfl

/-- Before `rest` the items `vs`, written `w`, go no further. -/
structure IsItems.Complete (w : List Char) (vs : List Value) (rest : List Char) : Prop
    extends Maximal w rest where
  first : vs = [] → ¬ StartsValue rest
  further : vs ≠ [] → Stops (· == ',') rest

theorem IsItems.complete_bracket (w : List Char) (vs : List Value) (rest : List Char) :
    Complete w vs (']' :: rest) where
  toMaximal := maximal_bracket w rest
  first _ := not_startsValue_cons rfl (by decide)
  further _ := stops_cons_iff.2 rfl

theorem IsItems.complete_nil (w : List Char) (vs : List Value) : Complete w vs [] where
  toMaximal := maximal_nil w
  first _ := not_startsValue_nil
  further _ := stops_nil _

theorem IsItems.noSpace (h : IsItems w vs) (hrest : NoSpace rest) : NoSpace (w ++ rest) := by
  cases h with
  | none => exact hrest
  | some hv _ =>
    rw [List.append_assoc]
    exact hv.noSpace _

mutual

theorem IsValue.replies : {w : List Char} → {v : Value} → IsValue w v → ∀ {s rest},
    s.Before (w ++ rest) → Maximal w rest → Replies grammar (rule "value") s ⟨s.past w, .ok v⟩
  | _, _, .number k hdigits, s, rest, h, hrest => by
    rw [List.append_assoc] at h
    exact replies_value_number (replies_number hdigits h (hrest.noDigit hdigits) hrest.space)
  | _, _, @IsValue.list w vs j k hvs, s, rest, h, hrest => by
    rw [List.append_assoc, List.append_assoc] at h
    have hcomplete := IsItems.complete_bracket w vs (blanks k ++ rest)
    have hspace := hvs.noSpace hcomplete.space
    have hlist := replies_list h hspace (hvs.replies h.past hcomplete) h.past.past hrest.space
    rw [State.past_append, State.past_append]
    exact replies_value_list h (stops_cons_iff.2 rfl) hlist

theorem IsItems.replies : {w : List Char} → {vs : List Value} → IsItems w vs → ∀ {s rest},
    s.Before (w ++ rest) → IsItems.Complete w vs rest →
      Replies grammar items s ⟨s.past w, .ok (.list vs)⟩
  | _, _, .none, s, rest, h, hrest => by
    -- no value starts here, and the failure of the first item has read nothing
    obtain ⟨t, e, hitem⟩ := exists_value_err h (hrest.first rfl)
    have hloop : Replies grammar (.sepBy1 (rule "value") comma) s ⟨s, .err e⟩ :=
      (Separates.noItem hitem).replies
    rw [State.past_nil]
    exact replies_oneOf_succeed_iff.2 (.inr ⟨s, e, hloop, (if_pos rfl).symm⟩)
  | _, _, @IsItems.some w ws v vs hv hvs, s, rest, h, hrest => by
    have hstop : Stops (· == ',') rest := hrest.further (List.cons_ne_nil v vs)
    rw [List.append_assoc] at h
    have hitem := hv.replies h (hvs.maximal hrest.toMaximal)
    have hcont := hvs.continues h.past hrest.of_append hstop v
    rw [State.past_append]
    exact replies_oneOf_succeed_iff.2 (.inl ⟨_, _, (Separates.item hitem hcont).replies, rfl⟩)

theorem IsTail.continues : {ws : List Char} → {vs : List Value} → IsTail ws vs → ∀ {s rest},
    s.Before (ws ++ rest) → Maximal ws rest → Stops (· == ',') rest → ∀ v,
      Continues grammar (rule "value") comma v s ⟨s.past ws, .ok (.list (v :: vs))⟩
  | _, _, .nil, s, rest, h, _, hstop, v => by
    obtain ⟨e, hfail⟩ := replies_sign_err h hstop
    rw [State.past_nil]
    exact .last hfail
  | _, _, @IsTail.cons w ws u us k hu hus, s, rest, h, hrest, hstop, v => by
    rw [List.append_assoc] at hrest
    have hmax := hus.maximal hrest.of_append
    rw [List.append_assoc, List.append_assoc] at h
    have hsep := replies_sign h (hu.noSpace _)
    have hitem := hu.replies h.past hmax
    have hcont := hus.continues h.past.past hrest.of_append.of_append hstop u
    rw [State.past_append, State.past_append]
    exact .more hsep hitem hcont

end

/-! ## Documents -/

theorem isDocument_iff {k : Nat} (hspace : NoSpace l) :
    IsDocument (blanks k ++ l) v ↔ IsValue l v := by
  constructor
  · rintro ⟨j, w, heq, hv⟩
    have hw : NoSpace w := by simpa using hv.noSpace []
    have hlw : l = w := by
      rw [← dropWhile_blanks_append k hspace, heq, dropWhile_blanks_append j hw]
    exact hlw ▸ hv
  · intro hv
    exact ⟨k, l, rfl, hv⟩

/-- The reply of the parser of documents is a success exactly on the documents, with their values. -/
theorem exists_document_reply {text : List Char} (h : s.Before text) :
    ∃ r, Replies grammar document s r ∧ ∀ v, r.outcome = .ok v ↔ IsDocument text v := by
  obtain ⟨k, l, rfl, hspace⟩ := exists_blanks text
  have hcomplete : ∀ {v}, IsValue l v → Replies grammar (rule "value") (s.past (blanks k))
      ⟨(s.past (blanks k)).past l, .ok v⟩ := fun hv =>
    hv.replies (by simpa using h.past) (maximal_nil _)
  obtain ⟨r, hvalue, hread⟩ := exists_value_reply h.past
  have hright : Replies grammar (spaces.seqRight (rule "value")) s r :=
    (replies_spaces h hspace).bind hvalue
  simp only [isDocument_iff hspace]
  cases hread with
  | err l t e =>
    refine ⟨⟨s, .err e⟩, hright.bind_err, fun v => ⟨nofun, fun hv => ?_⟩⟩
    cases hvalue.unique (hcomplete hv)
  | @ok w v rest hv =>
    obtain ⟨u, hdocument⟩ := hright.seqLeft_endOfInput h.past.past
    refine ⟨_, hdocument, fun v' => ?_⟩
    by_cases hrest : rest = []
    · subst hrest
      simp only [List.append_nil, if_pos] at hcomplete ⊢
      refine ⟨?_, fun hv' => congrArg Reply.outcome (hvalue.unique (hcomplete hv'))⟩
      rintro ⟨⟩
      exact hv
    · simp only [if_neg hrest]
      refine ⟨nofun, fun hv' => ?_⟩
      have hstate := congrArg Reply.state (hvalue.unique (hcomplete hv'))
      exact absurd (State.past_append_eq_iff.1 hstate.symm) hrest

end Descent.NestedList
