import Descent.Proofs.NestedList.Recognition

/-!
# The refusal of malformed nested lists

`Refused l reason` sorts the malformed texts by what stands where in them, apart from any parser. There
are five kinds. Behind a value something may be left over; no value may start at all; and in a list, the
outermost one, an item may be missing behind a comma, or the bracket at the end, be it that the text ends
or that something else stands there.

What goes wrong inside an item is never reported. A list passes on the failure of its items as its own
at its start, which leaves `value` without an alternative, and a first item that fails is no item. Either
way `exists_value_err` is all that has to be known of it: where no value starts, none is read. So
`parse_refuses` needs no induction over the nesting, only one along the items of the outermost list.
-/

namespace Descent.NestedList

open Descent.Parser Descent.Text

variable {s t u : State} {v : Value} {vs : List Value} {e : Expected} {reason : String}
  {w l rest : List Char} {j k : Nat}

/-- A comma comes next, and behind it and its spaces no value. -/
def CommaAlone (l : List Char) : Prop :=
  ∃ k rest, l = ',' :: blanks k ++ rest ∧ NoSpace rest ∧ ¬ StartsValue rest

/-- The characters `l`, which no space precedes, are no value, and this is the reason that is given. -/
inductive Refused : List Char → String → Prop
  /-- something is left over behind a value -/
  | leftOver {w rest : List Char} {v : Value} : IsValue w v → Maximal w rest → rest ≠ [] →
      Refused (w ++ rest) "end of input"
  | noValue {l : List Char} : NoDigit l → Stops (· == '[') l → Refused l "no match"
  /-- a comma behind items, with no value behind it -/
  | noFurtherItem {w rest : List Char} {vs : List Value} (j : Nat) : IsItems w vs → vs ≠ [] →
      CommaAlone rest → Refused ('[' :: blanks j ++ w ++ rest) "no match"
  /-- the text ends behind the items of a list -/
  | unfinished {w : List Char} {vs : List Value} (j : Nat) : IsItems w vs →
      Refused ('[' :: blanks j ++ w) "a char"
  /-- another character stands where the items of a list end -/
  | unclosed {w rest : List Char} {vs : List Value} {c : Char} (j : Nat) : IsItems w vs →
      IsItems.Complete w vs (c :: rest) → c ≠ ']' →
        Refused ('[' :: blanks j ++ w ++ c :: rest) "the char `]`"

/-! ## The replies -/

theorem replies_document_err (h : s.Before (blanks k ++ l)) (hspace : NoSpace l)
    (hvalue : Replies grammar (rule "value") (s.past (blanks k)) ⟨t, .err e⟩) :
    Replies grammar document s ⟨s, .err e⟩ := by
  have hright : Replies grammar (spaces.seqRight (rule "value")) s ⟨t, .err e⟩ :=
    (replies_spaces h hspace).bind hvalue
  exact hright.bind_err

/-- A list that fails at its start leaves a value without an alternative. -/
theorem replies_value_no_match (h : s.Before l) (hdigit : NoDigit l)
    (hlist : Replies grammar list s ⟨s, .err e⟩) :
    Replies grammar (rule "value") s ⟨s, .err .alternative⟩ := by
  have hvalue := replies_value_err h hdigit hlist
  rw [if_pos rfl] at hvalue
  exact hvalue

theorem CommaAlone.maximal (h : CommaAlone rest) (w : List Char) : Maximal w rest := by
  obtain ⟨k, rest, rfl, -⟩ := h
  exact maximal_comma w _

theorem IsTail.continues_err {ws : List Char} {vs : List Value} {s : State} (hws : IsTail ws vs)
    (h : s.Before (ws ++ rest)) (hrest : CommaAlone rest) (v : Value) :
    ∃ t e, Continues grammar (rule "value") comma v s ⟨t, .err e⟩ ∧ s.position < t.position := by
  have hmoved : ∀ j, s.position < (s.past (',' :: blanks j)).position := by
    intro j
    rw [State.past_position, List.length_cons]
    omega
  cases hws with
  | nil =>
    obtain ⟨k, rest, rfl, hspace, hnone⟩ := hrest
    rw [List.nil_append] at h
    obtain ⟨t, e, hitem⟩ := exists_value_err h.past hnone
    have hlink := Continues.trailing (v := v) (replies_sign h hspace) hitem
    rw [Link.absorb, if_neg (past_comma_position s k)] at hlink
    exact ⟨_, e, hlink, hmoved k⟩
  | @cons w ws u us j hu hus =>
    rw [List.append_assoc, List.append_assoc] at h
    have hsep := replies_sign h (hu.noSpace _)
    have hitem := hu.replies h.past (hus.maximal (hrest.maximal _))
    obtain ⟨t, e, hcont, -⟩ := IsTail.continues_err hus h.past.past hrest u
    have hlink := Continues.more (v := v) hsep hitem hcont
    rw [Link.absorb, if_neg (past_comma_position s j)] at hlink
    exact ⟨_, e, hlink, hmoved j⟩

theorem IsItems.replies_list_err (hvs : IsItems w vs) (hne : vs ≠ [])
    (h : s.Before ('[' :: blanks j ++ (w ++ rest))) (hrest : CommaAlone rest) :
    ∃ e, Replies grammar list s ⟨s, .err e⟩ := by
  cases hvs with
  | none => exact absurd rfl hne
  | @some w ws v vs hv hvs =>
    rw [List.append_assoc] at h
    have hitem := hv.replies h.past (hvs.maximal (hrest.maximal _))
    obtain ⟨t, e, hcont, hpos⟩ := hvs.continues_err h.past.past hrest v
    have hloop : Replies grammar (.sepBy1 (rule "value") comma) (s.past ('[' :: blanks j)) ⟨t, .err e⟩ :=
      (Separates.item hitem hcont).replies
    have hmoved : t.position ≠ (s.past ('[' :: blanks j)).position := by
      rw [State.past_position] at hpos
      omega
    have hitems : Replies grammar items (s.past ('[' :: blanks j)) ⟨t, .err e⟩ :=
      replies_oneOf_succeed_iff.2 (.inr ⟨t, e, hloop, (if_neg hmoved).symm⟩)
    exact ⟨e, replies_list_items_err h (hv.noSpace _) hitems⟩

/-- A list whose items go no further fails behind them if there is no closing bracket. -/
theorem IsItems.replies_value_unclosed (hvs : IsItems w vs)
    (h : s.Before ('[' :: blanks j ++ (w ++ rest))) (hrest : IsItems.Complete w vs rest)
    (hclose : Replies grammar (lexeme (char ']')) ((s.past ('[' :: blanks j)).past w) ⟨u, .err e⟩) :
    Replies grammar (rule "value") s ⟨(s.past ('[' :: blanks j)).past w, .err e⟩ := by
  have hlist := replies_list_unclosed h (hvs.noSpace hrest.space) (hvs.replies h.past hrest) hclose
  have hvalue := replies_value_err h (stops_cons_iff.2 rfl) hlist
  have hmoved : ((s.past ('[' :: blanks j)).past w).position ≠ s.position := by
    rw [State.past_position, State.past_position, List.length_cons]
    omega
  rw [if_neg hmoved] at hvalue
  exact hvalue

theorem Refused.replies (hl : Refused l reason) (h : s.Before (blanks k ++ l)) (hspace : NoSpace l) :
    ∃ t e, Replies grammar document s ⟨t, .err e⟩ ∧ e.describe = reason := by
  cases hl with
  | @leftOver w rest v hv hmax hrest =>
    have hright : Replies grammar (spaces.seqRight (rule "value")) s _ :=
      (replies_spaces h hspace).bind (hv.replies h.past hmax)
    exact ⟨_, _, hright.seqLeft_err (replies_endOfInput_err h.past.past hrest), rfl⟩
  | noValue hdigit hopen =>
    obtain ⟨e, hlist⟩ := replies_list_err h.past hopen
    exact ⟨_, _, replies_document_err h hspace (replies_value_no_match h.past hdigit hlist), rfl⟩
  | noFurtherItem j hvs hne hrest =>
    have hlist := h.past
    rw [List.append_assoc] at hlist
    obtain ⟨e, hlist⟩ := hvs.replies_list_err hne hlist hrest
    exact ⟨_, _, replies_document_err h hspace
      (replies_value_no_match h.past (stops_cons_iff.2 rfl) hlist), rfl⟩
  | @unfinished w vs j hvs =>
    have hlist : (s.past (blanks k)).Before ('[' :: blanks j ++ (w ++ [])) := by
      rw [List.append_nil]
      exact h.past
    exact ⟨_, _, replies_document_err h hspace (hvs.replies_value_unclosed hlist
      (IsItems.complete_nil w vs) (replies_sign_nil hlist.past.past)), rfl⟩
  | unclosed j hvs hcomplete hc =>
    have hlist := h.past
    rw [List.append_assoc] at hlist
    exact ⟨_, _, replies_document_err h hspace (hvs.replies_value_unclosed hlist hcomplete
      (replies_sign_other hlist.past.past hc)), rfl⟩

/-! ## The kinds of malformed texts -/

theorem Maximal.prepend (h : Maximal w rest) (hw : w ≠ []) (u : List Char) : Maximal (u ++ w) rest := by
  refine ⟨h.space, fun c hc => h.digit c ?_⟩
  rw [List.getLast?_append_of_ne_nil u hw] at hc
  exact hc

theorem maximal_of_not_digit (hw : ∀ c ∈ w, isDecimal c = false) (hspace : NoSpace rest) :
    Maximal w rest := by
  refine ⟨hspace, fun c hc hdigit => ?_⟩
  rw [hw c (List.mem_of_getLast? hc)] at hdigit
  cases hdigit

theorem maximal_numeral (digits : List Char) (hstop : NoDigit (blanks k ++ rest))
    (hspace : NoSpace rest) : Maximal (digits ++ blanks k) rest := by
  cases k with
  | zero => exact ⟨hspace, fun _ _ _ => hstop⟩
  | succ k =>
    have hlast : Maximal (blanks (k + 1)) rest := maximal_of_not_digit (by simp [blanks]) hspace
    exact hlast.prepend (List.cons_ne_nil _ _) digits

theorem noDigit_of_not_startsValue (h : ¬ StartsValue l) : NoDigit l := by
  by_contra hdigit
  obtain ⟨digits, k, rest, rfl, hdigits, -, -⟩ := exists_numeral hdigit
  exact h ⟨_, _, rest, (List.append_assoc _ _ _).symm, .number k hdigits⟩

/-- Characters that begin with a value begin with one that takes all it can. -/
theorem StartsValue.exists_maximal (h : StartsValue l) :
    ∃ w v rest, l = w ++ rest ∧ IsValue w v ∧ Maximal w rest := by
  by_cases hdigit : NoDigit l
  · obtain ⟨w, v, rest, rfl, hv⟩ := h
    cases hv with
    | @number digits k hdigits =>
      obtain ⟨hnil, hall⟩ := Numeral.isNumeral_iff.1 hdigits
      obtain ⟨d, ds, rfl⟩ := List.exists_cons_of_ne_nil hnil
      have hd : isDecimal d = false := stops_cons_iff.1 hdigit
      rw [hall d List.mem_cons_self] at hd
      cases hd
    | @list w vs j k hvs =>
      obtain ⟨m, rest, rfl, hspace⟩ := exists_blanks rest
      have hlast : Maximal (']' :: blanks (k + m)) rest := maximal_of_not_digit (by simp [blanks]) hspace
      refine ⟨_, _, rest, ?_, .list j (k + m) hvs, hlast.prepend (List.cons_ne_nil _ _) _⟩
      simp [blanks, ← List.replicate_append_replicate]
  · obtain ⟨digits, k, rest, rfl, hdigits, hstop, hspace⟩ := exists_numeral hdigit
    exact ⟨_, _, rest, (List.append_assoc _ _ _).symm, .number k hdigits,
      maximal_numeral digits hstop hspace⟩

/-- By induction on the number of characters ahead. Behind an item further ones are followed as far as they
go, until no comma comes next, or one with no value behind it. -/
theorem exists_tail (h : Maximal w l) : ∃ ws vs rest, l = ws ++ rest ∧ IsTail ws vs ∧
    Maximal (w ++ ws) rest ∧ (Stops (· == ',') rest ∨ CommaAlone rest) := by
  induction hlen : l.length using Nat.strongRecOn generalizing w l with
  | ind n ih =>
    rcases stops_or_exists_blanks ',' l with hstop | ⟨k, l, rfl, hspace⟩
    · exact ⟨[], [], l, rfl, .nil, by rwa [List.append_nil], .inl hstop⟩
    · by_cases hstarts : StartsValue l
      · obtain ⟨u, v, l, rfl, hv, hmax⟩ := hstarts.exists_maximal
        have hshorter : l.length < n := by
          rw [← hlen, List.length_append, List.length_cons, List.length_append]
          omega
        obtain ⟨us, vs, rest, rfl, hvs, hmax, hend⟩ := ih _ hshorter hmax rfl
        have hne : u ++ us ≠ [] := by
          obtain ⟨c, u, rfl, -⟩ := hv.head
          exact List.cons_ne_nil _ _
        refine ⟨',' :: blanks k ++ u ++ us, v :: vs, rest, ?_, .cons k hv hvs, ?_, hend⟩
        · simp only [List.append_assoc]
        · have hall := hmax.prepend hne (w ++ ',' :: blanks k)
          simpa using hall
      · exact ⟨[], [], _, rfl, .nil, by rwa [List.append_nil], .inr ⟨k, l, rfl, hspace, hstarts⟩⟩

/-- Characters behind the bracket of a list begin with items that go no further, or with ones that a comma
follows and no value. -/
theorem exists_items (hspace : NoSpace l) : ∃ w vs rest, l = w ++ rest ∧ IsItems w vs ∧
    (IsItems.Complete w vs rest ∨ vs ≠ [] ∧ CommaAlone rest) := by
  by_cases hstarts : StartsValue l
  · obtain ⟨w, v, l, rfl, hv, hmax⟩ := hstarts.exists_maximal
    obtain ⟨ws, vs, rest, rfl, hvs, hmax, hend⟩ := exists_tail hmax
    have hne : v :: vs ≠ [] := List.cons_ne_nil v vs
    refine ⟨w ++ ws, v :: vs, rest, (List.append_assoc _ _ _).symm, .some hv hvs, ?_⟩
    rcases hend with hstop | hcomma
    · exact .inl ⟨hmax, fun h => absurd h hne, fun _ => hstop⟩
    · exact .inr ⟨hne, hcomma⟩
  · exact ⟨[], [], l, rfl, .none, .inl ⟨⟨hspace, nofun⟩, fun _ => hstarts, fun h => absurd rfl h⟩⟩

theorem exists_refused (hspace : NoSpace l) (hnone : ¬ ∃ v, IsValue l v) :
    ∃ reason, Refused l reason := by
  by_cases hstarts : StartsValue l
  · obtain ⟨w, v, rest, rfl, hv, hmax⟩ := hstarts.exists_maximal
    refine ⟨_, .leftOver hv hmax ?_⟩
    rintro rfl
    rw [List.append_nil] at hnone
    exact hnone ⟨v, hv⟩
  have hdigit := noDigit_of_not_startsValue hstarts
  rcases stops_or_exists_blanks '[' l with hopen | ⟨j, l, rfl, hinside⟩
  · exact ⟨_, .noValue hdigit hopen⟩
  obtain ⟨w, vs, rest, rfl, hvs, hcomplete | ⟨hne, hcomma⟩⟩ := exists_items hinside
  · cases rest with
    | nil =>
      rw [List.append_nil]
      exact ⟨_, .unfinished j hvs⟩
    | cons c rest =>
      rw [← List.append_assoc]
      refine ⟨_, .unclosed j hvs hcomplete ?_⟩
      -- with a closing bracket there the list would be a value
      rintro rfl
      refine hstarts ⟨_, _, rest, ?_, .list j 0 hvs⟩
      simp [blanks]
  · rw [← List.append_assoc]
    exact ⟨_, .noFurtherItem j hvs hne hcomma⟩

/-! ## Runs -/

/-- With at most a thousand brackets open at once, a text that is no document is refused, and the reason is
the one for the kind of its first characters other than spaces. -/
theorem parse_refuses (text : String) (hopens : square.OpensAtMost 1000 text.toList)
    (hnone : ¬ ∃ v, IsDocument text.toList v) :
    ∃ e, (parse text).result? = some (.err e) ∧
      ∀ reason, e.describe = reason ↔ Refused (text.toList.dropWhile (· == ' ')) reason := by
  obtain ⟨k, l, htext, hspace⟩ := exists_blanks text.toList
  have hstart : (State.start (.ofString text)).Before (blanks k ++ l) := by
    rw [← htext]
    exact State.before_start _
  rw [htext] at hnone ⊢
  simp only [isDocument_iff hspace] at hnone
  rw [dropWhile_blanks_append k hspace]
  obtain ⟨reason, hrefused⟩ := exists_refused hspace hnone
  obtain ⟨t, e, hr, he⟩ := hrefused.replies hstart hspace
  refine ⟨e, parse_result?_of_replies hopens hr, fun reason' => ⟨?_, fun hrefused' => ?_⟩⟩
  · rintro rfl
    rw [he]
    exact hrefused
  · obtain ⟨t', e', hr', he'⟩ := hrefused'.replies hstart hspace
    cases hr.unique hr'
    exact he'

/-- The first item of this list is malformed, and what is reported is a missing bracket in front of it. -/
theorem parse_refuses_malformed_first_item :
    square.OpensAtMost 1000 " [[1,], 2".toList ∧ (¬ ∃ v, IsDocument " [[1,], 2".toList v) ∧
      Refused (" [[1,], 2".toList.dropWhile (· == ' ')) "the char `]`" := by
  have hopens : square.OpensAtMost 1000 " [[1,], 2".toList := Brackets.opensAtMost_of_count_le (by decide)
  have hrun : (parse " [[1,], 2").result? = some (.err (.theChar ']')) := by decide +kernel
  have hnone : ¬ ∃ v, IsDocument " [[1,], 2".toList v := by
    rintro ⟨v, hv⟩
    obtain ⟨o, ho, hiff⟩ := exists_parse_outcome hopens
    rw [(hiff v).2 hv, hrun] at ho
    cases ho
  obtain ⟨e, he, hreason⟩ := parse_refuses _ hopens hnone
  rw [hrun] at he
  cases he
  exact ⟨hopens, hnone, (hreason _).1 rfl⟩

end Descent.NestedList
