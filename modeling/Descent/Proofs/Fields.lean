import Descent.Proofs.Nesting
import Descent.Proofs.Remaining
import Descent.Proofs.SeparatedList
import Descent.Value.Operations

/-!
# Separated fields

A row of fields is what is left of a list of texts when a separator is written between them. The fields are
read back exactly, provided that no field can hold the separator (`run_fields_iff`): each field is a longest
run of its class, the separator is what ends it, and the row has to come to the end of the text.

A list of fields ends at any failure of the separator, and it is empty wherever its first field fails. Neither
lets anything through: what the list leaves is there still, and the end of the text is not.
-/

namespace Descent

open Descent.Parser

/-- A nonempty run of characters of a class, as one text. -/
def Parser.field (pred : Char → Bool) : Parser := (many1 (satisfy pred)).map Value.join

/-- Fields with `c` between them, up to the end. -/
def Parser.fields (pred : Char → Bool) (c : Char) : Parser :=
  (sepBy (field pred) (char c)).seqLeft endOfInput

structure IsField (pred : Char → Bool) (item : String) : Prop where
  nonempty : item ≠ ""
  all : ∀ x ∈ item.toList, pred x

/-- The text is a row of the items, with `c` between them. -/
def AreFields (pred : Char → Bool) (c : Char) (items : List String) (text : String) : Prop :=
  items = [] ∧ text = "" ∨
    items ≠ [] ∧ (∀ item ∈ items, IsField pred item) ∧ text = (String.singleton c).intercalate items

/-- The characters of further items, each behind a separator. -/
def behind (c : Char) (items : List String) : List Char := items.flatMap fun item => c :: item.toList

variable {g : Grammar} {pred : Char → Bool} {c : Char} {item : String} {items : List String}
  {s t : State} {v : Value} {r : Reply} {l rest : List Char}

@[simp] theorem behind_nil (c : Char) : behind c [] = [] := rfl

@[simp] theorem behind_cons (c : Char) (item : String) (items : List String) :
    behind c (item :: items) = c :: (item.toList ++ behind c items) := rfl

theorem toList_intercalate_cons (c : Char) (item : String) (items : List String) :
    ((String.singleton c).intercalate (item :: items)).toList = item.toList ++ behind c items := by
  induction items generalizing item with
  | nil => simp
  | cons next items ih => simp [ih]

/-- What follows a field does not go on with its class: a separator, or what stops the last field. -/
theorem stops_behind_append (hc : pred c = false) (hrest : Stops pred rest) :
    Stops pred (behind c items ++ rest) := by
  cases items with
  | nil => exact hrest
  | cons => exact stops_cons_iff.2 hc

/-! ## Fields -/

/-- Either no field begins here, or one does and is followed by what is not of its class. -/
theorem stops_or_exists_field (pred : Char → Bool) (l : List Char) : Stops pred l ∨
    ∃ item rest, l = item.toList ++ rest ∧ IsField pred item ∧ Stops pred rest := by
  obtain ⟨w, rest, rfl, hw, hstop⟩ := exists_run pred l
  cases w with
  | nil => exact .inl hstop
  | cons x w =>
    have hfield : IsField pred (.ofList (x :: w)) := by
      refine ⟨fun hempty => ?_, by rwa [String.toList_ofList]⟩
      have hlist := congrArg String.toList hempty
      rw [String.toList_ofList] at hlist
      cases hlist
    exact .inr ⟨.ofList (x :: w), rest, by rw [String.toList_ofList], hfield, hstop⟩

theorem replies_field (h : s.Before (item.toList ++ rest)) (hitem : IsField pred item)
    (hstop : Stops pred rest) :
    Replies g (field pred) s ⟨s.past item.toList, .ok (.str item)⟩ := by
  obtain ⟨x, w, hw⟩ : ∃ x w, item.toList = x :: w :=
    List.exists_cons_of_ne_nil (mt String.toList_eq_nil_iff.1 hitem.nonempty)
  have hall := hitem.all
  rw [hw] at h hall
  have hrun := ((readsOne_satisfy g pred).replies_many1 h hall hstop).map Value.join
  have hjoin : Value.join (.list ((x :: w).map .ofChar)) = .str item := by
    unfold Value.join
    rw [Value.joined?_ofChar, ← hw, String.ofList_toList]
  rw [hjoin, ← hw] at hrun
  exact hrun

theorem replies_field_err (h : s.Before l) (hstop : Stops pred l) :
    ∃ e, Replies g (field pred) s ⟨s, .err e⟩ := by
  obtain ⟨e, hrun⟩ := (readsOne_satisfy g pred).replies_many1_err h hstop
  exact ⟨e, hrun.bind_err⟩

theorem replies_separator (h : s.Before (c :: l)) :
    Replies g (char c) s ⟨s.advance 1, .ok .unit⟩ :=
  (readsOne_char g c).accepts h (beq_self_eq_true c)

/-! ## What is read are fields -/

/-- From `s`, before `l`, further items were read behind `v`, or there was a failure. -/
inductive ReadsFields (pred : Char → Bool) (c : Char) (v : Value) (s : State) : List Char → Reply → Prop
  | ok {items : List String} (rest : List Char) : (∀ item ∈ items, IsField pred item) →
      ReadsFields pred c v s (behind c items ++ rest)
        ⟨s.past (behind c items), .ok (.list (v :: items.map .str))⟩
  | err (l : List Char) (t : State) (e : Expected) : ReadsFields pred c v s l ⟨t, .err e⟩

/-- By induction on the number of characters ahead, of which each separator takes one. -/
theorem exists_continues_fields (h : s.Before l) (v : Value) :
    ∃ r, Continues g (field pred) (char c) v s r ∧ ReadsFields pred c v s l r := by
  induction hlen : l.length using Nat.strongRecOn generalizing s l v with
  | ind n ih =>
    by_cases hstop : Stops (· == c) l
    · obtain ⟨t, e, hfail⟩ := (readsOne_char g c).rejects h hstop
      have hread : ReadsFields pred c v s (behind c [] ++ l) ⟨s.past [], .ok (.list [v])⟩ := .ok l nofun
      rw [State.past_nil] at hread
      exact ⟨_, .last hfail, hread⟩
    · obtain ⟨l, rfl⟩ := exists_cons_of_not_stops hstop
      have hmoved : (s.advance 1).position ≠ s.position := by
        rw [State.advance_position]
        omega
      have hsep : Replies g (char c) s ⟨s.advance 1, .ok .unit⟩ := replies_separator h
      rcases stops_or_exists_field pred l with hnone | ⟨item, rest, rfl, hitem, hrest⟩
      · obtain ⟨e, hfail⟩ := replies_field_err h.advance hnone
        refine ⟨_, .trailing hsep hfail, ?_⟩
        rw [Link.absorb, if_neg hmoved]
        exact .err _ _ _
      · have hfield := replies_field (g := g) h.advance hitem hrest
        rw [List.length_cons, List.length_append] at hlen
        obtain ⟨r, hcont, hread⟩ := ih rest.length (by omega) h.advance.past (.str item) rfl
        refine ⟨_, .more hsep hfield hcont, ?_⟩
        cases hread with
        | err l t e =>
          rw [Link.absorb, if_neg hmoved]
          exact .err _ _ _
        | @ok items rest hitems =>
          have hread : ReadsFields pred c v s _ _ :=
            .ok rest (List.forall_mem_cons.2 ⟨hitem, hitems⟩)
          rw [behind_cons, State.past_cons, State.past_append, List.cons_append, List.append_assoc] at hread
          exact hread

/-- The items of a row of which the text is one, or a failure. -/
def ReadsRow (pred : Char → Bool) (c : Char) (text : String) (o : Outcome) : Prop :=
  (∃ items, AreFields pred c items text ∧ o = .ok (.list (items.map .str))) ∨ ∃ e, o = .err e

theorem exists_reply_of_list {text : String} (hlist : Replies g (sepBy (field pred) (char c))
      (.start (.ofString text)) ⟨t, .ok (.list (items.map .str))⟩)
    (ht : t.Before rest) (hrow : rest = [] → AreFields pred c items text) :
    ∃ r, Replies g (fields pred c) (.start (.ofString text)) r ∧ ReadsRow pred c text r.outcome := by
  obtain ⟨u, hr⟩ := hlist.seqLeft_endOfInput ht
  refine ⟨_, hr, ?_⟩
  by_cases hrest : rest = []
  · exact .inl ⟨items, hrow hrest, if_pos hrest⟩
  · exact .inr ⟨.endOfInput, if_neg hrest⟩

/-- A failure of the items is passed on, or it leaves an empty list and reads nothing. -/
theorem exists_reply_of_err {text : String} {e : Expected}
    (hloop : Replies g (.sepBy1 (field pred) (char c)) (.start (.ofString text)) ⟨t, .err e⟩) :
    ∃ r, Replies g (fields pred c) (.start (.ofString text)) r ∧ ReadsRow pred c text r.outcome := by
  have hlist : Replies g (sepBy (field pred) (char c)) (.start (.ofString text))
      (if t.position = 0 then ⟨.start (.ofString text), .ok (.list [])⟩ else ⟨t, .err e⟩) :=
    replies_oneOf_succeed_iff.2 (.inr ⟨t, e, hloop, rfl⟩)
  by_cases hstill : t.position = 0
  · rw [if_pos hstill] at hlist
    have h : (State.start (.ofString text)).Before text.toList := State.before_start _
    have hrow : text.toList = [] → AreFields pred c [] text :=
      fun hnil => .inl ⟨rfl, String.toList_eq_nil_iff.1 hnil⟩
    exact exists_reply_of_list hlist h hrow
  · rw [if_neg hstill] at hlist
    exact ⟨_, hlist.bind_err, .inr ⟨e, rfl⟩⟩

theorem exists_fields_reply (g : Grammar) (pred : Char → Bool) (c : Char) (text : String) :
    ∃ r, Replies g (fields pred c) (.start (.ofString text)) r ∧ ReadsRow pred c text r.outcome := by
  have h : (State.start (.ofString text)).Before text.toList := State.before_start _
  rcases stops_or_exists_field pred text.toList with hnone | ⟨item, rest, htext, hitem, hstop⟩
  · obtain ⟨e, hfail⟩ := replies_field_err (g := g) h hnone
    exact exists_reply_of_err (Separates.noItem hfail).replies
  · rw [htext] at h
    have hfield := replies_field (g := g) h hitem hstop
    obtain ⟨r, hcont, hread⟩ : ∃ r, Continues g (field pred) (char c) (.str item) _ r ∧
        ReadsFields pred c (.str item) _ rest r :=
      exists_continues_fields h.past (.str item)
    have hloop := (Separates.item hfield hcont).replies
    cases hread with
    | err rest t e => exact exists_reply_of_err hloop
    | @ok items left hitems =>
      have hlist : Replies g (sepBy (field pred) (char c)) (.start (.ofString text))
          ⟨_, .ok (.list ((item :: items).map .str))⟩ :=
        replies_oneOf_succeed_iff.2 (.inl ⟨_, _, hloop, rfl⟩)
      refine exists_reply_of_list hlist h.past.past fun hleft => ?_
      have hrow : text = (String.singleton c).intercalate (item :: items) := by
        apply String.toList_injective
        rw [toList_intercalate_cons, htext, hleft, List.append_nil]
      exact .inr ⟨List.cons_ne_nil _ _, List.forall_mem_cons.2 ⟨hitem, hitems⟩, hrow⟩

/-! ## Fields are read -/

theorem continues_fields (hc : pred c = false) (hitems : ∀ item ∈ items, IsField pred item)
    (h : s.Before (behind c items)) (v : Value) : Continues g (field pred) (char c) v s
      ⟨s.past (behind c items), .ok (.list (v :: items.map .str))⟩ := by
  induction items generalizing s v with
  | nil =>
    obtain ⟨t, e, hfail⟩ := (readsOne_char g c).rejects h (stops_nil _)
    rw [behind_nil, State.past_nil]
    exact .last hfail
  | cons item items ih =>
    obtain ⟨hitem, hitems⟩ := List.forall_mem_cons.1 hitems
    have hstop : Stops pred (behind c items ++ []) := stops_behind_append hc (stops_nil pred)
    rw [List.append_nil] at hstop
    have hfield := replies_field (g := g) h.advance hitem hstop
    have hrest := ih hitems h.advance.past (.str item)
    rw [behind_cons, State.past_cons, State.past_append]
    exact .more (replies_separator h) hfield hrest

theorem AreFields.replies {text : String} (hc : pred c = false) (hfields : AreFields pred c items text) :
    ∃ u, Replies g (fields pred c) (.start (.ofString text)) ⟨u, .ok (.list (items.map .str))⟩ := by
  have h : (State.start (.ofString text)).Before text.toList := State.before_start _
  obtain ⟨rfl, rfl⟩ | ⟨hne, hitems, rfl⟩ := hfields
  · obtain ⟨e, hfail⟩ := replies_field_err (g := g) h (stops_nil pred)
    exact Replies.seqLeft_endOfInput (replies_oneOf_succeed_iff.2
      (.inr ⟨_, e, (Separates.noItem hfail).replies, (if_pos rfl).symm⟩)) h
  · obtain ⟨item, items, rfl⟩ := List.exists_cons_of_ne_nil hne
    obtain ⟨hitem, hitems⟩ := List.forall_mem_cons.1 hitems
    rw [toList_intercalate_cons] at h
    have hstop : Stops pred (behind c items ++ []) := stops_behind_append hc (stops_nil pred)
    rw [List.append_nil] at hstop
    have hfield := replies_field (g := g) h hitem hstop
    have hloop := (Separates.item hfield (continues_fields hc hitems h.past _)).replies
    have hend : ((State.start (.ofString ((String.singleton c).intercalate (item :: items)))).past
        item.toList |>.past (behind c items)).Before [] := by
      have hpast := h.past
      rw [← List.append_nil (behind c items)] at hpast
      exact hpast.past
    exact Replies.seqLeft_endOfInput (replies_oneOf_succeed_iff.2 (.inl ⟨_, _, hloop, rfl⟩)) hend

/-! ## Runs -/

theorem fits_fields (pred : Char → Bool) (c : Char) : (fields pred c).Fits 10 := by
  simp [fields, field, sepBy, many1, satisfy, char, Parser.map, Parser.seqLeft]

/-- A run over a text gives the fields of which it is a row, and fails if it is a row of none. -/
theorem run_fields_iff (g : Grammar) {pred : Char → Bool} {c : Char} (hc : pred c = false)
    (text : String) :
    (∀ items : List String, (run g (fields pred c) text).result? =
        some (.ok (.list (items.map .str))) ↔ AreFields pred c items text) ∧
      ((∃ e, (run g (fields pred c) text).result? = some (.err e)) ↔
        ¬ ∃ items, AreFields pred c items text) := by
  have hrun : ∀ {r}, Replies g (fields pred c) (.start (.ofString text)) r →
      (run g (fields pred c) text).result? = some r.outcome := fun hr =>
    hr.run_result? (eval_shallow g (fits_fields pred c) (by decide) _)
  have hcomplete : ∀ {items}, AreFields pred c items text →
      (run g (fields pred c) text).result? = some (.ok (.list (items.map .str))) := by
    intro items hfields
    obtain ⟨u, hr⟩ := hfields.replies (g := g) hc
    exact hrun hr
  obtain ⟨r, hr, hread⟩ := exists_fields_reply g pred c text
  rw [hrun hr] at hcomplete ⊢
  obtain ⟨items, hfields, hok⟩ | ⟨e, herr⟩ := hread
  · rw [hok]
    refine ⟨fun items' => ⟨fun hsame => ?_, fun hfields' => hok ▸ hcomplete hfields'⟩, ?_⟩
    · have hmap : items.map Value.str = items'.map Value.str := by simpa using hsame
      have hitems : items = items' :=
        List.map_injective_iff.2 (fun _ _ h => Value.str.inj h) hmap
      exact hitems ▸ hfields
    · exact ⟨nofun, fun hnone => absurd ⟨items, hfields⟩ hnone⟩
  · rw [herr] at hcomplete ⊢
    have hnone : ¬ ∃ items, AreFields pred c items text := by
      rintro ⟨items, hfields⟩
      cases hcomplete hfields
    exact ⟨fun items => ⟨nofun, fun hfields => absurd ⟨items, hfields⟩ hnone⟩, fun _ => hnone,
      fun _ => ⟨e, rfl⟩⟩

/-- Numbers between commas, and a row that ends in a comma. -/
theorem run_fields_iff_trailing_separator :
    Char.isDigit ',' = false ∧ AreFields Char.isDigit ',' ["12", "3"] "12,3" ∧
      ¬ ∃ items, AreFields Char.isDigit ',' items "12,3," := by
  have hc : Char.isDigit ',' = false := rfl
  refine ⟨hc, ((run_fields_iff .rule hc "12,3").1 ["12", "3"]).1 (by decide +kernel), ?_⟩
  exact (run_fields_iff .rule hc "12,3,").2.1 ⟨.aChar, by decide +kernel⟩

end Descent
