import Descent.Proofs.Logging
import Descent.Proofs.NestedList.Recognition

/-!
# The log of nested lists

Every list of the value is matched once, behind the lists in it, and nothing else is: no list is read and given
up, and none is read again. Where a number may stand a list is tried only if there is none, and where the loop
over the items ends only a comma is. The one attempt in vain is for the first item of an empty list
(`logs_value_bracket`).

What a log shows of the value (`Shows`) is put together as the value is: by induction on its derivation from the
grammar (`IsValue.logs`).
-/

namespace Descent

def Event.matchedAs? (name : String) : Event → Option Value
  | .matched name' v _ => if name' = name then some v else none
  | _ => none

def Event.isFailureOf (name : String) : Event → Bool
  | .failed name' _ _ => name' = name
  | _ => false

/-- The log consists of attempts under the name, each followed by its answer, with whole attempts between the two. -/
inductive Answered (name : String) : Log → Prop
  | nil : Answered name []
  | append {l l' : Log} : Answered name l → Answered name l' → Answered name (l ++ l')
  | around {l : Log} (s : State) (r : Reply) : Answered name l →
      Answered name (.trying name s :: (l ++ [.ofReply name r]))

namespace NestedList

open Descent.Parser Descent.Text Evaluation

mutual

/-- The lists in a value, each behind the lists in it. -/
def listsIn : Value → List Value
  | .list vs => listsAmong vs ++ [.list vs]
  | .tuple vs => listsAmong vs
  | .unit | .bool _ | .int _ | .str _ => []

def listsAmong : List Value → List Value
  | [] => []
  | v :: vs => listsIn v ++ listsAmong vs

end

variable {s t u : State} {v : Value} {vs ws : List Value} {w l rest : List Char} {m m' : Log} {j k : Nat}
  {e : Expected}

/-- All lists that are tried are matched, the lists `vs` in this order, but for one failure for each empty list. -/
structure Shows (vs : List Value) (m : Log) : Prop where
  answered : Answered "list" m
  matched : m.filterMap (Event.matchedAs? "list") = vs
  failed : m.countP (Event.isFailureOf "list") = vs.count (.list [])

theorem shows_nil : Shows [] [] := ⟨.nil, rfl, rfl⟩

theorem Shows.append (h : Shows vs m) (h' : Shows ws m') : Shows (vs ++ ws) (m ++ m') where
  answered := h.answered.append h'.answered
  matched := by rw [List.filterMap_append, h.matched, h'.matched]
  failed := by rw [List.countP_append, h.failed, h'.failed, List.count_append]

/-- The match of a list with items follows what is logged of the items. -/
theorem Shows.list (h : Shows (listsAmong vs) m) (hvs : vs ≠ []) (s t : State) :
    Shows (listsIn (.list vs)) (.trying "list" s :: (m ++ [.matched "list" (.list vs) t])) where
  answered := .around s ⟨t, .ok (.list vs)⟩ h.answered
  matched := by
    rw [List.filterMap_cons_none rfl, List.filterMap_append, h.matched]
    rfl
  failed := by
    have hlist : Value.list vs ≠ .list [] := fun heq => hvs (Value.list.inj heq)
    rw [List.countP_cons_of_neg (by simp [Event.isFailureOf]), List.countP_append, h.failed, listsIn,
      List.count_append, List.count_singleton, if_neg (by simpa using hlist)]
    rfl

theorem shows_empty (s t u s' : State) (e : Expected) : Shows (listsIn (.list []))
    (.trying "list" s :: ([.trying "list" t, .failed "list" u e] ++ [.matched "list" (.list []) s'])) where
  answered := .around s ⟨s', .ok (.list [])⟩ (.around t ⟨u, .err e⟩ .nil)
  matched := rfl
  failed := rfl

/-! ## Tokens -/

theorem silent_spaces : spaces.Silent := by
  simp [spaces, char]

theorem silent_sign (c : Char) : (lexeme (char c)).Silent := by
  simp [lexeme, char, spaces, Parser.seqLeft]

theorem silent_number : number.Silent := by
  simp [number, lexeme, spaces, satisfy, char, many1, Parser.map, Parser.seqLeft]

theorem logs_list (h : s.Before ('[' :: blanks j ++ l)) (hstop : NoSpace l)
    (hitems : Logs grammar items (s.past ('[' :: blanks j)) m ⟨t, .ok v⟩)
    (hclose : t.Before (']' :: blanks k ++ rest)) (hrest : NoSpace rest) :
    Logs grammar list s
      (.trying "list" s :: (m ++ [.matched "list" v (t.past (']' :: blanks k))]))
      ⟨t.past (']' :: blanks k), .ok v⟩ := by
  have hopen := (replies_sign h hstop).silent (silent_sign '[')
  have hend := (replies_sign hclose hrest).silent (silent_sign ']')
  have hlist := ((hopen.seqRight hitems).seqLeft hend).trace "list"
  rw [List.nil_append, List.append_nil] at hlist
  exact hlist

theorem logs_value_of_noDigit {r : Reply} (h : s.Before l) (hdigit : NoDigit l)
    (hlist : Logs grammar (oneOf [list]) s m r) : Logs grammar (rule "value") s m r := by
  obtain ⟨e, hnumber⟩ := replies_number_err h hdigit
  exact ((hnumber.silent silent_number).orElse_of_declines (Reply.declines_start s _) hlist).rule

theorem logs_value_list (h : s.Before l) (hdigit : NoDigit l) (hlist : Logs grammar list s m ⟨t, .ok v⟩) :
    Logs grammar (rule "value") s m ⟨t, .ok v⟩ :=
  logs_value_of_noDigit h hdigit (hlist.orElse_of_not_declines (Reply.not_declines_ok s t v))

theorem logs_value_bracket (h : s.Before (']' :: rest)) : ∃ e e',
    Logs grammar (rule "value") s [.trying "list" s, .failed "list" s e] ⟨s, .err e'⟩ := by
  have hopen := (replies_sign_other (c := '[') h (by decide)).silent (silent_sign '[')
  have hlist : Logs grammar list s _ _ := (hopen.bind_err.bind_err).trace "list"
  have hnone : Logs grammar (oneOf []) s [] ⟨s, .err .alternative⟩ :=
    (replies_fail_iff.2 rfl).silent ⟨nofun, nofun, nofun⟩
  have halternatives := hlist.orElse_of_declines (Reply.declines_start s _) hnone
  exact ⟨_, _, logs_value_of_noDigit h (stops_cons_iff.2 rfl) halternatives⟩

/-! ## Values -/

mutual

/-- What is logged of a value shows the lists in it. -/
theorem IsValue.logs : {w : List Char} → {v : Value} → IsValue w v → ∀ {s rest},
    s.Before (w ++ rest) → Maximal w rest →
      ∃ m, Logs grammar (rule "value") s m ⟨s.past w, .ok v⟩ ∧ Shows (listsIn v) m
  | _, _, .number k hdigits, s, rest, h, hrest => by
    rw [List.append_assoc] at h
    have hnumber := replies_number hdigits h (hrest.noDigit hdigits) hrest.space
    refine ⟨[], ?_, shows_nil⟩
    exact ((hnumber.silent silent_number).orElse_of_not_declines (Reply.not_declines_ok _ _ _)).rule
  | _, _, @IsValue.list w vs j k hvs, s, rest, h, hrest => by
    rw [List.append_assoc, List.append_assoc] at h
    have hspace := hvs.noSpace (maximal_bracket w (blanks k ++ rest)).space
    obtain ⟨m, hitems, hshows⟩ := hvs.logs h.past
    have hlist := logs_list h hspace hitems h.past.past hrest.space
    rw [State.past_append, State.past_append]
    exact ⟨_, logs_value_list h (stops_cons_iff.2 rfl) hlist, hshows _ _⟩

theorem IsItems.logs : {w : List Char} → {vs : List Value} → IsItems w vs → ∀ {s rest},
    s.Before (w ++ ']' :: rest) →
      ∃ m, Logs grammar items s m ⟨s.past w, .ok (.list vs)⟩ ∧ ∀ t u,
        Shows (listsIn (.list vs)) (.trying "list" t :: (m ++ [.matched "list" (.list vs) u]))
  | _, _, .none, s, rest, h => by
    obtain ⟨e, e', hitem⟩ := logs_value_bracket h
    have hnone : Logs grammar (oneOf [succeed (.list [])]) s [] ⟨s, .ok (.list [])⟩ :=
      logs_succeed.orElse_of_not_declines (Reply.not_declines_ok s s _)
    have hloop : Logs grammar (.sepBy1 (rule "value") comma) s _ _ := hitem.sepBy1_err
    have hitems := hloop.orElse_of_declines (Reply.declines_start s _) hnone
    rw [State.past_nil]
    exact ⟨_, hitems, fun t u => shows_empty t s s u e⟩
  | _, _, @IsItems.some w ws v vs hv hvs, s, rest, h => by
    rw [List.append_assoc] at h
    obtain ⟨m, hitem, hfirst⟩ := hv.logs h (hvs.maximal (maximal_bracket _ rest))
    obtain ⟨m', htail, hothers⟩ := hvs.logs h.past
    rw [State.past_append]
    have hshows : Shows (listsAmong (v :: vs)) (m ++ m') := hfirst.append hothers
    refine ⟨m ++ m', (hitem.sepBy1 htail).orElse_of_not_declines (Reply.not_declines_ok _ _ _), ?_⟩
    exact fun t u => hshows.list (List.cons_ne_nil v vs) t u

theorem IsTail.logs : {ws : List Char} → {vs : List Value} → IsTail ws vs → ∀ {s rest},
    s.Before (ws ++ ']' :: rest) →
      ∃ m, ListsOn grammar (rule "value") comma s vs m (s.past ws) ∧ Shows (listsAmong vs) m
  | _, _, .nil, s, rest, h => by
    have hsep := (replies_sign_other (c := ',') h (by decide)).silent (silent_sign ',')
    rw [State.past_nil]
    exact ⟨[], .last hsep, shows_nil⟩
  | _, _, @IsTail.cons w ws u us k hu hus, s, rest, h => by
    rw [List.append_assoc, List.append_assoc] at h
    have hsep := (replies_sign h (hu.noSpace _)).silent (silent_sign ',')
    obtain ⟨m, hitem, hfirst⟩ := hu.logs h.past (hus.maximal (maximal_bracket _ rest))
    obtain ⟨m', htail, hothers⟩ := hus.logs h.past.past
    rw [State.past_append, State.past_append]
    exact ⟨_, .more hsep hitem htail, hfirst.append hothers⟩

end

theorem IsDocument.logs {text : List Char} (h : IsDocument text v) (hs : s.Before text) :
    ∃ m u, Logs grammar document s m ⟨u, .ok v⟩ ∧ Shows (listsIn v) m := by
  obtain ⟨k, w, rfl, hv⟩ := h
  have hspaces := (replies_spaces hs (by simpa using hv.noSpace [])).silent silent_spaces
  have hvalue : (s.past (blanks k)).Before (w ++ []) := by simpa using hs.past
  obtain ⟨m, hlogs, hshows⟩ := hv.logs hvalue (maximal_nil w)
  have hend := (replies_endOfInput (g := grammar) hvalue.past).silent (by simp)
  have hdocument := (hspaces.seqRight hlogs).seqLeft hend
  rw [List.nil_append, List.append_nil] at hdocument
  exact ⟨m, _, hdocument, hshows⟩

/-! ## Runs -/

end NestedList

end Descent
