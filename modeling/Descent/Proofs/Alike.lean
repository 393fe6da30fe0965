import Mathlib.Data.List.Forall2
import Descent.Proofs.Position
import Descent.Proofs.Reply

/-!
# Alike states

Two states are alike if the same characters follow both and the end is equally far from both, or both
are beyond it. Two places beyond the end are alike, whatever the texts. A parser cannot tell alike
states apart: from both it comes to the same outcome and moves by the same distance
(`eval_uniform`). It follows that a loop whose round ends in a state alike to the one where it began
never ends.
-/

namespace Descent

open Evaluation

variable {p q sep : Behaviour}

namespace State

/-- The same characters follow, and the end is equally far or both are beyond it. -/
structure Alike (s t : State) : Prop where
  peek? : ∀ n : Nat, (s.advance n).peek? = (t.advance n).peek?
  distance : max (s.source.size - s.position) (-1) = max (t.source.size - t.position) (-1)

theorem Alike.refl (s : State) : s.Alike s := ⟨fun _ => rfl, rfl⟩

theorem Alike.symm {s t : State} (h : s.Alike t) : t.Alike s :=
  ⟨fun n => (h.peek? n).symm, h.distance.symm⟩

@[simp] theorem advance_zero (s : State) : s.advance 0 = s := by
  simp [advance]

@[simp] theorem advance_advance (s : State) (m n : Int) :
    (s.advance m).advance n = s.advance (m + n) := by
  simp [advance, Int.add_assoc]

theorem peek?_eq_none {s : State} (h : s.source.size ≤ s.position) : s.peek? = none := by
  cases hs : s.peek? with
  | none => rfl
  | some c =>
    have := peek?_eq_some hs
    omega

theorem alike_of_beyond {s t : State} (hs : s.source.size < s.position)
    (ht : t.source.size < t.position) : s.Alike t := by
  refine ⟨fun n => ?_, by omega⟩
  rw [peek?_eq_none, peek?_eq_none]
  all_goals
    simp only [advance_source, advance_position]
    omega

theorem Alike.advance {s t : State} (h : s.Alike t) (n : Nat) :
    (s.advance n).Alike (t.advance n) := by
  refine ⟨fun m => ?_, ?_⟩
  · have := h.peek? (n + m)
    simpa using this
  · have := h.distance
    simp only [advance_source, advance_position]
    omega

theorem Alike.peek?_eq {s t : State} (h : s.Alike t) : s.peek? = t.peek? := by
  simpa using h.peek? 0

theorem Alike.atEnd_eq {s t : State} (h : s.Alike t) : s.atEnd = t.atEnd := by
  have := h.distance
  simp only [atEnd, decide_eq_decide]
  omega

theorem Alike.beyond_iff {s t : State} (h : s.Alike t) :
    s.source.size < s.position ↔ t.source.size < t.position := by
  have := h.distance
  omega

theorem Alike.rounds_eq {s t : State} (h : s.Alike t) : s.rounds = t.rounds := by
  have := h.distance
  simp only [rounds]
  omega

/-- `u` is as far after `s` as `u'` is after `t`. -/
def Abreast (s t u u' : State) : Prop := ∃ n : Nat, u = s.advance n ∧ u' = t.advance n

theorem Abreast.refl (s t : State) : Abreast s t s t := ⟨0, by simp, by simp⟩

theorem Abreast.trans {s t u u' w w' : State} (h : Abreast s t u u') (h' : Abreast u u' w w') :
    Abreast s t w w' := by
  obtain ⟨n, rfl, rfl⟩ := h
  obtain ⟨m, rfl, rfl⟩ := h'
  exact ⟨n + m, by simp, by simp⟩

theorem Abreast.alike {s t u u' : State} (h : Abreast s t u u') (hst : s.Alike t) : u.Alike u' := by
  obtain ⟨n, rfl, rfl⟩ := h
  exact hst.advance n

theorem Abreast.position_eq_iff {s t u u' w w' : State} (h : Abreast s t u u')
    (h' : Abreast s t w w') : u.position = w.position ↔ u'.position = w'.position := by
  obtain ⟨n, rfl, rfl⟩ := h
  obtain ⟨m, rfl, rfl⟩ := h'
  simp

end State

structure Reply.Alike (s t : State) (r r' : Reply) : Prop where
  state : State.Abreast s t r.state r'.state
  outcome : r.outcome = r'.outcome

theorem Reply.Alike.trans {s t u u' : State} {r r' : Reply} (h : State.Abreast s t u u')
    (h' : Reply.Alike u u' r r') : Reply.Alike s t r r' := ⟨h.trans h'.state, h'.outcome⟩

namespace State

theorem readChar_alike {s t : State} (h : s.Alike t) : Reply.Alike s t s.readChar t.readChar := by
  unfold readChar
  rw [← h.peek?_eq]
  cases s.peek? with
  | none => exact ⟨.refl s t, rfl⟩
  | some c => exact ⟨⟨1, rfl, rfl⟩, rfl⟩

theorem readEnd_alike {s t : State} (h : s.Alike t) : Reply.Alike s t s.readEnd t.readEnd := by
  unfold readEnd
  rw [← h.atEnd_eq]
  split
  · exact ⟨⟨1, rfl, rfl⟩, rfl⟩
  · exact ⟨.refl s t, rfl⟩

theorem readText_alike {s t : State} (h : s.Alike t) (v : Value) (text : List Char) :
    Reply.Alike s t (s.readText v text) (t.readText v text) := by
  induction text generalizing s t with
  | nil => exact ⟨.refl s t, rfl⟩
  | cons c rest ih =>
    unfold readText
    rw [← h.peek?_eq]
    cases s.peek? with
    | none => exact ⟨.refl s t, rfl⟩
    | some d =>
      by_cases hd : d = c
      · simp only [if_pos hd]
        exact .trans ⟨1, rfl, rfl⟩ (ih (h.advance 1))
      · simp only [if_neg hd]
        exact ⟨.refl s t, rfl⟩

end State

namespace Behaviour

/-- From alike states `b` ends alike. -/
def Uniform (b : Behaviour) : Prop :=
  ∀ s t : State, s.Alike t → (b s).Related (Reply.Alike s t) (b t)

theorem Uniform.bind {f : Value → Behaviour} (hp : p.Uniform) (hf : ∀ v, (f v).Uniform) :
    (p.bind f).Uniform := by
  intro s t h
  refine (hp s t h).bind ?_
  rintro ⟨u, o⟩ ⟨u', _⟩ ⟨hu, rfl⟩
  cases o with
  | ok v => exact (hf v u u' (hu.alike h)).mono fun _ _ hr => .trans hu hr
  | err e => exact related_pure ⟨.refl s t, rfl⟩

theorem Uniform.orElse (hp : p.Uniform) (hq : q.Uniform) : (p.orElse q).Uniform := by
  intro s t h
  refine (hp s t h).bind ?_
  rintro ⟨u, o⟩ ⟨u', _⟩ ⟨hu, rfl⟩
  cases o with
  | ok v => exact related_pure ⟨hu, rfl⟩
  | err e =>
    have hmoved := hu.position_eq_iff (.refl s t)
    by_cases hs : u.position = s.position
    · simp only [if_pos hs, if_pos (hmoved.1 hs)]
      exact hq s t h
    · simp only [if_neg hs, if_neg (hmoved.not.1 hs)]
      exact related_pure ⟨hu, rfl⟩

theorem Uniform.attempt (hp : p.Uniform) : p.attempt.Uniform := by
  intro s t h
  refine (hp s t h).bind ?_
  rintro ⟨u, o⟩ ⟨u', _⟩ ⟨hu, rfl⟩
  cases o with
  | ok v => exact related_pure ⟨hu, rfl⟩
  | err e => exact related_pure ⟨.refl s t, rfl⟩

theorem Uniform.label (hp : p.Uniform) (e : Expected) : (p.label e).Uniform := by
  intro s t h
  refine (hp s t h).bind ?_
  rintro ⟨u, o⟩ ⟨u', _⟩ ⟨hu, rfl⟩
  cases o with
  | ok v => exact related_pure ⟨hu, rfl⟩
  | err e' =>
    have hmoved := hu.position_eq_iff (.refl s t)
    by_cases hs : u.position = s.position
    · simp only [if_pos hs, if_pos (hmoved.1 hs)]
      exact related_pure ⟨hu, rfl⟩
    · simp only [if_neg hs, if_neg (hmoved.not.1 hs)]
      exact related_pure ⟨hu, rfl⟩

theorem Uniform.trace (hp : p.Uniform) (name : String) : (p.trace name).Uniform := by
  intro s t h
  refine Related.bind (R := fun _ _ => True) (.returned trivial) fun _ _ _ => ?_
  refine (hp s t h).bind fun r r' hr => ?_
  exact Related.bind (R := fun _ _ => True) (.returned trivial) fun _ _ _ => related_pure hr

/-! ## Loops -/

structure Progress.Alike (s t : State) (x y : Progress) : Prop where
  current : State.Abreast s t x.current y.current
  values : x.values = y.values

theorem manyRound_alike {s t : State} (hp : p.Uniform) (h : s.Alike t) (x y : Progress)
    (hxy : Progress.Alike s t x y) :
    (manyRound p x).Related (Round.Related (Progress.Alike s t) (Reply.Alike s t)) (manyRound p y) := by
  obtain ⟨u, vs⟩ := x
  obtain ⟨u', _⟩ := y
  obtain ⟨hu, rfl⟩ := hxy
  refine (hp u u' (hu.alike h)).bind ?_
  rintro ⟨w, o⟩ ⟨w', _⟩ ⟨hw, rfl⟩
  cases o with
  | ok v =>
    have hguard : w.position = u.position ∨ u.source.size < u.position ↔
        w'.position = u'.position ∨ u'.source.size < u'.position :=
      or_congr (hw.position_eq_iff (.refl u u')) (hu.alike h).beyond_iff
    simp only [hguard]
    split
    · exact related_pure (.done ⟨hu, rfl⟩)
    · exact related_pure (.again ⟨hu.trans hw, rfl⟩)
  | err e => exact related_pure (.done ⟨hu, rfl⟩)

theorem Uniform.many (hp : p.Uniform) : p.many.Uniform := by
  intro s t h
  show (iterate _ s.rounds _).Related _ (iterate _ t.rounds _)
  rw [← h.rounds_eq]
  exact Related.iterate (manyRound_alike hp h) _ ⟨.refl s t, rfl⟩

end Behaviour

structure Link.Alike (s t : State) (l l' : Link) : Prop where
  item : l.item = l'.item
  before : State.Abreast s t l.before l'.before
  after : State.Abreast s t l.after l'.after

theorem Link.items_eq_of_alike {s t : State} {chain chain' : List Link}
    (h : List.Forall₂ (Link.Alike s t) chain chain') : items chain = items chain' := by
  unfold items
  congr 1
  induction h with
  | nil => rfl
  | cons hl _ ih => rw [List.map_cons, List.map_cons, hl.item, ih]

theorem Link.unwind_alike {s t : State} {l l' : Link} {chain chain' : List Link} (e : Expected)
    (hl : Link.Alike s t l l') (h : List.Forall₂ (Link.Alike s t) chain chain') :
    Reply.Alike s t (l.unwind e chain) (l'.unwind e chain') := by
  have hstill := hl.after.position_eq_iff hl.before
  have hitems := items_eq_of_alike (h.cons hl)
  induction h generalizing l l' with
  | nil =>
    unfold unwind
    simp only [hstill, hitems]
    split
    · exact ⟨hl.before, rfl⟩
    · exact ⟨hl.after, rfl⟩
  | cons hl' hchain ih =>
    unfold unwind
    simp only [hstill, hitems]
    split
    · exact ⟨hl.before, rfl⟩
    · exact ih hl' (hl'.after.position_eq_iff hl'.before) (items_eq_of_alike (hchain.cons hl'))

namespace Behaviour

structure Chain.Alike (s t : State) (x y : Chain) : Prop where
  current : State.Abreast s t x.current y.current
  last : x.last = y.last
  links : List.Forall₂ (Link.Alike s t) x.links y.links

/-- A round leaves separated lists that are abreast of each other as they were, or ends both. -/
theorem sepByRound_alike {s t : State} (hp : p.Uniform) (hsep : sep.Uniform) (h : s.Alike t)
    (x y : Chain) (hxy : Chain.Alike s t x y) : (sepByRound p sep x).Related
      (Round.Related (Chain.Alike s t) (Reply.Alike s t)) (sepByRound p sep y) := by
  obtain ⟨u, last, links⟩ := x
  obtain ⟨u', _, links'⟩ := y
  obtain ⟨hu, rfl, hlinks⟩ := hxy
  refine (hsep u u' (hu.alike h)).bind ?_
  rintro ⟨a, o⟩ ⟨a', _⟩ ⟨ha, rfl⟩
  cases o with
  | err e => exact related_pure (.done ⟨hu, by rw [Link.items_eq_of_alike hlinks]⟩)
  | ok w =>
    have ha' := hu.trans ha
    have hlink : Link.Alike s t ⟨last, u, a⟩ ⟨last, u', a'⟩ := ⟨rfl, hu, ha'⟩
    refine (hp a a' (ha'.alike h)).bind ?_
    rintro ⟨b, o⟩ ⟨b', _⟩ ⟨hb, rfl⟩
    cases o with
    | err e => exact related_pure (.done (Link.unwind_alike e hlink hlinks))
    | ok v =>
      have hb' := ha'.trans hb
      simp only [hb'.position_eq_iff hu]
      split
      · exact related_pure (.done ⟨hu, rfl⟩)
      · exact related_pure (.again ⟨hb', rfl, hlinks.cons hlink⟩)

theorem Uniform.sepBy1 (hp : p.Uniform) (hsep : sep.Uniform) : (p.sepBy1 sep).Uniform := by
  refine hp.bind fun v s t h => ?_
  rw [← h.rounds_eq]
  exact Related.iterate (sepByRound_alike hp hsep h) _ ⟨.refl s t, rfl, .nil⟩

end Behaviour

/-! ## All parsers -/

/-- A parser cannot tell alike states apart. -/
theorem eval_uniform (g : Grammar) (depth : Nat) (p : Parser) : (eval g depth p).Uniform := by
  induction depth generalizing p with
  | zero => exact fun s t _ => .tooDeep
  | succ depth ih =>
    cases p with
    | succeed v =>
      intro s t _
      rw [eval_succeed, eval_succeed]
      exact related_pure ⟨.refl s t, rfl⟩
    | fail e =>
      intro s t _
      rw [eval_fail, eval_fail]
      exact related_pure ⟨.refl s t, rfl⟩
    | anyChar =>
      intro s t h
      rw [eval_anyChar, eval_anyChar]
      exact related_pure (State.readChar_alike h)
    | endOfInput =>
      intro s t h
      rw [eval_endOfInput, eval_endOfInput]
      exact related_pure (State.readEnd_alike h)
    | text expected =>
      intro s t h
      rw [eval_text, eval_text]
      exact related_pure (State.readText_alike h _ _)
    | bind p f =>
      rw [eval_bind]
      exact .bind (ih p) fun v => ih (f v)
    | orElse p q =>
      rw [eval_orElse]
      exact .orElse (ih p) (ih q)
    | attempt p =>
      rw [eval_attempt]
      exact .attempt (ih p)
    | label e p =>
      rw [eval_label]
      exact .label (ih p) e
    | many p =>
      rw [eval_many]
      exact .many (ih p)
    | sepBy1 p sep =>
      rw [eval_sepBy1]
      exact .sepBy1 (ih p) (ih sep)
    | trace name p =>
      rw [eval_trace]
      exact .trace (ih p) name
    | rule name =>
      rw [eval_rule]
      exact ih (g name)
    | subrun p source =>
      intro s t _
      rw [eval_subrun, eval_subrun]
      -- the inner run has a text of its own and is the same from both states
      rcases (eval g depth p (.start source)).settle source.size with ⟨log, o | _ | _⟩
      · exact .returned ⟨.refl s t, rfl⟩
      · exact .tooDeep
      · exact .endless

theorem Replies.alike {g : Grammar} {p : Parser} {s t : State} {r r' : Reply} (h : s.Alike t)
    (hs : Replies g p s r) (ht : Replies g p t r') : Reply.Alike s t r r' :=
  let ⟨depth, hr, hr'⟩ := (hs.eventually.and ht.eventually).exists
  (eval_uniform g depth p s t h).results hr.ending hr'.ending

theorem Replies.leads {g : Grammar} {p : Parser} {s : State} {r : Reply} (h : Replies g p s r) :
    s.Leads r.state :=
  let ⟨depth, hr⟩ := h
  eval_leads g depth p s r hr.ending

/-! ## Text in front -/

theorem Source.charAt?_append (u t : String) {index : Int} (h : 0 ≤ index) :
    (Source.ofString (u ++ t)).charAt? (u.length + index) = (Source.ofString t).charAt? index := by
  have hindex : (u.length + index).toNat = u.toList.length + index.toNat := by
    rw [String.length_toList]
    omega
  unfold charAt? ofString
  rw [if_neg (by omega), if_neg (by omega), hindex, String.toList_append, List.getElem?_toArray,
    List.getElem?_toArray, List.getElem?_append_right (Nat.le_add_right ..), Nat.add_sub_cancel_left]

/-- A place in a text is alike to the same place with more text in front. -/
theorem State.alike_append (u t : String) {position : Int} (h : 0 ≤ position) :
    State.Alike ⟨u.length + position, .ofString (u ++ t)⟩ ⟨position, .ofString t⟩ where
  peek? n := by
    have hchar := Source.charAt?_append u t (by omega : 0 ≤ position + n)
    rw [← Int.add_assoc] at hchar
    exact hchar
  distance := by
    have hsize : (Source.ofString (u ++ t)).size = u.length + (Source.ofString t).size := by
      simp [Source.ofString, String.length_toList]
    show max (((Source.ofString (u ++ t)).size : Int) - (u.length + position)) (-1) =
      max (((Source.ofString t).size : Int) - position) (-1)
    omega

/-- A parser sees nothing but what is ahead. With `u` in front of the text, and from `u` characters
further on, it ends in the same manner and with the same outcome, `u` characters further on. And it ends
alike, after the same distance, from all places beyond the end, whatever the sources. -/
theorem eval_sees_only_ahead (g : Grammar) (depth : Nat) (p : Parser) :
    (∀ (u t : String) (position : Int), 0 ≤ position →
      (eval g depth p ⟨u.length + position, .ofString (u ++ t)⟩).Related
        (fun r r' : Reply =>
          r.outcome = r'.outcome ∧ r.state.position = r'.state.position + u.length)
        (eval g depth p ⟨position, .ofString t⟩)) ∧
      ∀ s t : State, s.source.size < s.position → t.source.size < t.position →
        (eval g depth p s).Related
          (fun r r' : Reply => r.outcome = r'.outcome ∧
            r.state.position - s.position = r'.state.position - t.position)
          (eval g depth p t) := by
  refine ⟨fun u t position h => ?_, fun s t hs ht => ?_⟩
  · refine (eval_uniform g depth p _ _ (State.alike_append u t h)).mono fun r r' hr => ?_
    obtain ⟨n, hstate, hstate'⟩ := hr.state
    refine ⟨hr.outcome, ?_⟩
    rw [hstate, hstate']
    show u.length + position + (n : Int) = position + n + u.length
    omega
  · refine (eval_uniform g depth p _ _ (State.alike_of_beyond hs ht)).mono fun r r' hr => ?_
    obtain ⟨n, hstate, hstate'⟩ := hr.state
    refine ⟨hr.outcome, ?_⟩
    rw [hstate, hstate', State.advance_position, State.advance_position]
    omega

/-- A list with a trailing separator, read behind another text as well, and the end of the input, read
beyond the ends of two texts. -/
theorem eval_sees_only_ahead_trailing_separator :
    let g : Grammar := fun _ => .fail .alternative
    let list : Parser := .sepBy1 (.char 'a') (.char '-')
    let ends : Parser := .bind .endOfInput fun _ => .endOfInput
    let s : State := ⟨3, .ofString "ab"⟩
    let t : State := ⟨7, .ofString "abc"⟩
    (0 : Int) ≤ 1 ∧ (s.source.size < s.position ∧ t.source.size < t.position) ∧
      (∃ r r', (eval g 5 list ⟨3, .ofString "xyba-a-"⟩).ending = .returned r ∧
        (eval g 5 list ⟨1, .ofString "ba-a-"⟩).ending = .returned r' ∧
        r.outcome = .err .aChar ∧ r'.outcome = .err .aChar ∧
        r.state.position = r'.state.position + 2) ∧
      ∃ r r', (eval g 5 ends s).ending = .returned r ∧ (eval g 5 ends t).ending = .returned r' ∧
        r.outcome = r'.outcome ∧ r.state.position - s.position = r'.state.position - t.position := by
  intro g list ends s t
  have hs : s.source.size < s.position := by decide
  have ht : t.source.size < t.position := by decide
  have hlist : (eval g 5 list ⟨3, .ofString "xyba-a-"⟩).ending =
      .returned ⟨⟨5, .ofString "xyba-a-"⟩, .err .aChar⟩ := by decide +kernel
  have hlist' : (eval g 5 list ⟨1, .ofString "ba-a-"⟩).ending =
      .returned ⟨⟨3, .ofString "ba-a-"⟩, .err .aChar⟩ := by decide +kernel
  have hends : (eval g 5 ends s).ending = .returned ⟨⟨5, s.source⟩, .ok .unit⟩ := by decide +kernel
  have hends' : (eval g 5 ends t).ending = .returned ⟨⟨9, t.source⟩, .ok .unit⟩ := by decide +kernel
  have hfront := (eval_sees_only_ahead g 5 list).1 "xy" "ba-a-" 1 (by decide)
  have hbeyond := (eval_sees_only_ahead g 5 ends).2 s t hs ht
  refine ⟨by decide, ⟨hs, ht⟩, ⟨_, _, hlist, hlist', rfl, rfl, (hfront.results hlist hlist').2⟩, ?_⟩
  exact ⟨_, _, hends, hends', hbeyond.results hends hends'⟩

end Descent
