import Mathlib.Data.List.TakeWhile
import Descent.Proofs.Repetition

/-!
# The characters ahead

`s.Before l` says that the characters from `s` to the end of the source are `l`; it ties the positions
that parsers work with to lists of characters, over which languages are defined. `s.past w` is the state
behind the characters `w`. In these terms a parser that reads one character of a class (`ReadsOne`)
is repeated over the longest run of that class (`ReadsOne.replies_many`).
-/

namespace Descent

open Descent.Parser

namespace State

/-- From `s` on, the characters of the source are `l`. -/
structure Before (s : State) (l : List Char) : Prop where
  inside : 0 ≤ s.position
  ahead : s.source.toList.drop s.position.toNat = l

/-- The state behind the characters `w`. -/
def past (s : State) (w : List Char) : State := s.advance w.length

variable {s : State} {c : Char} {l w rest : List Char}

@[simp] theorem past_nil (s : State) : s.past [] = s := by
  simp [past, advance]

theorem past_cons (s : State) (c : Char) (w : List Char) : s.past (c :: w) = (s.advance 1).past w := by
  simp only [past, advance, List.length_cons]
  congr 1
  omega

@[simp] theorem past_append (s : State) (v w : List Char) : s.past (v ++ w) = (s.past v).past w := by
  simp only [past, advance, List.length_append]
  congr 1
  omega

theorem past_position (s : State) (w : List Char) : (s.past w).position = s.position + w.length := rfl

theorem past_append_eq_iff : s.past (w ++ rest) = s.past w ↔ rest = [] := by
  constructor
  · intro h
    have hposition := congrArg State.position h
    rw [past_position, past_position, List.length_append] at hposition
    exact List.length_eq_zero_iff.1 (by omega)
  · rintro rfl
    rw [List.append_nil]

theorem before_start (source : Source) : (start source).Before source.toList := ⟨Int.le_refl 0, rfl⟩

theorem Before.past (h : s.Before (w ++ rest)) : (s.past w).Before rest := by
  obtain ⟨hinside, hahead⟩ := h
  refine ⟨by rw [past_position]; omega, ?_⟩
  have hpos : (s.past w).position.toNat = s.position.toNat + w.length := by
    rw [past_position]
    omega
  show s.source.toList.drop (s.past w).position.toNat = rest
  rw [hpos, ← List.drop_drop, hahead, List.drop_left]

theorem Before.advance (h : s.Before (c :: rest)) : (s.advance 1).Before rest :=
  Before.past (w := [c]) h

theorem Before.peek? (h : s.Before l) : s.peek? = l.head? := by
  have hinside := h.inside
  unfold State.peek? Source.charAt?
  rw [if_neg (by omega), ← h.ahead, List.head?_drop, Array.getElem?_toList]

theorem Before.atEnd_iff (h : s.Before l) : s.atEnd ↔ l = [] := by
  have hinside := h.inside
  rw [State.atEnd_iff, ← h.ahead, List.drop_eq_nil_iff, Array.length_toList]
  omega

/-- The characters from `s` to the end of the source; from outside the source there are none. -/
def following (s : State) : List Char :=
  if s.position < 0 then [] else s.source.toList.drop s.position.toNat

theorem before_following (h : 0 ≤ s.position) : s.Before s.following :=
  ⟨h, by rw [following, if_neg (by omega)]⟩

theorem head?_following (s : State) : s.following.head? = s.peek? := by
  by_cases hinside : 0 ≤ s.position
  · exact (before_following hinside).peek?.symm
  · unfold following peek? Source.charAt?
    rw [if_pos (by omega), if_pos (by omega)]
    rfl

theorem following_advance (h : s.following = c :: rest) : (s.advance 1).following = rest := by
  have hinside : 0 ≤ s.position := by
    by_contra houtside
    rw [following, if_pos (by omega)] at h
    cases h
  have hbefore : s.Before (c :: rest) := h ▸ before_following hinside
  have hafter := hbefore.advance
  have hafter' := before_following hafter.inside
  exact hafter'.ahead.symm.trans hafter.ahead

end State

variable {g : Grammar} {p : Parser} {s : State} {r : Reply} {c : Char} {pred : Char → Bool}
  {f : Char → Value} {l w rest : List Char}

/-! ## The end and single characters -/

theorem replies_endOfInput (h : s.Before []) :
    Replies g .endOfInput s ⟨s.advance 1, .ok .unit⟩ := by
  rw [replies_endOfInput_iff, State.readEnd, if_pos (h.atEnd_iff.2 rfl)]

theorem replies_endOfInput_err (h : s.Before l) (hl : l ≠ []) :
    Replies g .endOfInput s ⟨s, .err .endOfInput⟩ := by
  rw [replies_endOfInput_iff, State.readEnd, if_neg (mt h.atEnd_iff.1 hl)]

/-- A parser that has to come to the end fails where it leaves anything. -/
theorem Replies.seqLeft_endOfInput {t : State} {v : Value} (hp : Replies g p s ⟨t, .ok v⟩)
    (h : t.Before rest) : ∃ u, Replies g (p.seqLeft .endOfInput) s
      ⟨u, if rest = [] then .ok v else .err .endOfInput⟩ := by
  by_cases hrest : rest = []
  · rw [if_pos hrest]
    exact ⟨_, hp.seqLeft (replies_endOfInput (hrest ▸ h))⟩
  · rw [if_neg hrest]
    exact ⟨_, hp.seqLeft_err (replies_endOfInput_err h hrest)⟩

/-- A character is read before it is looked at, so a rejection stands behind it. -/
theorem replies_satisfy_iff : Replies g (satisfy pred) s r ↔ r = match s.peek? with
    | some c => if pred c then ⟨s.advance 1, .ok (.ofChar c)⟩ else ⟨s.advance 1, .err .satisfying⟩
    | none => ⟨s, .err .aChar⟩ := by
  simp only [satisfy, replies_bind_iff, replies_anyChar_iff, State.readChar]
  cases s.peek? with
  | none => simp
  | some c => by_cases hc : pred c <;> simp [hc, replies_succeed_iff, replies_fail_iff]

theorem eval_char_eq (g : Grammar) (n : Nat) (c : Char) (s : State) :
    eval g (n + 2) (char c) s = pure (match s.peek? with
      | some d => ⟨s.advance 1, if d = c then .ok .unit else .err (.theChar c)⟩
      | none => ⟨s, .err .aChar⟩) := by
  unfold char
  rw [eval_bind]
  unfold Behaviour.bind
  rw [eval_anyChar, pure_bind]
  unfold State.readChar
  cases s.peek? with
  | none => rfl
  | some d => by_cases hd : d = c <;> simp [hd, eval_succeed, eval_fail]

theorem replies_char_iff : Replies g (char c) s r ↔ r = match s.peek? with
    | some d => if d = c then ⟨s.advance 1, .ok .unit⟩ else ⟨s.advance 1, .err (.theChar c)⟩
    | none => ⟨s, .err .aChar⟩ := by
  simp only [char, replies_bind_iff, replies_anyChar_iff, State.readChar]
  cases s.peek? with
  | none => simp
  | some d => by_cases hd : d = c <;> simp [hd, replies_succeed_iff, replies_fail_iff]

/-- The characters `l` do not begin with one of the class. -/
def Stops (pred : Char → Bool) (l : List Char) : Prop := ∀ c ∈ l.head?, pred c = false

@[simp] theorem stops_nil (pred : Char → Bool) : Stops pred [] := by
  simp [Stops]

@[simp] theorem stops_cons_iff : Stops pred (c :: l) ↔ pred c = false := by
  simp [Stops]

theorem exists_cons_of_not_stops (h : ¬ Stops (· == c) l) : ∃ rest, l = c :: rest := by
  cases l with
  | nil => exact absurd (stops_nil _) h
  | cons d rest => exact ⟨rest, by simpa using h⟩

/-- `p` reads one character of a class and makes `f` of it, and fails where there is none. -/
structure ReadsOne (g : Grammar) (p : Parser) (pred : Char → Bool) (f : Char → Value) : Prop where
  accepts : ∀ {s c rest}, s.Before (c :: rest) → pred c → Replies g p s ⟨s.advance 1, .ok (f c)⟩
  rejects : ∀ {s l}, s.Before l → Stops pred l → ∃ t e, Replies g p s ⟨t, .err e⟩

theorem readsOne_satisfy (g : Grammar) (pred : Char → Bool) :
    ReadsOne g (satisfy pred) pred .ofChar where
  accepts h hc := by
    rw [replies_satisfy_iff, h.peek?]
    simp [hc]
  rejects {s l} h hstop := by
    simp only [replies_satisfy_iff, h.peek?]
    cases l with
    | nil => exact ⟨s, .aChar, rfl⟩
    | cons c rest =>
      rw [stops_cons_iff] at hstop
      exact ⟨s.advance 1, .satisfying, by simp [hstop]⟩

theorem readsOne_char (g : Grammar) (c : Char) : ReadsOne g (char c) (· == c) fun _ => .unit where
  accepts h hc := by
    rw [replies_char_iff, h.peek?]
    simpa using hc
  rejects {s l} h hstop := by
    simp only [replies_char_iff, h.peek?]
    cases l with
    | nil => exact ⟨s, .aChar, rfl⟩
    | cons d rest =>
      rw [stops_cons_iff] at hstop
      exact ⟨s.advance 1, .theChar c, by simpa using hstop⟩

/-! ## Runs of characters -/

theorem stops_dropWhile (pred : Char → Bool) (l : List Char) : Stops pred (l.dropWhile pred) := by
  intro c hc
  have hhead := List.head?_dropWhile_not pred l
  rw [Option.mem_def.1 hc] at hhead
  exact hhead

theorem exists_run (pred : Char → Bool) (l : List Char) :
    ∃ w rest, l = w ++ rest ∧ (∀ c ∈ w, pred c) ∧ Stops pred rest :=
  ⟨l.takeWhile pred, l.dropWhile pred, List.takeWhile_append_dropWhile.symm,
    fun _ => List.mem_takeWhile_imp, stops_dropWhile pred l⟩

theorem ReadsOne.repeats (hp : ReadsOne g p pred f) (h : s.Before (w ++ rest))
    (hw : ∀ c ∈ w, pred c) (hstop : Stops pred rest) : Repeats g p s (w.map f) (s.past w) := by
  induction w generalizing s with
  | nil =>
    obtain ⟨t, e, hfail⟩ := hp.rejects h hstop
    rw [State.past_nil]
    exact .stop hfail
  | cons c w ih =>
    have hrest := ih h.advance fun d hd => hw d (List.mem_cons_of_mem c hd)
    rw [State.past_cons]
    exact .more (hp.accepts h (hw c List.mem_cons_self)) hrest

theorem ReadsOne.replies_many (hp : ReadsOne g p pred f) (h : s.Before (w ++ rest))
    (hw : ∀ c ∈ w, pred c) (hstop : Stops pred rest) :
    Replies g (.many p) s ⟨s.past w, .ok (.list (w.map f))⟩ :=
  (hp.repeats h hw hstop).replies_many

theorem ReadsOne.replies_many1 (hp : ReadsOne g p pred f) (h : s.Before (c :: w ++ rest))
    (hw : ∀ d ∈ c :: w, pred d) (hstop : Stops pred rest) :
    Replies g (many1 p) s ⟨s.past (c :: w), .ok (.list ((c :: w).map f))⟩ :=
  (hp.repeats h hw hstop).replies_many1

theorem ReadsOne.replies_many1_err (hp : ReadsOne g p pred f) (h : s.Before l)
    (hstop : Stops pred l) : ∃ e, Replies g (many1 p) s ⟨s, .err e⟩ := by
  obtain ⟨t, e, hfail⟩ := hp.rejects h hstop
  exact ⟨e, hfail.bind_err⟩

end Descent
