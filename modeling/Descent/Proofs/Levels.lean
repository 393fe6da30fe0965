import Descent.Parser.Continuation
import Descent.Proofs.Limit
import Descent.Proofs.Termination

/-!
# Stack safety

A parser as it is written has a number of levels: each combinator and each continuation on the way to a
leaf is one, and the alternatives of a choice lie one below the other (`Parser.Levels`). Written out, a
combinator is at most three nodes on top of each other and a leaf at most two, so a parser without rules,
repetitions of known length and inner runs is hardly more than three times as high as it has levels
(`Parser.Levels.fits`).

Height is what bounds nesting, and it does so call by call: from one call to the next there is one level
less at hand, and one node less to come (`Causes.depth_lt`). The rounds of a loop all begin with as many
levels, so the number of items or of characters does not enter into it.
-/

namespace Descent

/-! ## Levels of parsers as they are written -/

mutual

/-- The parser has no rules, and no more than so many levels on any path; a leaf is none. -/
inductive Parser.Levels : Nat → Parser → Prop
  | succeed (n : Nat) (v : Value) : Parser.Levels n (.succeed v)
  | fail (n : Nat) (e : Expected) : Parser.Levels n (.fail e)
  | anyChar (n : Nat) : Parser.Levels n .anyChar
  | endOfInput (n : Nat) : Parser.Levels n .endOfInput
  | text (n : Nat) (expected : String) : Parser.Levels n (.text expected)
  | char (n : Nat) (c : Char) : Parser.Levels n (.char c)
  | satisfy (n : Nat) (pred : Char → Bool) : Parser.Levels n (.satisfy pred)
  | bind {n : Nat} {p : Parser} {f : Continuation} : Parser.Levels n p → Continuation.Levels n f →
      Parser.Levels (n + 1) (.bind p f)
  | seqRight {n : Nat} {p q : Parser} : Parser.Levels n p → Parser.Levels n q →
      Parser.Levels (n + 1) (.seqRight p q)
  | seqLeft {n : Nat} {p q : Parser} : Parser.Levels n p → Parser.Levels n q →
      Parser.Levels (n + 1) (.seqLeft p q)
  | both {n : Nat} {p q : Parser} : Parser.Levels n p → Parser.Levels n q →
      Parser.Levels (n + 1) (.both p q)
  | map {n : Nat} {p : Parser} (f : Value → Value) : Parser.Levels n p →
      Parser.Levels (n + 1) (.map f p)
  | replace {n : Nat} {p : Parser} (w : Value) : Parser.Levels n p →
      Parser.Levels (n + 1) (.replace w p)
  | discard {n : Nat} {p : Parser} : Parser.Levels n p → Parser.Levels (n + 1) (.discard p)
  | attempt {n : Nat} {p : Parser} : Parser.Levels n p → Parser.Levels (n + 1) (.attempt p)
  | label {n : Nat} {p : Parser} (e : Expected) : Parser.Levels n p →
      Parser.Levels (n + 1) (.label e p)
  | trace {n : Nat} {p : Parser} (name : String) : Parser.Levels n p →
      Parser.Levels (n + 1) (.trace name p)
  | orElse {n : Nat} {p q : Parser} : Parser.Levels n p → Parser.Levels n q →
      Parser.Levels (n + 1) (.orElse p q)
  | oneOfNil (n : Nat) : Parser.Levels n (.oneOf [])
  /-- The first alternative is one level down, and each of the others one below the one before it. -/
  | oneOfCons {n : Nat} {p : Parser} {ps : List Parser} : Parser.Levels n p →
      Parser.Levels n (.oneOf ps) → Parser.Levels (n + 1) (.oneOf (p :: ps))
  | many {n : Nat} {p : Parser} : Parser.Levels n p → Parser.Levels (n + 1) (.many p)
  | many1 {n : Nat} {p : Parser} : Parser.Levels n p → Parser.Levels (n + 1) (.many1 p)
  | sepBy1 {n : Nat} {p sep : Parser} : Parser.Levels n p → Parser.Levels n sep →
      Parser.Levels (n + 1) (.sepBy1 p sep)
  | sepBy {n : Nat} {p sep : Parser} : Parser.Levels n p → Parser.Levels n sep →
      Parser.Levels (n + 1) (.sepBy p sep)

/-- No parser that the continuation goes on with has rules, or more than so many levels on any path, one
of them for the continuation. -/
inductive Continuation.Levels : Nat → Continuation → Prop
  | yield (n : Nat) (f : Value → Value) : Continuation.Levels (n + 1) (.yield f)
  | reject (n : Nat) (reason : String) : Continuation.Levels (n + 1) (.reject reason)
  | again (n : Nat) : Continuation.Levels (n + 1) .again
  | proceed {n : Nat} {p : Parser} : Parser.Levels n p → Continuation.Levels (n + 1) (.proceed p)
  | keep {n : Nat} {p : Parser} : Parser.Levels n p → Continuation.Levels (n + 1) (.keep p)
  | ifEqual {n : Nat} {yes no : Parser} (w : Value) : Parser.Levels n yes → Parser.Levels n no →
      Continuation.Levels (n + 1) (.ifEqual w yes no)

end

mutual

/-- A combinator is at most three nodes high, and a leaf two. -/
theorem Parser.Levels.fits {n : Nat} {p : Parser} : p.Levels n → p.Fits (3 * n + 2)
  | .succeed _ _ | .fail _ _ | .anyChar _ | .endOfInput _ | .text _ _ | .oneOfNil _ => trivial
  | .char n c => by simp [Parser.char]
  | .satisfy n pred => by simp [Parser.satisfy]
  | .bind hp hf => ⟨hp.fits.raise 2, fun v => (hf.fits v).raise 2⟩
  | .seqRight hp hq => ⟨hp.fits.raise 2, fun _ => hq.fits.raise 2⟩
  | .seqLeft hp hq | .both hp hq => ⟨hp.fits.raise 2, fun _ => ⟨hq.fits.raise 1, fun _ => trivial⟩⟩
  | .map _ hp | .replace _ hp | .discard hp => ⟨hp.fits.raise 2, fun _ => trivial⟩
  | .attempt hp | .label _ hp | .trace _ hp | .many hp => hp.fits.raise 2
  | .orElse hp hq | .oneOfCons hp hq | .sepBy1 hp hq => ⟨hp.fits.raise 2, hq.fits.raise 2⟩
  | .many1 hp => ⟨hp.fits.raise 2, fun _ => ⟨hp.fits, fun _ => trivial⟩⟩
  | .sepBy hp hq => ⟨⟨hp.fits.raise 1, hq.fits.raise 1⟩, trivial, trivial⟩

theorem Continuation.Levels.fits {n : Nat} {f : Continuation} : f.Levels n → ∀ v, (f v).Fits (3 * n + 2)
  | .yield _ _ | .reject _ _ | .again _ => fun _ => trivial
  | .proceed hp => fun _ => hp.fits.raise 3
  | .keep hp => fun _ => ⟨hp.fits.raise 2, fun _ => trivial⟩
  | .ifEqual w hyes hno => fun v => by
    unfold Continuation.ifEqual
    split
    · exact hyes.fits.raise 3
    · exact hno.fits.raise 3

end

/-! ## From call to call -/

variable {g : Grammar} {c c' : Call}

theorem Part.fits {n : Nat} {p q : Parser} (h : Part g q p) (hp : p.Fits (n + 1)) : q.Fits n := by
  cases h with
  | bindFirst | orElseFirst | sepBy1Item => exact hp.1
  | bindNext _ _ v => exact hp.2 v
  | orElseSecond | sepBy1Separator => exact hp.2
  | attempt | label | many | trace | subrun => exact hp
  | rule => cases hp

/-- Behind any number of calls, as many levels have been taken as the parser has lost in height. -/
theorem Causes.fits {n : Nat} (h : Causes g c c') (hc : c.parser.Fits n) :
    ∃ m, c'.parser.Fits m ∧ c.depth + m = c'.depth + n := by
  induction h with
  | refl => exact ⟨n, hc, rfl⟩
  | tail _ hstep ih =>
    obtain ⟨m, hm, hsum⟩ := ih
    have hdepth := depth_eq_of_step hstep
    cases m with
    | zero => cases hm
    | succ m => exact ⟨m, (part_of_step hstep).fits hm, by omega⟩

theorem Causes.depth_lt {n : Nat} (h : Causes g c c') (hc : c.parser.Fits n) :
    c.depth < c'.depth + n := by
  obtain ⟨m, hm, hsum⟩ := h.fits hc
  cases m with
  | zero => cases hm
  | succ m => omega

/-! ## Runs -/

/-- The loops are safe for the stack. A parser with `n` levels on its deepest path takes no more than
`3 * n + 1` levels of nesting from wherever it starts, whatever the text and however often its loops go
round. So with up to a thousand levels on that path neither a run nor its log tells of nesting beyond the
limit; and if no item and no separator of a list reads the end of the input, the parser has a reply, whose
outcome is that of the run. -/
theorem run_stack_safe (g : Grammar) {n : Nat} {p : Parser} (hp : p.Levels n) (hn : n ≤ 1000)
    (text : String) :
    (∀ limit s c, Causes g ⟨limit, p, s⟩ c → limit < c.depth + 3 * n + 2) ∧ (run g p text).Shallow ∧
      (EndFreeLists g p → ∃ r, (eval g nestingLimit p (.start (.ofString text))).Gives r ∧
        (run g p text).Gives r.outcome) := by
  have hlimit : 3 * n + 2 ≤ nestingLimit := by
    unfold nestingLimit
    omega
  have hshallow : (eval g nestingLimit p (.start (.ofString text))).Shallow :=
    eval_shallow g hp.fits hlimit _
  refine ⟨fun limit s c h => h.depth_lt hp.fits, Evaluation.shallow_settle_iff.2 hshallow,
    fun hends => ?_⟩
  have hending : (eval g nestingLimit p (.start (.ofString text))).ending ≠ .endless :=
    EndFreeLists.ending_ne_endless (c := ⟨nestingLimit, p, .start (.ofString text)⟩) hends
  obtain ⟨r, hreturn, -⟩ | ⟨hdeep, -⟩ := settle_result?_of_ne_endless hending 0
  · have hgives : (eval g nestingLimit p (.start (.ofString text))).Gives r := ⟨hshallow, hreturn⟩
    exact ⟨r, hgives, hgives.settle _⟩
  · exact absurd hdeep hshallow.1

/-- Words of one letter, with the same character twice between them, whichever it is. The rounds of the
list and of its words take no more levels for a longer text. -/
theorem run_stack_safe_words :
    let g : Grammar := .rule
    let word : Parser := .many1 (.satisfy (· = 'a'))
    let twice : Parser := .bind .anyChar Continuation.again
    let p : Parser := .seqLeft (.sepBy word twice) .endOfInput
    let a : Value := .str "a"
    p.Levels 4 ∧ 4 ≤ 1000 ∧ EndFreeLists g p ∧
      (∀ limit s c, Causes g ⟨limit, p, s⟩ c → limit < c.depth + 3 * 4 + 2) ∧
      (run g p "aa,,a;;aaa").Shallow ∧
      ∃ r, (eval g nestingLimit p (.start (.ofString "aa,,a;;aaa"))).Gives r ∧
        r.outcome = .ok (.list [.list [a, a], .list [a], .list [a, a, a]]) := by
  intro g word twice p a
  have hlevels : p.Levels 4 :=
    .seqLeft (.sepBy (.many1 (.satisfy 1 _)) (.bind (.anyChar 1) (.again 0))) (.endOfInput 3)
  have hlimit : 4 ≤ 1000 := by decide
  have hfree : EndFree g word ∧ EndFree g twice := by
    constructor
    · exact endFree_of_all (by simp [g]) (by simp [word, Parser.many1, Parser.map, Parser.satisfy])
    · exact endFree_of_all (by simp [g]) (by simp [twice, Continuation.again])
  have hends : EndFreeLists g p := fun q sep h =>
    occurs_induction (P := fun r => ∀ q sep, r = .sepBy1 q sep → EndFree g q ∧ EndFree g sep)
      (by simp [g])
      (by simpa [p, word, twice, Parser.seqLeft, Parser.sepBy, Parser.many1, Parser.map, Parser.satisfy,
        Continuation.again] using hfree) h q sep rfl
  obtain ⟨hnesting, hshallow, hreturns⟩ := run_stack_safe g hlevels hlimit "aa,,a;;aaa"
  obtain ⟨r, hgives, houtcome⟩ := hreturns hends
  refine ⟨hlevels, hlimit, hends, hnesting, hshallow, r, hgives, ?_⟩
  have hrun : (run g p "aa,,a;;aaa").Gives (.ok (.list [.list [a, a], .list [a], .list [a, a, a]])) := by
    decide +kernel
  exact houtcome.unique hrun

end Descent
