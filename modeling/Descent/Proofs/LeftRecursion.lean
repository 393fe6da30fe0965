import Descent.Proofs.Limit

/-!
# Left recursion

Whatever else a combinator does, it begins by applying its first operand, in the state where it is applied
itself, and a rule begins with its parser. A rule that comes back to itself through first operands alone
(`LeftRecursive`) is therefore applied over and over in one state, each time with fewer levels, until there
are none. What stands in between may recover from failures or repeat them, but not from this: no limit is
high enough, and every run of the rule ends with the failure to nest shallower.
-/

namespace Descent

/-- `Leading g q p`: applying `p` begins with applying `q` in the same state. The combinators that are made
of these have their own first operand in the first position, a choice its first alternative. -/
inductive Leading (g : Grammar) : Parser → Parser → Prop
  | bind (p : Parser) (f : Value → Parser) : Leading g p (.bind p f)
  | orElse (p q : Parser) : Leading g p (.orElse p q)
  | attempt (p : Parser) : Leading g p (.attempt p)
  | label (e : Expected) (p : Parser) : Leading g p (.label e p)
  | many (p : Parser) : Leading g p (.many p)
  | sepBy1 (p sep : Parser) : Leading g p (.sepBy1 p sep)
  | trace (name : String) (p : Parser) : Leading g p (.trace name p)
  | rule (name : String) : Leading g (g name) (.rule name)

/-- The parser of the rule comes to the rule again through first positions only. -/
def LeftRecursive (g : Grammar) (name : String) : Prop :=
  Relation.ReflTransGen (Leading g) (.rule name) (g name)

variable {g : Grammar} {p q : Parser} {name : String}

theorem leading_sepBy (g : Grammar) (p sep : Parser) :
    Relation.ReflTransGen (Leading g) p (.sepBy p sep) :=
  .tail (.single (.sepBy1 p sep)) (.orElse _ _)

theorem Leading.enters (h : Leading g q p) (n : Nat) (s : State) :
    ∃ K, Enters g ⟨n + 1, p, s⟩ K ⟨n, q, s⟩ := by
  cases h with
  | bind _ f => exact ⟨_, .bindFirst n q f s⟩
  | orElse _ r => exact ⟨_, .orElseFirst n q r s⟩
  | attempt => exact ⟨_, .attempt n q s⟩
  | label e => exact ⟨_, .label n e q s⟩
  | many =>
    have hstart : Evaluation.Turns (Behaviour.manyRound (eval g n q)) 0 ⟨s, []⟩ [] ⟨s, []⟩ := .start _
    have hrounds : 0 + (s.rounds - 1 + 1) = s.rounds := by
      unfold State.rounds
      omega
    exact ⟨_, .many hstart hrounds⟩
  | sepBy1 _ sep => exact ⟨_, .sepBy1First n q sep s⟩
  | trace name => exact ⟨_, .trace n name q s⟩
  | rule name => exact ⟨_, .rule n name s⟩

/-- On the way from a left recursive rule to itself there is always something in the first position that
is on the way as well. -/
theorem LeftRecursive.exists_leading (h : LeftRecursive g name)
    (hp : Relation.ReflTransGen (Leading g) (.rule name) p) :
    ∃ q, Leading g q p ∧ Relation.ReflTransGen (Leading g) (.rule name) q := by
  rcases hp.cases_tail with rfl | ⟨q, hq, hlead⟩
  · exact ⟨g name, .rule name, h⟩
  · exact ⟨q, hlead, hq⟩

/-- By induction on the levels: each step along the cycle takes one. -/
theorem LeftRecursive.reaches (h : LeftRecursive g name) (depth : Nat)
    (hp : Relation.ReflTransGen (Leading g) (.rule name) p) (s : State) :
    ∃ K c, Reaches g ⟨depth, p, s⟩ K c ∧ c.depth = 0 := by
  induction depth generalizing p with
  | zero => exact ⟨.hole, _, .here _, rfl⟩
  | succ n ih =>
    obtain ⟨q, hlead, hq⟩ := h.exists_leading hp
    obtain ⟨K, henters⟩ := hlead.enters n s
    obtain ⟨K', c, hreaches, hzero⟩ := ih hq
    exact ⟨K.comp K', c, .through henters hreaches, hzero⟩

/-- A run of a left recursive rule fails to nest shallower, on every text. Nothing between the rule and
itself recovers: from no state, and within no number of levels, has the rule a reply. -/
theorem run_of_leftRecursive (h : LeftRecursive g name) (text : String) :
    (run g (.rule name) text).result? = some (.err .shallowerNesting) ∧
      ∀ depth s, (eval g depth (.rule name) s).ending = .tooDeep := by
  constructor
  · obtain ⟨K, c, hreaches, hzero⟩ := h.reaches nestingLimit .refl (.start (.ofString text))
    rw [run, runWithin_of_exceeds hreaches hzero]
    rfl
  · intro depth s
    obtain ⟨K, c, hreaches, hzero⟩ := h.reaches depth .refl s
    exact tooDeep_iff_reaches.2 ⟨K, c, hreaches, hzero⟩

/-- Sums that begin with a list of products, which begin with sums, behind combinators that repeat and
recover. -/
theorem run_of_leftRecursive_sums :
    let g : Grammar := .ofList
      [("sum", .oneOf [.label (.named "sum") (.both (.rule "product") (.char '+')), .anyChar]),
        ("product", .sepBy (.many1 (.discard (.attempt (.trace "t" (.rule "sum"))))) (.char '*'))]
    LeftRecursive g "sum" ∧
      (run g (.rule "sum") "1+2*3").result? = some (.err .shallowerNesting) ∧
      ∀ depth s, (eval g depth (.rule "sum") s).ending = .tooDeep := by
  intro g
  have hproduct : Relation.ReflTransGen (Leading g) (.rule "sum") (.rule "product") := by
    refine .tail (.trans ?_ (leading_sepBy g _ (.char '*'))) (.rule "product")
    exact .tail (.tail (.tail (.single (.trace "t" (.rule "sum"))) (.attempt _)) (.bind _ _)) (.bind _ _)
  have hsum : LeftRecursive g "sum" :=
    .tail (.tail (.tail hproduct (.bind _ _)) (.label (.named "sum") _)) (.orElse _ _)
  exact ⟨hsum, run_of_leftRecursive hsum "1+2*3"⟩

end Descent
