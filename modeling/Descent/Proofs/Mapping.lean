import Descent.Proofs.Sequencing
import Descent.Value.Operations

/-!
# Mapping

To apply a function to what a parser reads does two things to its reply. A value is replaced, and a failure is
reported where the parser started, for the parser is then the first step of a sequence (`eval_map`). The second
of these is what `attempt` does, and does alone (`eval_attempt_eq`). Both are functions of replies, so the laws
of mapping are laws of these functions: a failure that is back at the start stays there, and values are replaced
one function after the other.

Mapping the identity is therefore `attempt`, and not the parser itself, unless the parser has not moved where it
fails (`sameReplies_attempt_iff`). And in a choice a mapped parser lets the next alternative have its turn
whenever it fails.
-/

namespace Descent

open Evaluation Descent.Parser

namespace Reply

def map (f : Value → Value) : Reply → Reply
  | ⟨t, .ok v⟩ => ⟨t, .ok (f v)⟩
  | ⟨t, .err e⟩ => ⟨t, .err e⟩

def rewound (s : State) : Reply → Reply
  | ⟨t, .ok v⟩ => ⟨t, .ok v⟩
  | ⟨_, .err e⟩ => ⟨s, .err e⟩

variable (s : State) (f h : Value → Value) (r : Reply)

@[simp] theorem map_id : r.map id = r := by
  obtain ⟨t, v | e⟩ := r <;> rfl

@[simp] theorem map_map : (r.map f).map h = r.map (h ∘ f) := by
  obtain ⟨t, v | e⟩ := r <;> rfl

@[simp] theorem rewound_rewound : (r.rewound s).rewound s = r.rewound s := by
  obtain ⟨t, v | e⟩ := r <;> rfl

@[simp] theorem rewound_map : (r.map f).rewound s = (r.rewound s).map f := by
  obtain ⟨t, v | e⟩ := r <;> rfl

end Reply

variable {g : Grammar} {p q : Parser} {s t : State} {e : Expected} {l : Log} {n k : Nat}

/-! ## Evaluations -/

theorem eval_attempt_eq (g : Grammar) (n : Nat) (p : Parser) (s : State) :
    eval g (n + 1) (.attempt p) s = Reply.rewound s <$> eval g n p s := by
  rw [eval_attempt, map_eq_pure_bind]
  unfold Behaviour.attempt
  apply bind_congr
  rintro ⟨t, v | e⟩ <;> rfl

theorem eval_map (g : Grammar) (n : Nat) (p : Parser) (f : Value → Value) (s : State) :
    eval g (n + 1) (p.map f) s = (fun r => (r.rewound s).map f) <$> eval g n p s := by
  cases n with
  | zero => rfl
  | succ n =>
    unfold Parser.map
    rw [eval_bind, map_eq_pure_bind]
    unfold Behaviour.bind
    apply bind_congr
    rintro ⟨t, v | e⟩ <;> rfl

theorem eval_map_map (n : Nat) (f h : Value → Value) :
    eval g (n + 2) ((p.map f).map h) s = eval g (n + 1) (p.map (h ∘ f)) s := by
  simp only [eval_map, Functor.map_map, Reply.rewound_map, Reply.rewound_rewound, Reply.map_map]

theorem eval_map_id (n : Nat) : eval g (n + 1) (p.map id) s = eval g (n + 1) (.attempt p) s := by
  simp only [eval_map, eval_attempt_eq, Reply.map_id]

theorem eval_map_attempt (n : Nat) (f : Value → Value) :
    eval g (n + 2) ((attempt p).map f) s = eval g (n + 1) (p.map f) s := by
  simp only [eval_map, eval_attempt_eq, Functor.map_map, Reply.rewound_rewound]

theorem eval_attempt_map (n : Nat) (f : Value → Value) :
    eval g (n + 2) (attempt (p.map f)) s = eval g (n + 1) (p.map f) s := by
  simp only [eval_map, eval_attempt_eq, Functor.map_map, Reply.rewound_map, Reply.rewound_rewound]

theorem eval_oneOf_map_of_err (hp : eval g n p s = ⟨l, .returned ⟨t, .err e⟩⟩) (f : Value → Value)
    (qs : List Parser) :
    eval g (n + 2) (oneOf (p.map f :: qs)) s = (eval g (n + 1) (oneOf qs) s).after l := by
  have hmap : eval g (n + 1) (p.map f) s = ⟨l, .returned ⟨s, .err e⟩⟩ := by
    rw [eval_map, hp, map_eq_pure_bind, returned_bind]
    exact congrArg (Evaluation.mk · _) (List.append_nil l)
  exact eval_orElse_of_declines hmap (Reply.declines_start s e)

/-! ## Replies -/

/-- Evaluations that are the same, but for some levels that one of them takes more, have the same replies. -/
theorem sameReplies_of_eval_eq (k : Nat) (h : ∀ n, eval g (n + 1 + k) p s = eval g (n + 1) q s) :
    SameReplies g p q s := by
  intro r
  constructor
  · intro ⟨depth, hp⟩
    have hmore : eval g (depth + 1 + k) p s = eval g depth p s :=
      eval_approximates g (by omega) p s hp.shallow
    refine ⟨depth + 1, ?_⟩
    rw [← h, hmore]
    exact hp
  · intro ⟨depth, hq⟩
    have hmore : eval g (depth + 1) q s = eval g depth q s :=
      eval_approximates g (by omega) q s hq.shallow
    refine ⟨depth + 1 + k, ?_⟩
    rw [h, hmore]
    exact hq

theorem sameReplies_attempt_iff : SameReplies g (.attempt p) p s ↔
    ¬ ∃ t e, Replies g p s ⟨t, .err e⟩ ∧ t.position ≠ s.position := by
  constructor
  · intro hsame ⟨t, e, hp, hmoved⟩
    have hstart : Replies g p s ⟨s, .err e⟩ :=
      (hsame _).1 (replies_attempt_iff.2 (.inr ⟨t, e, hp, rfl⟩))
    cases hp.unique hstart
    exact hmoved rfl
  · intro hstays r
    have heq : ∀ {t e}, Replies g p s ⟨t, .err e⟩ → t = s := by
      intro t e hp
      by_contra hne
      exact hstays ⟨t, e, hp, fun hstill => hne (hp.leads.eq_of_position hstill)⟩
    rw [replies_attempt_iff]
    constructor
    · rintro (⟨t, v, hp, rfl⟩ | ⟨t, e, hp, rfl⟩)
      · exact hp
      · rwa [heq hp] at hp
    · intro hp
      obtain ⟨t, v | e⟩ := r
      · exact .inl ⟨t, v, hp, rfl⟩
      · exact .inr ⟨t, e, hp, by rw [heq hp]⟩

/-- Mapping twice is mapping the composition. Mapping the identity, and going on with nothing but the value, are
what `attempt` is; they leave the parser as it is exactly where it does not fail at another position. To
attempt before or behind a mapping adds nothing to it. Behind a mapped parser, a choice goes on after every
failure: the other alternatives are evaluated from where the choice started. -/
theorem map_laws_with_rewinding (g : Grammar) (p : Parser) (f h : Value → Value) (s : State) :
    SameReplies g ((p.map f).map h) (p.map (h ∘ f)) s ∧
      (SameReplies g (p.map id) (.attempt p) s ∧ SameReplies g (.bind p .succeed) (.attempt p) s) ∧
      (SameReplies g ((attempt p).map f) (p.map f) s ∧ SameReplies g (attempt (p.map f)) (p.map f) s) ∧
      (SameReplies g (.bind p .succeed) p s ↔
        ¬ ∃ t e, Replies g p s ⟨t, .err e⟩ ∧ t.position ≠ s.position) ∧
      ∀ (qs : List Parser) (n : Nat) (l : Log) (t : State) (e : Expected),
        eval g n p s = ⟨l, .returned ⟨t, .err e⟩⟩ →
        eval g (n + 2) (oneOf (p.map f :: qs)) s = (eval g (n + 1) (oneOf qs) s).after l := by
  have hid : SameReplies g (p.map id) (.attempt p) s := sameReplies_of_eval_eq 0 eval_map_id
  have hpure : SameReplies g (.bind p .succeed) (.attempt p) s := hid
  refine ⟨sameReplies_of_eval_eq 1 fun n => eval_map_map n f h, ⟨hid, hpure⟩,
    ⟨sameReplies_of_eval_eq 1 fun n => eval_map_attempt n f,
      sameReplies_of_eval_eq 1 fun n => eval_attempt_map n f⟩, ?_,
    fun qs n l t e hp => eval_oneOf_map_of_err hp f qs⟩
  rw [← sameReplies_attempt_iff]
  exact ⟨fun hsame => hpure.symm.trans hsame, fun hsame => hpure.trans hsame⟩

/-- A character that is not there, and has been passed: mapped, it lets the next alternative read the one that
is. -/
theorem map_laws_with_rewinding_moved :
    let g : Grammar := .rule
    let s : State := .start #['b']
    let p : Parser := .trace "first" (.char 'a')
    let l : Log := [.trying "first" s, .failed "first" (s.advance 1) (.theChar 'a')]
    eval g 3 p s = ⟨l, .returned ⟨s.advance 1, .err (.theChar 'a')⟩⟩ ∧
      ¬ SameReplies g (.bind p .succeed) p s ∧
      eval g 5 (oneOf [p.map Value.singleton, .anyChar]) s =
        (eval g 4 (oneOf [.anyChar]) s).after l := by
  intro g s p l
  have hp : eval g 3 p s = ⟨l, .returned ⟨s.advance 1, .err (.theChar 'a')⟩⟩ := by decide +kernel
  have hreply : Replies g p s ⟨s.advance 1, .err (.theChar 'a')⟩ := ⟨3, by decide +kernel⟩
  have hmoved : (s.advance 1).position ≠ s.position := by decide
  obtain ⟨-, -, -, hleft, hchoice⟩ := map_laws_with_rewinding g p Value.singleton Value.reverse s
  refine ⟨hp, fun hsame => ?_, hchoice [.anyChar] 3 l _ _ hp⟩
  exact hleft.1 hsame ⟨_, _, hreply, hmoved⟩

end Descent
