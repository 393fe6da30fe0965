import Descent.NestedList
import Descent.Proofs.Brackets

/-!
# The language of nested lists

The grammar by which a text stands for a nested list, apart from any parser: a value is a numeral or a
list in brackets, with spaces after every token. The texts of values have as many closing brackets as
opening ones, so what follows a value is nested as deep as the value itself, and how deep a value is nested
can be told from any of its texts (`IsValue.isNested_iff`).
-/

namespace Descent.NestedList

open Descent.Text Brackets

def blanks (k : Nat) : List Char := List.replicate k ' '

mutual

/-- The characters are those of a value. -/
inductive IsValue : List Char → Value → Prop
  | number {digits : List Char} (k : Nat) : Numeral.isNumeral digits →
      IsValue (digits ++ blanks k) (.int (Numeral.value digits))
  | list {w : List Char} {vs : List Value} (j k : Nat) : IsItems w vs →
      IsValue ('[' :: blanks j ++ w ++ ']' :: blanks k) (.list vs)

inductive IsItems : List Char → List Value → Prop
  | none : IsItems [] []
  | some {w ws : List Char} {v : Value} {vs : List Value} : IsValue w v → IsTail ws vs →
      IsItems (w ++ ws) (v :: vs)

inductive IsTail : List Char → List Value → Prop
  | nil : IsTail [] []
  | cons {w ws : List Char} {v : Value} {vs : List Value} (k : Nat) : IsValue w v → IsTail ws vs →
      IsTail (',' :: blanks k ++ w ++ ws) (v :: vs)

end

/-- The characters are those of a value, after any number of spaces. -/
def IsDocument (text : List Char) (v : Value) : Prop :=
  ∃ k w, text = blanks k ++ w ∧ IsValue w v

variable {w ws l rest : List Char} {v : Value} {vs : List Value} {n k : Nat}

@[simp] theorem isDecimal_space : isDecimal ' ' = false := by decide

@[simp] theorem isDecimal_opening : isDecimal '[' = false := by decide

@[simp] theorem isDecimal_closing : isDecimal ']' = false := by decide

theorem IsValue.head (h : IsValue w v) : ∃ c rest, w = c :: rest ∧ (isDecimal c ∨ c = '[') := by
  cases h with
  | @number digits k hd =>
    cases digits with
    | nil => cases hd
    | cons d ds =>
      have hdigit : isDecimal d := (Numeral.isNumeral_iff.1 hd).2 d List.mem_cons_self
      exact ⟨d, ds ++ blanks k, rfl, .inl hdigit⟩
  | list => exact ⟨'[', _, rfl, .inr rfl⟩

/-! ## Brackets -/

def square : Brackets := ⟨'[', ']', by decide⟩

theorem balanced_blanks (k : Nat) : square.Balanced (blanks k) :=
  balanced_of_not_mem (by simp [blanks, square]) (by simp [blanks, square])

theorem balanced_comma_blanks (k : Nat) : square.Balanced (',' :: blanks k) :=
  balanced_of_not_mem (by simp [blanks, square]) (by simp [blanks, square])

theorem not_mem_of_isDecimal {digits : List Char} {c : Char} (h : ∀ d ∈ digits, isDecimal d)
    (hc : isDecimal c = false) : c ∉ digits := by
  intro hmem
  rw [h c hmem] at hc
  cases hc

theorem balanced_digits {digits : List Char} (h : ∀ c ∈ digits, isDecimal c) :
    square.Balanced digits :=
  balanced_of_not_mem (not_mem_of_isDecimal h isDecimal_opening)
    (not_mem_of_isDecimal h isDecimal_closing)

mutual

theorem IsValue.balanced : {w : List Char} → {v : Value} → IsValue w v → square.Balanced w
  | _, _, .number k hd =>
    (balanced_digits (Numeral.isNumeral_iff.1 hd).2).append (balanced_blanks k)
  | _, _, .list j k hitems => by
    have hinside := (balanced_blanks j).append hitems.balanced
    have h := hinside.enclosed.append (balanced_blanks k)
    simpa [square] using h

theorem IsItems.balanced : {w : List Char} → {vs : List Value} → IsItems w vs → square.Balanced w
  | _, _, .none => rfl
  | _, _, .some hv hvs => hv.balanced.append hvs.balanced

theorem IsTail.balanced : {w : List Char} → {vs : List Value} → IsTail w vs → square.Balanced w
  | _, _, .nil => rfl
  | _, _, .cons k hv hvs => ((balanced_comma_blanks k).append hv.balanced).append hvs.balanced

end

/-! ## Depth -/

/-- A natural number, or lists of them that go at most `n` deep. -/
inductive IsNested : Nat → Value → Prop
  | number {n : Nat} (m : Nat) : IsNested n (.int m)
  | list {n : Nat} {vs : List Value} : (∀ v ∈ vs, IsNested n v) → IsNested (n + 1) (.list vs)

mutual

/-- A value is nested as deep as brackets are open in its text. -/
theorem IsValue.isNested_iff : {w : List Char} → {v : Value} → IsValue w v → ∀ {n},
    IsNested n v ↔ square.OpensAtMost n w
  | _, _, @IsValue.number digits k hd, n => by
    have hnone : '[' ∉ digits ++ blanks k := by
      have hdigits : '[' ∉ digits := not_mem_of_isDecimal (Numeral.isNumeral_iff.1 hd).2 isDecimal_opening
      simpa [blanks] using hdigits
    exact ⟨fun _ => opensAtMost_of_not_mem hnone, fun _ => .number _⟩
  | _, _, @IsValue.list w vs j k hvs, n => by
    have hclose : ∀ {m}, square.OpensAtMost m (']' :: blanks k) :=
      opensAtMost_of_not_mem (by simp [blanks, square])
    have hinside : ∀ {m}, square.OpensAtMost m (blanks j ++ (w ++ ']' :: blanks k)) ↔
        ∀ v ∈ vs, IsNested m v := by
      intro m
      have hblanks : square.OpensAtMost m (blanks j) := opensAtMost_of_not_mem (by simp [blanks, square])
      rw [opensAtMost_append_iff (balanced_blanks j), opensAtMost_append_iff hvs.balanced,
        hvs.isNested_iff]
      simp [hblanks, hclose]
    rw [List.append_assoc, List.cons_append]
    constructor
    · intro hnested
      cases hnested with
      | list hall => exact (hinside.2 hall).inside
    · intro hopens
      obtain ⟨m, rfl, hm⟩ := hopens.opened
      exact .list (hinside.1 hm)

theorem IsItems.isNested_iff : {w : List Char} → {vs : List Value} → IsItems w vs → ∀ {n},
    (∀ v ∈ vs, IsNested n v) ↔ square.OpensAtMost n w
  | _, _, .none, n => by
    simp [opensAtMost_of_not_mem]
  | _, _, .some hv hvs, n => by
    rw [List.forall_mem_cons, hv.isNested_iff, hvs.isNested_iff, opensAtMost_append_iff hv.balanced]

theorem IsTail.isNested_iff : {w : List Char} → {vs : List Value} → IsTail w vs → ∀ {n},
    (∀ v ∈ vs, IsNested n v) ↔ square.OpensAtMost n w
  | _, _, .nil, n => by
    simp [opensAtMost_of_not_mem]
  | _, _, .cons k hv hvs, n => by
    have hcomma : square.OpensAtMost n (',' :: blanks k) := opensAtMost_of_not_mem (by simp [blanks, square])
    rw [List.forall_mem_cons, hv.isNested_iff, hvs.isNested_iff, List.append_assoc,
      opensAtMost_append_iff (balanced_comma_blanks k), opensAtMost_append_iff hv.balanced]
    simp [hcomma]

end

end Descent.NestedList
