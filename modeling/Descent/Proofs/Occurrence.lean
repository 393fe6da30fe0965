import Mathlib.Logic.Relation
import Descent.Parser

/-!
# What occurs in a parser

The parts of a parser are its operands, the parsers that may follow a value, and the parser behind a
rule; what occurs in it are its parts, their parts and so on. A grammar may be recursive, so a parser
may occur in itself. `occurs_induction` shows something of all that occurs in a parser by looking once
at the nodes of the parser and of each rule.
-/

namespace Descent

/-- `Part g q p`: `q` is an operand of `p`, may follow a value of `p`, or is the rule that `p` names. -/
inductive Part (g : Grammar) : Parser → Parser → Prop
  | bindFirst (p : Parser) (f : Value → Parser) : Part g p (.bind p f)
  | bindNext (p : Parser) (f : Value → Parser) (v : Value) : Part g (f v) (.bind p f)
  | orElseFirst (p q : Parser) : Part g p (.orElse p q)
  | orElseSecond (p q : Parser) : Part g q (.orElse p q)
  | attempt (p : Parser) : Part g p (.attempt p)
  | label (e : Expected) (p : Parser) : Part g p (.label e p)
  | many (p : Parser) : Part g p (.many p)
  | sepBy1Item (p sep : Parser) : Part g p (.sepBy1 p sep)
  | sepBy1Separator (p sep : Parser) : Part g sep (.sepBy1 p sep)
  | trace (name : String) (p : Parser) : Part g p (.trace name p)
  | rule (name : String) : Part g (g name) (.rule name)
  | subrun (p : Parser) (source : Source) : Part g p (.subrun p source)

/-- `Occurs g q p`: `q` is `p`, or a part of `p`, or a part of a part, and so on. -/
def Occurs (g : Grammar) : Parser → Parser → Prop := Relation.ReflTransGen (Part g)

variable {g : Grammar} {p q r : Parser}

theorem Occurs.refl (g : Grammar) (p : Parser) : Occurs g p p := Relation.ReflTransGen.refl

theorem Occurs.ofPart (h : Occurs g r q) (hq : Part g q p) : Occurs g r p := h.tail hq

/-- The end of the input is not read anywhere in the parser. -/
def EndFree (g : Grammar) (p : Parser) : Prop := ¬ Occurs g .endOfInput p

/-- Every node of a parser fulfils `P`; rules are not followed. -/
@[simp] def Parser.All (P : Parser → Prop) : Parser → Prop
  | .bind p f => P (.bind p f) ∧ p.All P ∧ ∀ v, (f v).All P
  | .orElse p q => P (.orElse p q) ∧ p.All P ∧ q.All P
  | .attempt p => P (.attempt p) ∧ p.All P
  | .label e p => P (.label e p) ∧ p.All P
  | .many p => P (.many p) ∧ p.All P
  | .sepBy1 p sep => P (.sepBy1 p sep) ∧ p.All P ∧ sep.All P
  | .trace name p => P (.trace name p) ∧ p.All P
  | .subrun p source => P (.subrun p source) ∧ p.All P
  | p => P p

@[simp] theorem Parser.all_ite {P : Parser → Prop} {c : Prop} [Decidable c] :
    (if c then p else q).All P ↔ if c then p.All P else q.All P := by
  split <;> rfl

theorem Parser.All.self {P : Parser → Prop} (h : p.All P) : P p := by
  cases p with
  | bind | orElse | attempt | label | many | sepBy1 | trace | subrun => exact h.1
  | _ => exact h

theorem Parser.All.part {P : Parser → Prop} (hg : ∀ name, (g name).All P) (h : p.All P)
    (hq : Part g q p) : q.All P := by
  cases hq with
  | bindFirst | orElseFirst | sepBy1Item => exact h.2.1
  | bindNext _ _ v => exact h.2.2 v
  | orElseSecond | sepBy1Separator => exact h.2.2
  | attempt | label | many | trace | subrun => exact h.2
  | rule name => exact hg name

/-- What holds of all nodes of a parser and of every rule holds of all that occurs in the parser. -/
theorem occurs_induction {P : Parser → Prop} (hg : ∀ name, (g name).All P) (hp : p.All P)
    (h : Occurs g q p) : P q := by
  induction h with
  | refl => exact hp.self
  | tail _ hpart ih => exact ih (hp.part hg hpart)

theorem endFree_of_all (hg : ∀ name, (g name).All (· ≠ .endOfInput))
    (hp : p.All (· ≠ .endOfInput)) : EndFree g p :=
  fun hocc => occurs_induction hg hp hocc rfl

end Descent
