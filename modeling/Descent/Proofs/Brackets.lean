import Mathlib.Data.Finset.Lattice.Fold
import Mathlib.Data.Finset.Range
import Mathlib.Order.Lattice.Nat

/-!
# Brackets

How many brackets of one kind are open at the places of a text. A text is nested as deep as it opens
brackets at once (`Brackets.depth`), and every bound on that is a bound on its prefixes
(`Brackets.depth_le_iff`): what holds of the depth of a text made of others is read off from what holds
of their prefixes.
-/

namespace Descent

structure Brackets where
  opening : Char
  closing : Char
  distinct : opening ≠ closing

namespace Brackets

/-- As many brackets are closed as are opened. -/
def Balanced (b : Brackets) (w : List Char) : Prop := w.count b.opening = w.count b.closing

/-- No prefix has more than `n` more opening brackets than closing ones. -/
def OpensAtMost (b : Brackets) (n : Nat) (l : List Char) : Prop :=
  ∀ start, start <+: l → start.count b.opening ≤ start.count b.closing + n

/-- The greatest number of brackets that are open at once. -/
def depth (b : Brackets) (w : List Char) : Nat :=
  (Finset.range (w.length + 1)).sup fun k => (w.take k).count b.opening - (w.take k).count b.closing

variable {b : Brackets} {w l rest : List Char} {ws : List (List Char)} {n : Nat}

/-! ## Balance -/

theorem balanced_nil (b : Brackets) : b.Balanced [] := rfl

theorem balanced_of_not_mem (hopen : b.opening ∉ w) (hclose : b.closing ∉ w) : b.Balanced w := by
  rw [Balanced, List.count_eq_zero_of_not_mem hopen, List.count_eq_zero_of_not_mem hclose]

theorem Balanced.append (hw : b.Balanced w) (hrest : b.Balanced rest) : b.Balanced (w ++ rest) := by
  unfold Balanced at *
  rw [List.count_append, List.count_append]
  omega

theorem balanced_flatten (hws : ∀ w ∈ ws, b.Balanced w) : b.Balanced ws.flatten := by
  induction ws with
  | nil => exact balanced_nil b
  | cons w ws ih =>
    obtain ⟨hw, hws⟩ := List.forall_mem_cons.1 hws
    exact hw.append (ih hws)

theorem Balanced.enclosed (hw : b.Balanced w) : b.Balanced (b.opening :: w ++ [b.closing]) := by
  unfold Balanced at *
  simp [hw, b.distinct, b.distinct.symm]

/-! ## Open brackets -/

theorem opensAtMost_of_count_le (h : l.count b.opening ≤ n) : b.OpensAtMost n l := by
  intro start hstart
  have hcount := hstart.sublist.count_le b.opening
  omega

theorem opensAtMost_of_not_mem (h : b.opening ∉ l) : b.OpensAtMost n l := by
  apply opensAtMost_of_count_le
  rw [List.count_eq_zero_of_not_mem h]
  exact Nat.zero_le n

theorem OpensAtMost.of_prefix (h : b.OpensAtMost n l) (hw : w <+: l) : b.OpensAtMost n w :=
  fun start hstart => h start (hstart.trans hw)

theorem OpensAtMost.behind (h : b.OpensAtMost n (w ++ rest)) (hw : b.Balanced w) :
    b.OpensAtMost n rest := by
  intro start hstart
  have hall := h (w ++ start) ((List.prefix_append_right_inj w).2 hstart)
  unfold Balanced at hw
  rw [List.count_append, List.count_append] at hall
  omega

theorem opensAtMost_append_iff (hw : b.Balanced w) :
    b.OpensAtMost n (w ++ rest) ↔ b.OpensAtMost n w ∧ b.OpensAtMost n rest := by
  refine ⟨fun h => ⟨h.of_prefix (List.prefix_append w rest), h.behind hw⟩, ?_⟩
  rintro ⟨hopens, hrest⟩ start hstart
  rcases List.prefix_or_prefix_of_prefix hstart (List.prefix_append w rest) with hinside | ⟨tail, rfl⟩
  · exact hopens start hinside
  · have htail := hrest tail ((List.prefix_append_right_inj w).1 hstart)
    unfold Balanced at hw
    rw [List.count_append, List.count_append]
    omega

theorem OpensAtMost.opened (h : b.OpensAtMost n (b.opening :: l)) :
    ∃ m, n = m + 1 ∧ b.OpensAtMost m l := by
  have hone : 1 ≤ n := by
    simpa [b.distinct] using h [b.opening] (List.prefix_append [b.opening] l)
  refine ⟨n - 1, by omega, fun start hstart => ?_⟩
  have hall := h (b.opening :: start) (List.cons_prefix_cons.2 ⟨rfl, hstart⟩)
  rw [List.count_cons_self, List.count_cons_of_ne b.distinct] at hall
  omega

theorem OpensAtMost.inside (h : b.OpensAtMost n l) : b.OpensAtMost (n + 1) (b.opening :: l) := by
  intro start hstart
  rcases List.prefix_cons_iff.1 hstart with rfl | ⟨start, rfl, hinside⟩
  · exact Nat.zero_le _
  · have hall := h start hinside
    rw [List.count_cons_self, List.count_cons_of_ne b.distinct]
    omega

/-! ## Depth -/

theorem depth_le_iff : b.depth w ≤ n ↔ b.OpensAtMost n w := by
  rw [depth, Finset.sup_le_iff]
  constructor
  · intro h start hstart
    have hlength := hstart.length_le
    have hopen := h start.length (Finset.mem_range.2 (by omega))
    rw [← List.prefix_iff_eq_take.1 hstart] at hopen
    omega
  · intro h k _
    have hopen := h (w.take k) (List.take_prefix k w)
    omega

instance : Decidable (b.OpensAtMost n w) := decidable_of_iff _ depth_le_iff

theorem depth_append (hw : b.Balanced w) : b.depth (w ++ rest) = max (b.depth w) (b.depth rest) := by
  refine eq_of_forall_ge_iff fun n => ?_
  rw [max_le_iff, depth_le_iff, depth_le_iff, depth_le_iff]
  exact opensAtMost_append_iff hw

theorem depth_flatten (hws : ∀ w ∈ ws, b.Balanced w) :
    b.depth ws.flatten = (ws.map b.depth).foldr max 0 := by
  induction ws with
  | nil => rfl
  | cons w ws ih =>
    obtain ⟨hw, hws⟩ := List.forall_mem_cons.1 hws
    rw [List.flatten_cons, depth_append hw, ih hws]
    rfl

theorem depth_enclosed (hw : b.Balanced w) :
    b.depth (b.opening :: w ++ [b.closing]) = b.depth w + 1 := by
  have hclose : ∀ m, b.OpensAtMost m (w ++ [b.closing]) ↔ b.OpensAtMost m w := by
    intro m
    have hlast : b.OpensAtMost m [b.closing] := opensAtMost_of_not_mem (by simpa using b.distinct)
    rw [opensAtMost_append_iff hw]
    exact and_iff_left hlast
  refine eq_of_forall_ge_iff fun n => ?_
  rw [depth_le_iff]
  constructor
  · intro h
    obtain ⟨m, rfl, hm⟩ := OpensAtMost.opened h
    have hle : b.depth w ≤ m := depth_le_iff.2 ((hclose m).1 hm)
    omega
  · intro h
    obtain ⟨m, rfl⟩ : ∃ m, n = m + 1 := ⟨n - 1, by omega⟩
    have hm : b.OpensAtMost m w := depth_le_iff.1 (by omega)
    exact ((hclose m).2 hm).inside

end Brackets

end Descent
