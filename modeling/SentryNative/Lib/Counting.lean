import Mathlib.Algebra.BigOperators.Intervals
import Mathlib.Algebra.Order.BigOperators.Group.Finset
import Mathlib.Logic.Function.Basic

/-!
# Sums over cells

A quantity is counted over all cells of a memory; one cell is replaced, or one is
added at the end.
-/

namespace Counting

open Finset

variable {β : Type*}

/-- What one cell gives up and what the new one brings. -/
theorem sum_range_update (g : β → Nat) (f : Nat → β) {i n : Nat} (hi : i < n) (x : β) :
    ∑ j ∈ range n, g (Function.update f i x j) + g (f i) = ∑ j ∈ range n, g (f j) + g x := by
  have hmem : i ∈ range n := mem_range.mpr hi
  rw [← sum_erase_add _ _ hmem, ← sum_erase_add (range n) (fun j => g (f j)) hmem]
  have hrest : ∑ j ∈ (range n).erase i, g (Function.update f i x j) =
      ∑ j ∈ (range n).erase i, g (f j) := by
    apply sum_congr rfl
    intro j hj
    rw [Function.update_of_ne (ne_of_mem_erase hj)]
  rw [hrest, Function.update_self]
  omega

theorem sum_range_succ_update (g : β → Nat) (f : Nat → β) (n : Nat) (x : β) :
    ∑ j ∈ range (n + 1), g (Function.update f n x j) = ∑ j ∈ range n, g (f j) + g x := by
  rw [sum_range_succ, Function.update_self]
  congr 1
  apply sum_congr rfl
  intro j hj
  rw [Function.update_of_ne (Nat.ne_of_lt (mem_range.mp hj))]

/-- A cell counts at most as much as all of them. -/
theorem le_sum_range (g : β → Nat) (f : Nat → β) {i n : Nat} (hi : i < n) :
    g (f i) ≤ ∑ j ∈ range n, g (f j) :=
  single_le_sum (f := fun j => g (f j)) (fun _ _ => Nat.zero_le _) (mem_range.mpr hi)

theorem add_le_sum_range (g : β → Nat) (f : Nat → β) {i j n : Nat} (hi : i < n) (hj : j < n)
    (hne : i ≠ j) : g (f i) + g (f j) ≤ ∑ k ∈ range n, g (f k) := by
  rw [← sum_pair (f := fun k => g (f k)) hne]
  apply sum_le_sum_of_subset
  intro k hk
  rcases mem_insert.mp hk with rfl | hk
  · exact mem_range.mpr hi
  · exact mem_range.mpr (mem_singleton.mp hk ▸ hj)

theorem exists_of_sum_pos (g : β → Nat) (f : Nat → β) {n : Nat} (h : 0 < ∑ j ∈ range n, g (f j)) :
    ∃ i < n, 0 < g (f i) := by
  by_contra hall
  have hz : ∑ j ∈ range n, g (f j) = 0 := by
    apply sum_eq_zero
    intro j hj
    by_contra hne
    exact hall ⟨j, mem_range.mp hj, Nat.pos_of_ne_zero hne⟩
  omega

end Counting
