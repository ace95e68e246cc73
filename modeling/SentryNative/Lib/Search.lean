import Mathlib.Data.Nat.Basic
import Mathlib.Order.Basic

/-!
# Binary search

The first index of a range at which a predicate that holds up to some point fails.
-/

namespace CLib

/-- The search loop over `[lo, hi)`; a round more than halves it, so the length is enough fuel. -/
def partitionPoint (below : Nat → Bool) : Nat → Nat → Nat → Nat
  | 0, lo, _ => lo
  | n + 1, lo, hi =>
    if lo < hi then
      let mid := lo + (hi - lo) / 2
      if below mid then partitionPoint below n (mid + 1) hi else partitionPoint below n lo mid
    else lo

/-- All indices before the result satisfy the predicate, and none from it on. -/
theorem partitionPoint_spec {below : Nat → Bool} {n lo hi : Nat} (hn : hi - lo ≤ n) (hle : lo ≤ hi)
    (hmono : ∀ i j, i ≤ j → j < hi → below j = true → below i = true) :
    lo ≤ partitionPoint below n lo hi ∧ partitionPoint below n lo hi ≤ hi ∧
      (∀ i, lo ≤ i → i < partitionPoint below n lo hi → below i = true) ∧
      ∀ i, partitionPoint below n lo hi ≤ i → i < hi → below i = false := by
  induction n generalizing lo hi with
  | zero =>
    have heq : lo = hi := by omega
    subst heq
    exact ⟨Nat.le_refl _, Nat.le_refl _, fun i h h' => absurd h' (by unfold partitionPoint; omega),
      fun i h h' => absurd h (by unfold partitionPoint; omega)⟩
  | succ n ih =>
    unfold partitionPoint
    by_cases hlt : lo < hi
    · rw [if_pos hlt]
      dsimp only
      by_cases hbelow : below (lo + (hi - lo) / 2) = true
      · rw [if_pos hbelow]
        obtain ⟨h1, h2, h3, h4⟩ := @ih (lo + (hi - lo) / 2 + 1) hi (by omega) (by omega) hmono
        refine ⟨by omega, h2, ?_, h4⟩
        intro i hi' hi''
        by_cases hmid : i ≤ lo + (hi - lo) / 2
        · exact hmono i _ hmid (by omega) hbelow
        · exact h3 i (by omega) hi''
      · rw [if_neg hbelow]
        obtain ⟨h1, h2, h3, h4⟩ := @ih lo (lo + (hi - lo) / 2) (by omega) (by omega)
          fun i j hij hj => hmono i j hij (by omega)
        refine ⟨h1, by omega, h3, ?_⟩
        intro i hi' hi''
        by_cases hmid : i < lo + (hi - lo) / 2
        · exact h4 i hi' hmid
        · by_contra htrue
          exact hbelow (hmono _ i (by omega) hi'' (by simpa using htrue))
    · rw [if_neg hlt]
      exact ⟨Nat.le_refl _, hle, fun i h h' => absurd h' (by omega), fun i h h' => absurd h (by omega)⟩

end CLib
