import Mathlib.Algebra.GroupWithZero.Nat
import Mathlib.Data.Finset.Card
import Mathlib.Order.Interval.Finset.Nat

/-!
# Addresses

Arithmetic on 64-bit words, as the machine does it and with an error where it wraps around, and
ranges of addresses that lie apart.
-/

namespace CLib

/-- The number of values of a 64-bit word. -/
def wordCount : Nat := 2 ^ 64

theorem wordCount_eq : wordCount = 18446744073709551616 := rfl

/-- How a word is computed; nothing for an error. -/
structure Arith where
  add : Nat → Nat → Option Nat
  sub : Nat → Nat → Option Nat
  mul : Nat → Nat → Option Nat

namespace Arith

/-- What the machine computes. -/
def machine : Arith where
  add a b := some ((a + b) % wordCount)
  sub a b := some ((a + (wordCount - b)) % wordCount)
  mul a b := some (a * b % wordCount)

/-- The same, with an error where it wraps around. -/
def checked : Arith where
  add a b := if a + b < wordCount then some (a + b) else none
  sub a b := if b ≤ a then some (a - b) else none
  mul a b := if a * b < wordCount then some (a * b) else none

/-- Results that are words are exact. -/
structure Exact (A : Arith) : Prop where
  add {a b : Nat} : a + b < wordCount → A.add a b = some (a + b)
  sub {a b : Nat} : b ≤ a → a < wordCount → A.sub a b = some (a - b)
  mul {a b : Nat} : a * b < wordCount → A.mul a b = some (a * b)

theorem machine_exact : machine.Exact where
  add h := congrArg some (Nat.mod_eq_of_lt h)
  sub {a b} h hlt := by
    have heq : a + (wordCount - b) = a - b + wordCount := by omega
    simp only [machine, heq, Nat.add_mod_right]
    rw [Nat.mod_eq_of_lt (by omega)]
  mul h := congrArg some (Nat.mod_eq_of_lt h)

theorem checked_exact : checked.Exact where
  add h := if_pos h
  sub h _ := if_pos h
  mul h := if_pos h

/-- A sum that is one too large is made a word again by the next subtraction. -/
theorem machine_add_sub_one {a b : Nat} (hpos : 0 < a + b) (hle : a + b ≤ wordCount) :
    ((machine.add a b).bind fun s => machine.sub s 1) = some (a + b - 1) := by
  simp only [machine, Option.bind_some, Option.some.injEq]
  rw [wordCount_eq] at hle ⊢
  omega

end Arith

/-! ## Ranges -/

/-- Two ranges, each with its first address and its length, have no address in common. -/
def Apart (a m b n : Nat) : Prop := a + m ≤ b ∨ b + n ≤ a

instance (a m b n : Nat) : Decidable (Apart a m b n) := inferInstanceAs (Decidable (_ ∨ _))

theorem Apart.symm {a m b n : Nat} (h : Apart a m b n) : Apart b n a m := Or.symm h

/-- Parts of ranges that lie apart lie apart. -/
theorem Apart.within {a m b n a' m' b' n' : Nat} (h : Apart a m b n) (ha : a ≤ a' ∧ a' + m' ≤ a + m)
    (hb : b ≤ b' ∧ b' + n' ≤ b + n) : Apart a' m' b' n' := by
  unfold Apart at h ⊢
  omega

/-- Ranges that lie apart below a bound have no more addresses than the bound. -/
theorem sum_le_of_apart {bound : Nat} {ranges : List (Nat × Nat)}
    (happart : ranges.Pairwise fun r s => Apart r.1 r.2 s.1 s.2) (hbound : ∀ r ∈ ranges, r.1 + r.2 ≤ bound) :
    (ranges.map (·.2)).sum ≤ bound := by
  -- the addresses of all ranges, as a set
  obtain ⟨s, hcard, hmem⟩ : ∃ s : Finset Nat, s.card = (ranges.map (·.2)).sum ∧
      ∀ x, x ∈ s ↔ ∃ r ∈ ranges, r.1 ≤ x ∧ x < r.1 + r.2 := by
    clear hbound
    induction ranges with
    | nil => exact ⟨∅, rfl, by simp⟩
    | cons r ranges ih =>
      rw [List.pairwise_cons] at happart
      obtain ⟨s, hcard, hmem⟩ := ih happart.2
      have hdisj : Disjoint (Finset.Ico r.1 (r.1 + r.2)) s := by
        rw [Finset.disjoint_left]
        intro x hx hs
        obtain ⟨r', hr', hx'⟩ := (hmem x).1 hs
        have hapart := happart.1 r' hr'
        rw [Finset.mem_Ico] at hx
        unfold Apart at hapart
        omega
      refine ⟨Finset.Ico r.1 (r.1 + r.2) ∪ s, ?_, ?_⟩
      · rw [Finset.card_union_of_disjoint hdisj, hcard, Nat.card_Ico, Nat.add_sub_cancel_left, List.map_cons,
          List.sum_cons]
      · intro x
        simp only [Finset.mem_union, Finset.mem_Ico, hmem, List.mem_cons, exists_eq_or_imp]
  calc (ranges.map (·.2)).sum = s.card := hcard.symm
    _ ≤ (Finset.range bound).card := by
      apply Finset.card_le_card
      intro x hx
      obtain ⟨r, hr, -, hlt⟩ := (hmem x).1 hx
      exact Finset.mem_range.2 (Nat.lt_of_lt_of_le hlt (hbound r hr))
    _ = bound := Finset.card_range bound

end CLib
