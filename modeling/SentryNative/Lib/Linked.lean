import Mathlib.Data.List.Nodup
import Mathlib.Logic.Function.Basic

/-!
# Singly linked lists

A list of addresses laid out in a memory by a function `next`, cut into segments
so that a write to one link is a change at the end of a segment.
-/

namespace Linked

variable {α : Type*} {next next' : α → Option α} {p q m : Option α} {l r : List α} {a b c : α}

/-- From `p` the links lead through `l` and then to `q`. -/
def Segment (next : α → Option α) : Option α → List α → Option α → Prop
  | p, [], q => p = q
  | p, a :: l, q => p = some a ∧ Segment next (next a) l q

@[simp] theorem segment_nil : Segment next p [] q ↔ p = q := Iff.rfl

@[simp] theorem segment_cons :
    Segment next p (a :: l) q ↔ p = some a ∧ Segment next (next a) l q := Iff.rfl

theorem segment_append :
    Segment next p (l ++ r) q ↔ ∃ m, Segment next p l m ∧ Segment next m r q := by
  induction l generalizing p with
  | nil => simp
  | cons a l ih =>
    simp only [List.cons_append, segment_cons, ih]
    constructor
    · rintro ⟨hp, m, hl, hr⟩
      exact ⟨m, ⟨hp, hl⟩, hr⟩
    · rintro ⟨m, ⟨hp, hl⟩, hr⟩
      exact ⟨hp, m, hl, hr⟩

/-- Only the links of its own elements matter to a segment. -/
theorem Segment.congr (h : Segment next p l q) (hl : ∀ a ∈ l, next' a = next a) :
    Segment next' p l q := by
  induction l generalizing p with
  | nil => exact h
  | cons a l ih =>
    obtain ⟨hp, ht⟩ := h
    refine ⟨hp, ?_⟩
    rw [hl a List.mem_cons_self]
    exact ih ht fun b hb => hl b (List.mem_cons_of_mem a hb)

theorem Segment.start_eq (h : Segment next p l none) : p = l.head? := by
  cases l with
  | nil => exact h
  | cons a l => exact h.1

theorem Segment.start_eq_of_ne_nil (h : Segment next p l q) (hl : l ≠ []) : p = l.head? := by
  cases l with
  | nil => exact absurd rfl hl
  | cons a l => exact h.1

/-- A write to the last link of a segment moves its end. -/
theorem Segment.relink (h : Segment next p (l ++ [b]) m) (hl : ∀ a ∈ l, next' a = next a)
    (hn : next' b = q) : Segment next' p (l ++ [b]) q := by
  rw [segment_append] at h ⊢
  obtain ⟨x, hx, hm⟩ := h
  exact ⟨x, hx.congr hl, hm.1, hn⟩

/-- Before the last element of a segment, links stay inside. -/
theorem Segment.next_mem (h : Segment next p (l ++ [b]) q) (hc : c ∈ l) :
    ∃ d ∈ l ++ [b], next c = some d := by
  induction l generalizing p with
  | nil => cases hc
  | cons a l ih =>
    obtain ⟨-, ht⟩ := h
    rcases List.mem_cons.mp hc with rfl | hc
    · cases l with
      | nil => exact ⟨b, by simp, ht.1⟩
      | cons d l => exact ⟨d, by simp, ht.1⟩
    · obtain ⟨d, hd, hn⟩ := ih ht hc
      exact ⟨d, by simp only [List.cons_append, List.mem_cons, hd, or_true], hn⟩

end Linked
