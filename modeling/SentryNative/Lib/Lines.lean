import Mathlib.Data.List.Basic
import Mathlib.Data.List.TakeWhile

/-!
# Lines

A text as the lines that a separator ends and the open line behind them. The scan carries the open
line, so that a text can be scanned in pieces.
-/

namespace CLib

variable {α : Type*} [DecidableEq α]

/-- The lines that end in the text, and what is left open behind them. -/
def splitLines (sep : α) (line : List α) : List α → List (List α) × List α
  | [] => ([], line)
  | c :: s =>
    if c = sep then (line :: (splitLines sep [] s).1, (splitLines sep [] s).2) else splitLines sep (line ++ [c]) s

/-- The lines of a text, with the last one also where no separator ends it. -/
def linesOf (sep : α) (s : List α) : List (List α) :=
  (splitLines sep [] s).1 ++ if (splitLines sep [] s).2 = [] then [] else [(splitLines sep [] s).2]

variable {sep : α}

/-- A text in two pieces: the second is scanned from the line that the first leaves open. -/
theorem splitLines_append (line a b : List α) :
    splitLines sep line (a ++ b) = ((splitLines sep line a).1 ++ (splitLines sep (splitLines sep line a).2 b).1,
      (splitLines sep (splitLines sep line a).2 b).2) := by
  induction a generalizing line with
  | nil => simp [splitLines]
  | cons c a ih =>
    rw [List.cons_append, splitLines, splitLines]
    split
    · rw [ih]
      simp
    · exact ih _

theorem splitLines_of_not_mem {r : List α} (h : sep ∉ r) (line s : List α) :
    splitLines sep line (r ++ s) = splitLines sep (line ++ r) s := by
  induction r generalizing line with
  | nil => simp
  | cons c r ih =>
    rw [List.mem_cons, not_or] at h
    rw [List.cons_append, splitLines, if_neg (Ne.symm h.1), ih h.2]
    simp

theorem splitLines_open {line : List α} (h : sep ∉ line) (s : List α) : sep ∉ (splitLines sep line s).2 := by
  induction s generalizing line with
  | nil => exact h
  | cons c s ih =>
    rw [splitLines]
    split
    · exact ih (by simp)
    · next hc => exact ih (by simp [h, Ne.symm hc])

theorem mem_open {line s : List α} {x : α} (h : x ∈ (splitLines sep line s).2) : x ∈ line ∨ x ∈ s := by
  induction s generalizing line with
  | nil => exact Or.inl h
  | cons c s ih =>
    rw [splitLines] at h
    split at h
    · obtain hx | hx := ih h
      · cases hx
      · exact Or.inr (List.mem_cons_of_mem c hx)
    · obtain hx | hx := ih h
      · obtain hx | hx := List.mem_append.mp hx
        · exact Or.inl hx
        · exact Or.inr (List.mem_singleton.mp hx ▸ List.mem_cons_self)
      · exact Or.inr (List.mem_cons_of_mem c hx)

/-- The lines with their separators and the open line are as long as the text. -/
theorem splitLines_length (line s : List α) :
    (∀ l ∈ (splitLines sep line s).1, l.length < line.length + s.length) ∧
      (splitLines sep line s).2.length ≤ line.length + s.length := by
  induction s generalizing line with
  | nil => simp [splitLines]
  | cons c s ih =>
    rw [splitLines]
    split
    · obtain ⟨hlines, hopen⟩ := ih []
      simp only [List.length_nil, Nat.zero_add] at hlines hopen
      refine ⟨fun l hl => ?_, by simp only [List.length_cons]; omega⟩
      obtain rfl | hl := List.mem_cons.mp hl
      · simp only [List.length_cons]
        omega
      · have := hlines l hl
        simp only [List.length_cons]
        omega
    · obtain ⟨hlines, hopen⟩ := ih (line ++ [c])
      simp only [List.length_append, List.length_cons, List.length_nil] at hlines hopen ⊢
      refine ⟨fun l hl => ?_, by omega⟩
      have := hlines l hl
      omega

/-- The line that is open at the start of a text is the start of the first line. -/
theorem splitLines_prefix (line s : List α) :
    (∃ l ls, (splitLines sep line s).1 = l :: ls ∧ line <+: l) ∨
      (splitLines sep line s).1 = [] ∧ line <+: (splitLines sep line s).2 := by
  induction s generalizing line with
  | nil => exact Or.inr ⟨rfl, List.prefix_refl _⟩
  | cons c s ih =>
    rw [splitLines]
    split
    · exact Or.inl ⟨line, _, rfl, List.prefix_refl _⟩
    · obtain ⟨l, ls, heq, hpre⟩ | ⟨heq, hpre⟩ := ih (line ++ [c])
      · exact Or.inl ⟨l, ls, heq, (List.prefix_append _ _).trans hpre⟩
      · exact Or.inr ⟨heq, (List.prefix_append _ _).trans hpre⟩

/-- Reading on from the line that a first piece leaves open. -/
theorem linesOf_append (a b : List α) :
    linesOf sep (a ++ b) = (splitLines sep [] a).1 ++ linesOf sep ((splitLines sep [] a).2 ++ b) := by
  unfold linesOf
  rw [splitLines_append [] a b, splitLines_of_not_mem (splitLines_open (by simp) a) [] b, List.nil_append]
  simp

end CLib
