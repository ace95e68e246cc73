import SentryNative.Breadcrumb.RingFile

/-!
# Merging an older and a newer block

The merge gives the older block and then the newer one, less as many of the oldest as the newer
block has, exactly when every element of the older block goes before the first of the newer.
-/

namespace SentryNative.Breadcrumb

section

variable {α : Type} {le : α → α → Bool} {j : Nat} {os ns as bs : List α} {n : α}

/-- Skipping and merging. -/
def skipMerge (le : α → α → Bool) (skip : Nat) (as bs : List α) : List α :=
  List.merge (skipOldest le skip as bs).1 (skipOldest le skip as bs).2 le

/-- The comparison with the lists in the other places. -/
def flipped (le : α → α → Bool) (a b : α) : Bool := !le b a

theorem skipOldest_flip (le : α → α → Bool) (j : Nat) (as bs : List α) :
    skipOldest le j as bs = ((skipOldest (flipped le) j bs as).2, (skipOldest (flipped le) j bs as).1) := by
  induction j generalizing as bs with
  | zero => rfl
  | succ j ih =>
    cases as with
    | nil => cases bs <;> simp [skipOldest]
    | cons a as =>
      cases bs with
      | nil => simp [skipOldest]
      | cons b bs =>
        by_cases hle : le a b = true <;> simp [skipOldest, flipped, hle, ih]

theorem merge_flip (le : α → α → Bool) (as bs : List α) : List.merge as bs le = List.merge bs as (flipped le) := by
  induction as generalizing bs with
  | nil => simp
  | cons a as iha =>
    induction bs with
    | nil => simp
    | cons b bs ihb =>
      rw [List.cons_merge_cons, List.cons_merge_cons, flipped]
      by_cases hle : le a b = true
      · simp [hle, iha]
      · simp [hle, ihb]

theorem skipMerge_flip (le : α → α → Bool) (j : Nat) (as bs : List α) :
    skipMerge le j as bs = skipMerge (flipped le) j bs as := by
  unfold skipMerge
  rw [merge_flip, skipOldest_flip]

theorem mem_skipOldest {x : α} (h : x ∈ (skipOldest le j as bs).1 ∨ x ∈ (skipOldest le j as bs).2) :
    x ∈ as ∨ x ∈ bs := by
  induction j generalizing as bs with
  | zero => exact h
  | succ j ih =>
    cases as with
    | nil =>
      simp only [skipOldest, List.not_mem_nil, false_or] at h
      exact Or.inr (List.mem_of_mem_drop h)
    | cons a as =>
      cases bs with
      | nil =>
        simp only [skipOldest, List.not_mem_nil, or_false] at h
        exact Or.inl (List.mem_of_mem_drop h)
      | cons b bs =>
        simp only [skipOldest] at h
        split at h
        · obtain hx | hx := ih h
          · exact Or.inl (List.mem_cons_of_mem a hx)
          · exact Or.inr hx
        · obtain hx | hx := ih h
          · exact Or.inl hx
          · exact Or.inr (List.mem_cons_of_mem b hx)

theorem mem_skipMerge {x : α} (h : x ∈ skipMerge le j as bs) : x ∈ as ∨ x ∈ bs :=
  mem_skipOldest (List.mem_merge.1 h)

theorem skipMerge_older (h : ∀ o ∈ os, le o n = true) (hj : j ≤ os.length) :
    skipMerge le j os (n :: ns) = os.drop j ++ n :: ns := by
  induction os generalizing j with
  | nil =>
    have hzero : j = 0 := by simpa using hj
    subst hzero
    simp [skipMerge, skipOldest]
  | cons o os ih =>
    have hrest : ∀ o ∈ os, le o n = true := fun x hx => h x (List.mem_cons_of_mem o hx)
    have ho : le o n = true := h o List.mem_cons_self
    cases j with
    | zero =>
      have hnone := ih hrest (Nat.zero_le _)
      simp only [skipMerge, skipOldest, List.drop_zero] at hnone ⊢
      rw [List.cons_merge_cons, if_pos ho, hnone]
      rfl
    | succ j =>
      have hskip := ih hrest (by simpa using hj)
      simp only [skipMerge, skipOldest, ho, if_true, List.drop_succ_cons] at hskip ⊢
      exact hskip

theorem older_of_skipMerge (hnodup : (os ++ n :: ns).Nodup)
    (h : skipMerge le j os (n :: ns) = os.drop j ++ n :: ns) : ∀ o ∈ os, le o n = true := by
  induction os generalizing j with
  | nil => simp
  | cons o os ih =>
    have hne : o ≠ n := by
      rintro rfl
      simp at hnodup
    have hrest : (os ++ n :: ns).Nodup := (List.nodup_cons.1 hnodup).2
    have hcases : le o n = true ∧ ∃ i, skipMerge le i os (n :: ns) = os.drop i ++ n :: ns := by
      cases j with
      | zero =>
        simp only [skipMerge, skipOldest, List.drop_zero] at h
        rw [List.cons_merge_cons] at h
        split at h
        · rename_i ho
          refine ⟨ho, 0, ?_⟩
          simpa [skipMerge, skipOldest] using h
        · exact absurd (List.cons.inj h).1.symm hne
      | succ j =>
        by_cases ho : le o n = true
        · refine ⟨ho, j, ?_⟩
          simpa [skipMerge, skipOldest, ho] using h
        · -- the first of the newer block would be skipped
          have hmem : n ∈ skipMerge le (j + 1) (o :: os) (n :: ns) := by
            rw [h]
            simp
          have hskip : skipMerge le (j + 1) (o :: os) (n :: ns) = skipMerge le j (o :: os) ns := by
            simp [skipMerge, skipOldest, ho]
          rw [hskip] at hmem
          rw [List.nodup_append] at hnodup
          obtain hmem | hmem := mem_skipMerge hmem
          · exact absurd rfl (hnodup.2.2 n hmem n List.mem_cons_self)
          · exact absurd hmem (List.nodup_cons.1 hnodup.2.1).1
    obtain ⟨ho, i, hi⟩ := hcases
    intro x hx
    obtain rfl | hx := List.mem_cons.1 hx
    · exact ho
    · exact ih hrest hi x hx

end

end SentryNative.Breadcrumb
