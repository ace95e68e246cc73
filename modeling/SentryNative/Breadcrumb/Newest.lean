import SentryNative.Breadcrumb.Survive
import SentryNative.Lib.Interleave

/-!
# The newest breadcrumbs of two lists

`sentry__value_merge_breadcrumbs` skips the oldest entries and merges the others, with the same
comparisons. Two short cuts return a list as it is, however long.

* `skipMerge_eq_drop`: skipping before the merge is dropping from it;
* `merge_breadcrumbs`: what the result has.
-/

namespace SentryNative.Breadcrumb

open CLib Merging

/-- The last entries, as many as there may be. -/
def newest {α : Type} (max : Nat) (l : List α) : List α := l.drop (l.length - max)

def stamp (v : Value) : Bytes := (v.getByKey timestampKey).asString

/-- Entries with a text for their timestamp. -/
def Stamp (v : Value) : Prop := ∃ s, v.getByKey timestampKey = .string s

structure Ordered (vs : List Value) : Prop where
  stamped : ∀ v ∈ vs, Stamp v
  sorted : vs.Pairwise fun a b => breadcrumbLe a b = true

/-- No short cut is taken, or there is nothing to skip. -/
def Fits (listA listB : Value) (max : Nat) : Prop :=
  items listA ≠ [] ∧ items listB ≠ [] ∨ (items listA).length + (items listB).length ≤ max

theorem length_newest {α : Type} (max : Nat) (l : List α) : (newest max l).length = min max l.length := by
  unfold newest
  rw [List.length_drop]
  omega

theorem skipMerge_eq_drop {α : Type} (le : α → α → Bool) (j : Nat) (as bs : List α) :
    skipMerge le j as bs = (List.merge as bs le).drop j := by
  induction j generalizing as bs with
  | zero => rfl
  | succ j ih =>
    cases as with
    | nil => cases bs <;> simp [skipMerge, skipOldest]
    | cons a as =>
      cases bs with
      | nil => simp [skipMerge, skipOldest]
      | cons b bs =>
        rw [List.cons_merge_cons]
        by_cases hle : le a b = true
        · rw [if_pos hle, List.drop_succ_cons, ← ih]
          simp only [skipMerge, skipOldest, hle, if_true]
        · rw [if_neg hle, List.drop_succ_cons, ← ih]
          simp only [skipMerge, skipOldest, hle, if_false, Bool.false_eq_true]

/-- The comparison is that of the texts. -/
theorem compares_stamp : Compares stamp breadcrumbLe Stamp := by
  have hcmp (a b : Value) (ha : Stamp a) (hb : Stamp b) : cmpBreadcrumb a b = strcmp (stamp a) (stamp b) := by
    obtain ⟨s, hs⟩ := ha
    obtain ⟨t, ht⟩ := hb
    simp only [cmpBreadcrumb, stamp, hs, ht]
  constructor
  · intro a b ha hb hkey
    rw [breadcrumbLe, decide_eq_true_eq, hcmp a b ha hb, hkey, strcmp_self]
  · intro a b c ha hb hc hab hbc
    rw [breadcrumbLe, decide_eq_true_eq] at *
    rw [hcmp a b ha hb] at hab
    rw [hcmp b c hb hc] at hbc
    rw [hcmp a c ha hc]
    exact strcmp_trans hab hbc
  · intro a b ha hb
    simp only [breadcrumbLe, decide_eq_true_eq, hcmp a b ha hb, hcmp b a hb ha]
    have hswap := strcmp_swap (stamp a) (stamp b)
    omega

section

variable {listA listB : Value} {max : Nat}

theorem items_of_nonempty (ha : items listA ≠ []) (hb : items listB ≠ []) :
    items (mergeBreadcrumbs listA listB max) = newest max (List.merge (items listA) (items listB) breadcrumbLe) := by
  obtain ⟨a, as, has⟩ := List.exists_cons_of_ne_nil ha
  obtain ⟨b, bs, hbs⟩ := List.exists_cons_of_ne_nil hb
  have hmerge : items (mergeBreadcrumbs listA listB max) =
      skipMerge breadcrumbLe ((a :: as).length + (b :: bs).length - max) (a :: as) (b :: bs) := by
    simp only [mergeBreadcrumbs, has, hbs]
    rfl
  rw [hmerge, skipMerge_eq_drop, has, hbs, newest, List.length_merge]

theorem items_of_nil_left (ha : items listA = []) : items (mergeBreadcrumbs listA listB max) = items listB := by
  cases hb : items listB with
  | nil => simp only [mergeBreadcrumbs, ha, hb]; rfl
  | cons b bs => simp only [mergeBreadcrumbs, ha, hb]

theorem items_of_nil_right (hb : items listB = []) : items (mergeBreadcrumbs listA listB max) = items listA := by
  cases ha : items listA with
  | nil => simp only [mergeBreadcrumbs, ha, hb]; rfl
  | cons a as => simp only [mergeBreadcrumbs, ha, hb]

theorem newest_eq_self {α : Type} {l : List α} : (newest max l).length = l.length → newest max l = l := by
  intro h
  rw [length_newest] at h
  rw [newest, Nat.sub_eq_zero_of_le (by omega), List.drop_zero]

/-- A list that is returned as it is. -/
theorem whole_iff {l : List Value} : l.length ≤ max ∧ l = newest max l ↔ l.length ≤ max := by
  refine ⟨And.left, fun h => ⟨h, (newest_eq_self ?_).symm⟩⟩
  rw [length_newest]
  omega

end

/-- The entries of two ordered lists that are merged are the last of their stable merge, no more than there may
be, just when neither list is empty or none has to be skipped. Of any two lists they are the end of an
interleaving. -/
theorem merge_breadcrumbs (listA listB : Value) (max : Nat) :
    (Ordered (items listA) → Ordered (items listB) →
      Stable stamp breadcrumbLe (items listA) (items listB) (List.merge (items listA) (items listB) breadcrumbLe)) ∧
    ((items (mergeBreadcrumbs listA listB max)).length ≤ max ∧ items (mergeBreadcrumbs listA listB max) =
      newest max (List.merge (items listA) (items listB) breadcrumbLe) ↔ Fits listA listB max) ∧
    ∃ m, Interleaved (items listA) (items listB) m ∧ items (mergeBreadcrumbs listA listB max) <:+ m := by
  refine ⟨fun ha hb => stable_merge compares_stamp ha.stamped hb.stamped ha.sorted hb.sorted, ?_, ?_⟩
  · unfold Fits
    by_cases ha : items listA = []
    · rw [items_of_nil_left ha, ha, List.nil_merge, whole_iff]
      simp
    by_cases hb : items listB = []
    · rw [items_of_nil_right hb, hb, List.merge_right, whole_iff]
      simp
    · rw [items_of_nonempty ha hb, length_newest]
      simp [ha, hb]
  · refine ⟨_, interleaved_merge breadcrumbLe _ _, ?_⟩
    by_cases ha : items listA = []
    · rw [items_of_nil_left ha, ha, List.nil_merge]
    by_cases hb : items listB = []
    · rw [items_of_nil_right hb, hb, List.merge_right]
    · rw [items_of_nonempty ha hb]
      exact List.drop_suffix _ _

/-- Two breadcrumbs of an event whose scope has none. -/
def twoBreadcrumbs : Value :=
  .list [.object [(timestampKey, .string [49])], .object [(timestampKey, .string [50])]]

/-- The whole list is returned where one entry is wanted. -/
theorem merge_breadcrumbs_too_many :
    Ordered (items twoBreadcrumbs) ∧ Ordered (items .null) ∧
      (items (mergeBreadcrumbs twoBreadcrumbs .null 1)).length = 2 := by
  refine ⟨⟨?_, ?_⟩, ⟨by simp [items], by simp [items]⟩, rfl⟩
  · intro v hv
    simp only [twoBreadcrumbs, items, List.mem_cons, List.not_mem_nil, or_false] at hv
    rcases hv with rfl | rfl
    · exact ⟨[49], rfl⟩
    · exact ⟨[50], rfl⟩
  · simp only [twoBreadcrumbs, items, List.pairwise_cons, List.mem_singleton, forall_eq, List.not_mem_nil,
      false_imp_iff, implies_true, List.Pairwise.nil, and_true]
    decide

end SentryNative.Breadcrumb
