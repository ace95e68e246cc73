import Mathlib.Order.Defs.LinearOrder

/-!
# Interleavings and stable merges

A merge of two lists is an interleaving of them, whatever is compared. Of sorted lists it is the
stable one.
-/

namespace Merging

universe u

variable {α : Type u}

/-- All elements of two lists, those of each in their order. -/
inductive Interleaved : List α → List α → List α → Prop where
  | nil : Interleaved [] [] []
  | left {a : α} {as bs cs : List α} : Interleaved as bs cs → Interleaved (a :: as) bs (a :: cs)
  | right {b : α} {as bs cs : List α} : Interleaved as bs cs → Interleaved as (b :: bs) (b :: cs)

theorem Interleaved.only_left (as : List α) : Interleaved as [] as := by
  induction as with
  | nil => exact .nil
  | cons a as ih => exact .left ih

theorem Interleaved.only_right (bs : List α) : Interleaved [] bs bs := by
  induction bs with
  | nil => exact .nil
  | cons b bs ih => exact .right ih

theorem interleaved_merge (le : α → α → Bool) (as bs : List α) : Interleaved as bs (List.merge as bs le) := by
  induction as generalizing bs with
  | nil =>
    rw [List.nil_merge]
    exact .only_right bs
  | cons a as iha =>
    induction bs with
    | nil =>
      rw [List.merge_right]
      exact .only_left _
    | cons b bs ihb =>
      rw [List.cons_merge_cons]
      split
      · exact .left (iha _)
      · exact .right ihb

section

variable {κ : Type u} [DecidableEq κ] (key : α → κ) (le : α → α → Bool)

/-- Elements with one key keep their order, those of the first list before those of the second. -/
structure Stable (as bs cs : List α) : Prop where
  sorted : cs.Pairwise fun a b => le a b = true
  stable : ∀ k, (cs.filter fun a => key a = k) = (as.filter fun a => key a = k) ++ bs.filter fun a => key a = k

/-- What is compared is the key: equal keys go either way, and elements that go both ways have one key. -/
structure Compares (p : α → Prop) : Prop where
  same : ∀ a b, p a → p b → key a = key b → le a b = true
  trans : ∀ a b c, p a → p b → p c → le a b = true → le b c = true → le a c = true
  total : ∀ a b, p a → p b → le a b = true ∨ le b a = true

variable {key le} {p : α → Prop} {as bs : List α}

theorem sorted_merge (h : Compares key le p) (ha : ∀ a ∈ as, p a) (hb : ∀ b ∈ bs, p b)
    (has : as.Pairwise fun a b => le a b = true) (hbs : bs.Pairwise fun a b => le a b = true) :
    (List.merge as bs le).Pairwise fun a b => le a b = true := by
  induction as generalizing bs with
  | nil => rwa [List.nil_merge]
  | cons a as iha =>
    induction bs with
    | nil => rwa [List.merge_right]
    | cons b bs ihb =>
      have hpa := ha a List.mem_cons_self
      have hpb := hb b List.mem_cons_self
      have hrestA : ∀ x ∈ as, p x := fun x hx => ha x (List.mem_cons_of_mem a hx)
      have hrestB : ∀ x ∈ bs, p x := fun x hx => hb x (List.mem_cons_of_mem b hx)
      rw [List.cons_merge_cons]
      by_cases hle : le a b = true
      · rw [if_pos hle]
        refine List.pairwise_cons.2 ⟨fun x hx => ?_, iha hrestA hb has.of_cons hbs⟩
        rcases List.mem_merge.1 hx with hx | hx
        · exact List.rel_of_pairwise_cons has hx
        · rcases List.mem_cons.1 hx with rfl | hx
          · exact hle
          · exact h.trans a b x hpa hpb (hrestB x hx) hle (List.rel_of_pairwise_cons hbs hx)
      · rw [if_neg hle]
        have hba : le b a = true := (h.total a b hpa hpb).resolve_left hle
        refine List.pairwise_cons.2 ⟨fun x hx => ?_, ihb hrestB hbs.of_cons⟩
        rcases List.mem_merge.1 hx with hx | hx
        · rcases List.mem_cons.1 hx with rfl | hx
          · exact hba
          · exact h.trans b a x hpb hpa (hrestA x hx) hba (List.rel_of_pairwise_cons has hx)
        · exact List.rel_of_pairwise_cons hbs hx

/-- A merge of sorted lists is stable. -/
theorem stable_merge (h : Compares key le p) (ha : ∀ a ∈ as, p a) (hb : ∀ b ∈ bs, p b)
    (has : as.Pairwise fun a b => le a b = true) (hbs : bs.Pairwise fun a b => le a b = true) :
    Stable key le as bs (List.merge as bs le) := by
  refine ⟨sorted_merge h ha hb has hbs, fun k => ?_⟩
  induction as generalizing bs with
  | nil => simp
  | cons a as iha =>
    induction bs with
    | nil => simp
    | cons b bs ihb =>
      have hpa := ha a List.mem_cons_self
      have hpb := hb b List.mem_cons_self
      have hrestA : ∀ x ∈ as, p x := fun x hx => ha x (List.mem_cons_of_mem a hx)
      have hrestB : ∀ x ∈ bs, p x := fun x hx => hb x (List.mem_cons_of_mem b hx)
      rw [List.cons_merge_cons]
      by_cases hle : le a b = true
      · rw [if_pos hle, List.filter_cons, iha hrestA hb has.of_cons hbs, List.filter_cons (x := a)]
        split <;> simp
      · rw [if_neg hle, List.filter_cons, ihb hrestB hbs.of_cons]
        by_cases hk : key b = k
        · -- the elements of the first list all go behind this one
          have hnone : ((a :: as).filter fun x => decide (key x = k)) = [] := by
            rw [List.filter_eq_nil_iff]
            intro x hx hkx
            have hxb : le x b = true := h.same x b (ha x hx) hpb ((of_decide_eq_true hkx).trans hk.symm)
            rcases List.mem_cons.1 hx with rfl | hx
            · exact hle hxb
            · exact hle (h.trans a x b hpa (hrestA x hx) hpb (List.rel_of_pairwise_cons has hx) hxb)
          rw [if_pos (decide_eq_true hk), hnone, List.filter_cons, if_pos (decide_eq_true hk)]
          rfl
        · rw [if_neg (by simpa using hk), List.filter_cons (x := b), if_neg (by simpa using hk)]

end

end Merging
