import SentryNative.Memory.Mutators

/-!
# Failed allocations

A mutator that returns zero had all the memory it asked for. Releases and counts take
none.
-/

namespace SentryNative.Memory

open CLib ObjectMap

namespace Store

variable {s s' s₁ : Store} {a p : Nat} {v value : Val} {kind : Kind}

/-- Every call of `malloc` from one state to the other succeeded. -/
structure Fed (s s' : Store) : Prop where
  fails : s'.fails = s.fails
  le : s.mallocs ≤ s'.mallocs
  ok : ∀ i, s.mallocs ≤ i → i < s'.mallocs → s.fails i = false

theorem Fed.of_same (hf : s'.fails = s.fails) (hm : s'.mallocs = s.mallocs) : Fed s s' := by
  refine ⟨hf, Nat.le_of_eq hm.symm, ?_⟩
  intro i hle hlt
  omega

theorem Fed.refl (s : Store) : Fed s s := .of_same rfl rfl

theorem Fed.trans (h : Fed s s₁) (h' : Fed s₁ s') : Fed s s' := by
  refine ⟨h'.fails.trans h.fails, Nat.le_trans h.le h'.le, ?_⟩
  intro i hle hlt
  by_cases hi : i < s₁.mallocs
  · exact h.ok i hle hi
  · rw [← h.fails]
    exact h'.ok i (Nat.le_of_not_lt hi) hlt

/-- Cells may be written before the calls. -/
theorem Fed.before (h : Fed s₁ s') (hf : s₁.fails = s.fails) (hm : s₁.mallocs = s.mallocs) : Fed s s' :=
  (Fed.of_same hf hm).trans h

theorem Fed.malloc (h : s.malloc = (true, s')) : Fed s s' := by
  unfold Store.malloc at h
  obtain ⟨hok, rfl⟩ := Prod.mk.inj h
  refine ⟨rfl, Nat.le_succ _, ?_⟩
  intro i hle hlt
  have hi : i = s.mallocs := Nat.le_antisymm (Nat.le_of_lt_succ hlt) hle
  rw [hi]
  simpa using hok

theorem Fed.mallocN {n : Nat} (h : Store.mallocN n s = (true, s')) : Fed s s' := by
  have hready := ready_of_mallocN (congrArg Prod.fst h)
  rw [mallocN_ready hready] at h
  obtain ⟨_, rfl⟩ := Prod.mk.inj h
  refine ⟨rfl, Nat.le_add_right _ _, ?_⟩
  intro i hle hlt
  change i < s.mallocs + n at hlt
  have hi := hready (i - s.mallocs) (by omega)
  rwa [Nat.add_sub_cancel' hle] at hi

theorem bind_ok {α β : Type} {x : Except Fault α} {f : α → Except Fault β} {r : β} (h : x >>= f = .ok r) :
    ∃ y, x = .ok y ∧ f y = .ok r := by
  cases x with
  | error e => cases h
  | ok y => exact ⟨y, rfl, h⟩

/-! ## Counts and slots -/

theorem Fed.release {fuel : Nat} {work : List Nat} (h : release fuel work s = .ok s') : Fed s s' := by
  fun_induction Store.release fuel work s with
  | case1 =>
    cases h
    exact .refl _
  | case2 => cases h
  | case3 => cases h
  | case4 _ _ _ _ _ _ _ ih => exact (ih h).before rfl rfl
  | case5 _ _ _ _ _ _ _ _ _ ih => exact (ih h).before rfl rfl
  | case6 => cases h
  | case7 _ _ _ _ _ _ _ _ _ _ _ _ _ ih => exact (ih h).before rfl rfl
  | case8 _ _ _ _ _ _ _ _ _ _ _ _ _ ih => exact (ih h).before rfl rfl

theorem Fed.decref (h : s.decref v = .ok s') : Fed s s' := by
  cases v with
  | thing a => exact .release h
  | null =>
    cases h
    exact .refl _
  | bool b =>
    cases h
    exact .refl _
  | int32 i =>
    cases h
    exact .refl _

theorem Fed.write {slots : List (Bytes × Val)} (h : s.write p slots = .ok s') : Fed s s' := by
  obtain ⟨pl, _, h⟩ := bind_ok h
  cases h
  exact .of_same rfl rfl

theorem Fed.incref (h : s.incref v = .ok s') : Fed s s' := by
  cases v with
  | thing a =>
    obtain ⟨t, _, h⟩ := bind_ok h
    cases h
    exact .of_same rfl rfl
  | null =>
    cases h
    exact .refl _
  | bool b =>
    cases h
    exact .refl _
  | int32 i =>
    cases h
    exact .refl _

theorem Fed.increfAll {slots : List (Bytes × Val)} (h : s.increfAll slots = .ok s') : Fed s s' := by
  induction slots generalizing s with
  | nil =>
    cases h
    exact .refl _
  | cons slot slots ih =>
    obtain ⟨s₁, hfirst, h⟩ := bind_ok h
    exact (Fed.incref hfirst).trans (ih h)

theorem Fed.payloadFree (h : s.payloadFree p = .ok s') : Fed s s' := by
  obtain ⟨pl, _, h⟩ := bind_ok h
  split at h
  · cases h
    exact .of_same rfl rfl
  · exact (Fed.release h).before rfl rfl

/-! ## Mutators -/

theorem Fed.detach (h : s.detach a = .ok (true, s')) : Fed s s' := by
  obtain ⟨t, _, h⟩ := bind_ok h
  split at h
  · cases h
    exact .refl _
  · obtain ⟨pl, _, h⟩ := bind_ok h
    split at h
    · cases h
      exact .refl _
    · split at h
      · cases h
      · rename_i hm
        obtain ⟨s₂, hinc, h⟩ := bind_ok h
        obtain ⟨s₃, hfree, h⟩ := bind_ok h
        obtain ⟨t', _, h⟩ := bind_ok h
        cases h
        exact ((Fed.mallocN hm).trans (.increfAll hinc)).trans ((Fed.payloadFree hfree).trans (.of_same rfl rfl))

theorem Fed.writable (h : s.writable value kind = .ok (some p, s')) : Fed s s' := by
  cases value with
  | thing a =>
    obtain ⟨t, _, h⟩ := bind_ok h
    split at h
    · cases h
    · split at h
      · cases h
      · obtain ⟨⟨ok, s₁⟩, hdet, h⟩ := bind_ok h
        cases ok with
        | false => cases h
        | true =>
          obtain ⟨t', _, h⟩ := bind_ok h
          split at h
          · cases h
          · cases h
            exact .detach hdet
  | null => cases h
  | bool b => cases h
  | int32 i => cases h

theorem not_fail {r : Nat × Store} (h : s.fail v = .ok r) : r.1 ≠ 0 := by
  obtain ⟨s₁, _, h⟩ := bind_ok h
  cases h
  exact Nat.one_ne_zero

theorem Fed.setByKeyOwned {k : Bytes} (h : s.setByKeyOwned value k v = .ok (0, s')) : Fed s s' := by
  obtain ⟨⟨r, s₁⟩, hw, h⟩ := bind_ok h
  cases r with
  | none => exact absurd rfl (not_fail h)
  | some p =>
    obtain ⟨pl, _, h⟩ := bind_ok h
    apply (Fed.writable hw).trans
    split at h
    · obtain ⟨s₂, hdec, h⟩ := bind_ok h
      obtain ⟨s₃, hwrite, h⟩ := bind_ok h
      cases h
      exact (Fed.decref hdec).trans (.write hwrite)
    · split at h
      rename_i ok s₂ hm
      cases ok with
      | false => exact absurd rfl (not_fail h)
      | true =>
        obtain ⟨s₃, hwrite, h⟩ := bind_ok h
        cases h
        exact (Fed.malloc hm).trans (.write hwrite)

theorem Fed.setByKey {k : Option Bytes} (h : s.setByKey value k v = .ok (0, s')) : Fed s s' := by
  cases k with
  | none => exact absurd rfl (not_fail h)
  | some k =>
    simp only [Store.setByKey] at h
    split at h
    · exact absurd rfl (not_fail h)
    · rename_i hm
      exact (Fed.malloc hm).trans (.setByKeyOwned h)

theorem Fed.removeByKey {k : Option Bytes} (h : s.removeByKey value k = .ok (0, s')) : Fed s s' := by
  cases k with
  | none => cases h
  | some k =>
    obtain ⟨⟨r, s₁⟩, hw, h⟩ := bind_ok h
    cases r with
    | none => cases h
    | some p =>
      obtain ⟨pl, _, h⟩ := bind_ok h
      apply (Fed.writable hw).trans
      split at h
      · obtain ⟨s₂, hdec, h⟩ := bind_ok h
        obtain ⟨s₃, hwrite, h⟩ := bind_ok h
        cases h
        exact (Fed.decref hdec).trans (.write hwrite)
      · cases h

theorem Fed.append (h : s.append value v = .ok (0, s')) : Fed s s' := by
  obtain ⟨⟨r, s₁⟩, hw, h⟩ := bind_ok h
  cases r with
  | none => exact absurd rfl (not_fail h)
  | some p =>
    obtain ⟨pl, _, h⟩ := bind_ok h
    apply (Fed.writable hw).trans
    split at h
    rename_i ok s₂ hm
    cases ok with
    | false => exact absurd rfl (not_fail h)
    | true =>
      obtain ⟨s₃, hwrite, h⟩ := bind_ok h
      cases h
      exact (Fed.malloc hm).trans (.write hwrite)

theorem Fed.setByIndex {i : Nat} (h : s.setByIndex value i v = .ok (0, s')) : Fed s s' := by
  obtain ⟨⟨r, s₁⟩, hw, h⟩ := bind_ok h
  cases r with
  | none => exact absurd rfl (not_fail h)
  | some p =>
    obtain ⟨pl, _, h⟩ := bind_ok h
    apply (Fed.writable hw).trans
    split at h
    rename_i ok s₂ hm
    split at h
    · cases h
    · cases ok with
      | false => exact absurd rfl (not_fail h)
      | true =>
        simp only [Bool.not_true, Bool.false_eq_true, if_false] at h
        split at h
        · cases h
        · obtain ⟨s₃, hdec, h⟩ := bind_ok h
          obtain ⟨s₄, hwrite, h⟩ := bind_ok h
          cases h
          exact (Fed.malloc hm).trans ((Fed.decref hdec).trans (.write hwrite))

theorem Fed.removeByIndex {i : Nat} (h : s.removeByIndex value i = .ok (0, s')) : Fed s s' := by
  obtain ⟨⟨r, s₁⟩, hw, h⟩ := bind_ok h
  cases r with
  | none => cases h
  | some p =>
    obtain ⟨pl, _, h⟩ := bind_ok h
    apply (Fed.writable hw).trans
    split at h
    · cases h
      exact .refl _
    · obtain ⟨s₂, hdec, h⟩ := bind_ok h
      obtain ⟨s₃, hwrite, h⟩ := bind_ok h
      cases h
      exact (Fed.decref hdec).trans (.write hwrite)

end Store

/-- A mutator for which an allocation failed returns non-zero. -/
theorem Change.fed {s s' : Store} {value : Val} {ch : Change} (h : ch.run s value = .ok (0, s')) :
    s.Fed s' := by
  cases ch with
  | setByKey k v => exact .setByKey h
  | removeByKey k => exact .removeByKey h
  | append v => exact .append h
  | setByIndex i v => exact .setByIndex h
  | removeByIndex i => exact .removeByIndex h

end SentryNative.Memory
