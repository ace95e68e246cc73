import SentryNative.Memory.Denotes
import SentryNative.Memory.Ownership

/-!
# Frozen values

From `sentry_value_freeze` on a value is refused by every mutator, with all that it
holds, and denotes the same tree in every later state.
-/

namespace SentryNative.Memory

open CLib ObjectMap

namespace Store

variable {s : Store} {owned iters : Nat → Nat} {value v : Val} {kind : Kind}

/-! ## Mutators on what is frozen -/

/-- `value_as_unfrozen_thing` gives nothing. -/
theorem writable_of_frozen (h : s.isFrozen value = .ok true) : s.writable value kind = .ok (none, s) := by
  cases value with
  | thing a =>
    cases ht : s.things a with
    | none => simp [isFrozen, readThing, ht, bind, Except.bind] at h
    | some t =>
      have hf : t.frozen = true := by
        simp only [isFrozen, readThing, ht, bind, Except.bind] at h
        exact Except.ok.inj h
      cases hb : t.body with
      | leaf w =>
        simp only [writable, readThing, ht, hb, bind, Except.bind]
        rfl
      | container k p =>
        simp only [writable, readThing, ht, hb, hf, bind, Except.bind, Bool.true_or, if_true]
        rfl
  | null => rfl
  | bool b => rfl
  | int32 i => rfl

theorem Inv.fail (h : Inv s (owned + refOf v) iters) : ∃ s', s.fail v = .ok (1, s') := by
  obtain ⟨s', hdec, _⟩ := h.decref
  refine ⟨s', ?_⟩
  simp only [Store.fail, hdec, bind, Except.bind]
  rfl

theorem Inv.setByKey_frozen {k : Option Bytes} (h : Inv s (owned + refOf v) iters)
    (hf : s.isFrozen value = .ok true) : ∃ s', s.setByKey value k v = .ok (1, s') := by
  cases k with
  | none => exact h.fail
  | some k =>
    have h' := h.withMallocs (s.mallocs + 1)
    cases hok : s.fails s.mallocs with
    | true =>
      simp only [Store.setByKey, malloc, hok, Bool.not_true]
      exact h'.fail
    | false =>
      have hw : ({ s with mallocs := s.mallocs + 1 } : Store).writable value .object = .ok (none, _) :=
        writable_of_frozen hf
      simp only [Store.setByKey, malloc, hok, Bool.not_false, Store.setByKeyOwned, hw, bind, Except.bind]
      exact h'.fail

theorem removeByKey_frozen {k : Option Bytes} (hf : s.isFrozen value = .ok true) :
    s.removeByKey value k = .ok (1, s) := by
  cases k with
  | none => rfl
  | some k =>
    simp only [removeByKey, writable_of_frozen hf, bind, Except.bind]
    rfl

theorem Inv.append_frozen (h : Inv s (owned + refOf v) iters) (hf : s.isFrozen value = .ok true) :
    ∃ s', s.append value v = .ok (1, s') := by
  simp only [Store.append, writable_of_frozen hf, bind, Except.bind]
  exact h.fail

theorem Inv.setByIndex_frozen {i : Nat} (h : Inv s (owned + refOf v) iters) (hf : s.isFrozen value = .ok true) :
    ∃ s', s.setByIndex value i v = .ok (1, s') := by
  simp only [Store.setByIndex, writable_of_frozen hf, bind, Except.bind]
  exact h.fail

theorem removeByIndex_frozen {i : Nat} (hf : s.isFrozen value = .ok true) :
    s.removeByIndex value i = .ok (1, s) := by
  simp only [removeByIndex, writable_of_frozen hf, bind, Except.bind]
  rfl

theorem Frozen.isFrozen {a : Nat} (h : s.Frozen a) : s.isFrozen (.thing a) = .ok true := by
  obtain ⟨t, ht, hf⟩ := h
  simp only [Store.isFrozen, readThing, ht, bind, Except.bind, hf]
  rfl

/-- What is found from a frozen value is frozen. -/
theorem Within.frozen {w : Val} (h : Within s v w) (hc : FrozenClosed s) (hv : ∀ a, v = .thing a → s.Frozen a) :
    ∀ a, w = .thing a → s.Frozen a := by
  induction h with
  | refl => exact hv
  | slot _ hview hmem ih =>
    rintro a rfl
    exact hc _ _ _ (ih _ rfl) hview a (List.mem_filterMap.mpr ⟨_, hmem, rfl⟩)

theorem isFrozen_of (hv : ∀ a, v = .thing a → s.Frozen a) : s.isFrozen v = .ok true := by
  cases v with
  | thing a => exact (hv a rfl).isFrozen
  | null => rfl
  | bool b => rfl
  | int32 i => rfl

end Store

namespace Caller

variable {c c' : Caller} {lost : Nat → Nat} {v : Val}

/-! ## Runs -/

/-- The states that a caller which follows the rules comes to from here. -/
inductive Later (c : Caller) : Caller → Prop
  | refl : Later c c
  | step {c₁ c' : Caller} {k : Call} : Later c c₁ → c₁.Follows k → c₁.call k = .ok c' → Later c c'

theorem Sound.later (h : Sound c lost) (hl : Later c c') :
    (∃ lost', Sound c' lost') ∧ Store.Keeps (fun a => ¬ c.store.Frozen a) c.store c'.store := by
  induction hl with
  | refl => exact ⟨⟨lost, h⟩, .refl _⟩
  | step _ hf hrun ih =>
    obtain ⟨⟨lost₁, h₁⟩, hk₁⟩ := ih
    have hout := h₁.call hf
    rw [hrun] at hout
    cases hout with
    | done hs hk _ => exact ⟨⟨_, hs⟩, hk₁.unfrozen_trans hk h.inv⟩

theorem Run.sound {fails : Nat → Bool} (h : Run fails c) : ∃ lost, Sound c lost := by
  induction h with
  | start => exact ⟨0, .start fails⟩
  | step _ hf hrun ih =>
    obtain ⟨lost, hs⟩ := ih
    have hout := hs.call hf
    rw [hrun] at hout
    cases hout with
    | done hs' _ _ => exact ⟨_, hs'⟩

/-- Every mutator on the value returns non-zero. -/
structure Refuses (c : Caller) (value : Val) : Prop where
  setByKey : ∀ k v, c.Owns v → ∃ s', c.store.setByKey value k v = .ok (1, s')
  removeByKey : ∀ k, c.store.removeByKey value k = .ok (1, c.store)
  append : ∀ v, c.Owns v → ∃ s', c.store.append value v = .ok (1, s')
  setByIndex : ∀ i v, c.Owns v → ∃ s', c.store.setByIndex value i v = .ok (1, s')
  removeByIndex : ∀ i, c.store.removeByIndex value i = .ok (1, c.store)

theorem Sound.refuses (h : Sound c lost) (hf : c.store.isFrozen v = .ok true) : Refuses c v :=
  ⟨fun _ _ hv => (h.split hv).setByKey_frozen hf, fun _ => Store.removeByKey_frozen hf,
    fun _ hv => (h.split hv).append_frozen hf, fun _ _ hv => (h.split hv).setByIndex_frozen hf,
    fun _ => Store.removeByIndex_frozen hf⟩

/-- After `sentry_value_freeze`, in every later state in which the value is still there:
all that is found from it is frozen and refuses every mutator, looks as it did, and
denotes the tree it did; and a frozen container holds frozen things only. -/
theorem frozen_forever (fails : Nat → Bool) (c : Caller) (v : Val) (h : Run fails c) (hv : c.MayUse v) :
    c.store.FrozenClosed ∧ ∃ c₁, c.call (.freeze v) = .ok c₁ ∧
      ∀ c', Later c₁ c' → (∀ a, v = .thing a → c'.store.Live a) →
        c'.store.FrozenClosed ∧
        (∀ w, c'.store.Within v w → c'.store.isFrozen w = .ok true ∧ Refuses c' w) ∧
        (∀ w, c'.store.Within v w ↔ c.store.Within v w) ∧
        (∀ a, c.store.Within v (.thing a) → c'.store.view a = c.store.view a) ∧
        ∀ tree, c'.store.Denotes v tree ↔ c.store.Denotes v tree := by
  obtain ⟨lost, hs⟩ := h.sound
  obtain ⟨s₁, hrun, hi, hclosed, hfr, hroot⟩ := hs.inv.freeze hs.closed (hs.live hv)
  have hs₁ : Sound (c.goes s₁) lost := ⟨hi, hclosed⟩
  refine ⟨hs.closed, c.goes s₁, ?_, ?_⟩
  · simp only [call, hrun, bind, Except.bind]
    rfl
  intro c' hl hlive
  obtain ⟨⟨lost', hs'⟩, hk⟩ := hs₁.later hl
  have hview₁ : ∀ a, s₁.Within v (.thing a) → c'.store.view a = s₁.view a := by
    apply hk.within_view hi hs'.inv (fun a ha => (hroot a ha).live) hlive
    exact fun a ha => not_not.mpr (ha.frozen hclosed hroot a rfl)
  have hview : ∀ a, c.store.Within v (.thing a) → c'.store.view a = c.store.view a := by
    intro a ha
    have ha₁ : s₁.Within v (.thing a) := ha.congr fun b _ => hfr.view b
    exact (hview₁ a ha₁).trans (hfr.view a)
  have hroot' : ∀ a, v = .thing a → c'.store.Frozen a :=
    fun a ha => hk.frozen a (hroot a ha) (hlive a ha)
  refine ⟨hs'.closed, ?_, fun w => Store.within_iff hview, hview, fun tree => Store.denotes_iff hview⟩
  intro w hw
  have hfrozen := Store.isFrozen_of (hw.frozen hs'.closed hroot')
  exact ⟨hfrozen, hs'.refuses hfrozen⟩

/-- A list with a number in it. -/
theorem frozen_forever_list : ∃ c c₁, Run (fun _ => false) c ∧ c.call (.freeze (.thing 0)) = .ok c₁ ∧
    Refuses c₁ (.thing 0) ∧ c₁.store.Denotes (.thing 0) (.list [.int64 7]) := by
  have hlist : Run (fun _ => false) ((start fun _ => false).gets (.thing 0) _) :=
    .step (k := .newContainer .list) .start trivial rfl
  have hleaf : Run (fun _ => false) (((start fun _ => false).gets (.thing 0) _).gets (.thing 1) _) :=
    .step (k := .newLeaf (.int64 7)) hlist trivial rfl
  have happ := Run.step (k := .change (.thing 0) (.append (.thing 1))) hleaf
    (by
      constructor
      · rintro a ⟨⟩
        exact .owned (by decide)
      · rintro a ⟨⟩
        decide)
    rfl
  obtain ⟨_, c₁, hrun, hall⟩ := frozen_forever _ _ (.thing 0) happ
    (by
      rintro a ⟨⟩
      exact .owned (by decide))
  have hlive : ∀ a, Val.thing 0 = .thing a → c₁.store.Live a := by
    rintro a ⟨⟩
    cases hrun
    exact nofun
  obtain ⟨_, hwithin, _, _, htree⟩ := hall c₁ .refl hlive
  refine ⟨_, c₁, happ, hrun, (hwithin _ .refl).2, (htree _).mpr ?_⟩
  apply @Store.Denotes.list _ 0 [([], .thing 1)] _ rfl rfl
  intro i slot item hslot hitem
  cases i with
  | zero =>
    cases hslot
    cases hitem
    exact .leaf rfl
  | succ i => cases hslot

end Caller

end SentryNative.Memory
