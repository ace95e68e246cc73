import SentryNative.Memory.Reach

/-!
# A slot is replaced

A mutator has a payload for itself and replaces a slot of it. What it releases may be
much of the store, but not the container it was called on.
-/

namespace SentryNative.Memory

open CLib ObjectMap

namespace Store

variable {s s' s₁ : Store} {owned owned' iters : Nat → Nat} {a b p q : Nat}

/-! ## A payload with one reference -/

/-- The thing has the payload for itself. -/
structure Owns (s : Store) (a : Nat) (kind : Kind) (p : Nat) (pl : Payload) : Prop where
  body : ∃ t, s.things a = some t ∧ t.body = .container kind p
  payload : s.payloads p = some pl
  one : pl.refcount = 1

theorem Owns.view {kind : Kind} {pl : Payload} (h : Owns s a kind p pl) :
    s.view a = some (.container kind (clonePairs pl.slots)) := by
  obtain ⟨t, ht, hb⟩ := h.body
  exact view_container ht hb h.payload

theorem Owns.user_eq {kind k : Kind} {pl : Payload} (h : Owns s a kind p pl) (hi : Inv s owned iters)
    {u : Thing} (hu : s.things b = some u) (hb : u.body = .container k p) : b = a := by
  by_contra hne
  obtain ⟨t, ht, hbody⟩ := h.body
  have hsum := Counting.add_le_sum_range (uses p) s.things (hi.lt_nextThing hu) (hi.lt_nextThing ht) hne
  rw [uses_eq_one hu hb, uses_eq_one ht hbody] at hsum
  have hcount := hi.payloads p
  rw [h.payload] at hcount
  have hone := h.one
  simp only [payloadCount, users] at hcount
  omega

theorem Owns.iters_eq {kind : Kind} {pl : Payload} (h : Owns s a kind p pl) (hi : Inv s owned iters) :
    iters p = 0 := by
  obtain ⟨t, ht, hbody⟩ := h.body
  have hsum := Counting.le_sum_range (uses p) s.things (hi.lt_nextThing ht)
  rw [uses_eq_one ht hbody] at hsum
  have hcount := hi.payloads p
  rw [h.payload] at hcount
  have hone := h.one
  simp only [payloadCount, users] at hcount
  omega

theorem Owns.iterating {kind : Kind} {pl : Payload} (h : Owns s a kind p pl) (hi : Inv s owned iters)
    (slots : List (Bytes × Val)) : Iterating iters s (s.setSlots p slots) := by
  intro q u hpos hq
  have hqp : q ≠ p := by
    rintro rfl
    rw [h.iters_eq hi] at hpos
    exact Nat.lt_irrefl 0 hpos
  exact ⟨u, (setSlots_of_ne slots hqp).trans hq, rfl⟩

theorem Owns.setSlots {kind : Kind} {pl : Payload} (h : Owns s a kind p pl) (slots : List (Bytes × Val)) :
    Owns (s.setSlots p slots) a kind p { pl with slots := slots } := by
  constructor
  · rw [setSlots_things]
    exact h.body
  · exact setSlots_self h.payload slots
  · exact h.one

/-- The slots of a payload with one reference are seen through its thing only. -/
theorem Owns.view_of_ne {kind : Kind} {pl : Payload} (h : Owns s a kind p pl) (hi : Inv s owned iters)
    (slots : List (Bytes × Val)) (hne : b ≠ a) : (s.setSlots p slots).view b = s.view b := by
  unfold Store.view
  rw [setSlots_things]
  cases hu : s.things b with
  | none => rfl
  | some u =>
    cases hb : u.body with
    | leaf v => simp only [hb]
    | container k q =>
      have hqp : q ≠ p := by
        rintro rfl
        exact hne (h.user_eq hi hu hb)
      simp only [hb, setSlots_of_ne slots hqp]

/-- A thing is reached without its own slots. -/
theorem Owns.reach {kind : Kind} {pl : Payload} (h : Owns s a kind p pl) (hi : Inv s owned' iters)
    (hr : Reach s owned iters a) (slots : List (Bytes × Val)) :
    Reach (s.setSlots p slots) owned iters a := by
  -- a path either avoids the thing or has a beginning that ends in it
  have hpath : ∀ b, Reach s owned iters b →
      Reach (s.setSlots p slots) owned iters b ∨ Reach (s.setSlots p slots) owned iters a := by
    intro b hb
    induction hb with
    | owned ho => exact .inl (.owned ho)
    | @iter b q pl' hq hpl hb =>
      have hqp : q ≠ p := by
        rintro rfl
        rw [h.iters_eq hi] at hq
        exact Nat.lt_irrefl 0 hq
      exact .inl (.iter hq ((setSlots_of_ne slots hqp).trans hpl) hb)
    | @slot b c kind' slots' _ hv hb ih =>
      rcases ih with hc | ha
      · by_cases hca : c = a
        · exact .inr (hca ▸ hc)
        · exact .inl (.slot hc ((h.view_of_ne hi slots hca).trans hv) hb)
      · exact .inr ha
  exact (hpath a hr).elim id id

theorem Owns.inv {kind : Kind} {pl : Payload} (h : Owns s a kind p pl) (hi : Inv s owned iters)
    {slots : List (Bytes × Val)}
    (ho : owned + tally (children pl.slots) = owned' + tally (children slots)) :
    Inv (s.setSlots p slots) owned' iters := by
  rw [setSlots_eq h.payload]
  apply hi.putPayload h.payload { pl with slots := slots } (hi.payloadPos p pl h.payload)
  · exact fun b => congrFun ho b
  · intro q
    have hq := hi.payloads q
    by_cases hqp : q = p
    · subst q
      rw [h.payload] at hq
      simp only [if_true]
      exact hq
    · simp only [if_neg hqp]
      exact hq

theorem Owns.keeps {kind : Kind} {pl : Payload} (h : Owns s a kind p pl) (hi : Inv s owned iters)
    (slots : List (Bytes × Val)) : Keeps (· = a) s (s.setSlots p slots) := by
  constructor
  · rw [setSlots_nextThing]
  · intro b hb
    unfold Live at hb
    rw [setSlots_things] at hb
    exact .inl hb
  · exact fun b _ _ hne => h.view_of_ne hi slots hne
  · intro b hf _
    unfold Frozen
    rwa [setSlots_things]
  · intro b hl _
    unfold IsLeaf
    rwa [setSlots_things]

theorem noFreeze_setSlots (s : Store) (p : Nat) (slots : List (Bytes × Val)) :
    NoFreeze s (s.setSlots p slots) := by
  intro b hb
  unfold Frozen at hb
  rw [setSlots_things] at hb
  exact .inl hb

theorem Shrinks.uses_le (h : Shrinks s s') (p b : Nat) : uses p (s'.things b) ≤ uses p (s.things b) := by
  cases ht' : s'.things b with
  | none => exact Nat.zero_le _
  | some t' =>
    obtain ⟨t, ht, hb, _⟩ := h.things b t' ht'
    rw [ht]
    simp [uses, hb]

/-- A payload with one reference has it still when its thing survives. -/
theorem Owns.shrinks {kind : Kind} {pl : Payload} (h : Owns s a kind p pl) (hi : Inv s owned iters)
    (hshr : Shrinks s s') (hi' : Inv s' owned' iters) (ha : s'.Live a) : Owns s' a kind p pl := by
  obtain ⟨t, ht, hb⟩ := h.body
  obtain ⟨t', ht'⟩ := live_iff.mp ha
  obtain ⟨u, hu, hb', _⟩ := hshr.things a t' ht'
  cases ht.symm.trans hu
  have hbody := hb'.trans hb
  obtain ⟨pl', hp'⟩ := hi'.live_payload ht' hbody
  obtain ⟨v, hv, hslots⟩ := hshr.payloads p pl' hp'
  cases h.payload.symm.trans hv
  have hle : s'.users p ≤ s.users p := by
    unfold users
    rw [hshr.nextThing]
    exact Finset.sum_le_sum fun b _ => hshr.uses_le p b
  have hcount := hi.payloads p
  have hcount' := hi'.payloads p
  have hpos := hi'.payloadPos p pl' hp'
  have hone := h.one
  rw [h.payload] at hcount
  rw [hp'] at hcount'
  simp only [payloadCount] at hcount hcount'
  have hsame : pl' = pl := by
    cases pl
    cases pl'
    simp only [Payload.mk.injEq]
    exact ⟨hslots, by simp only at *; omega⟩
  subst hsame
  exact ⟨⟨t', ht', hbody⟩, hp', h.one⟩

/-! ## A slot is replaced -/

/-- What a mutator does to the container it is called on and to the rest. -/
structure Replaced (s : Store) (owned iters : Nat → Nat) (a : Nat) (kind : Kind)
    (slots : List (Bytes × Val)) (s' : Store) : Prop where
  inv : Inv s' owned iters
  keeps : Keeps (· = a) s s'
  noFreeze : NoFreeze s s'
  nextThing : s'.nextThing = s.nextThing
  iterating : Iterating iters s s'
  view : s'.view a = some (.container kind (clonePairs slots))
  /-- Who reaches the container without the value that went into it still does. -/
  reach : ∀ owned₀ : Nat → Nat, (∀ b, owned₀ b ≤ owned b) → Reach s owned₀ iters a →
    Reach s' owned₀ iters a

theorem stays_setSlots (s : Store) (p : Nat) (slots : List (Bytes × Val)) : Stays s (s.setSlots p slots) := by
  constructor
  · intro a ha
    unfold Live
    rwa [setSlots_things]
  · intro q hq
    by_cases hqp : q = p
    · subst q
      obtain ⟨pl, hp⟩ := Option.ne_none_iff_exists'.mp hq
      rw [setSlots_self hp]
      exact Option.some_ne_none _
    · rwa [setSlots_of_ne slots hqp]

/-- The old value is released, then the slots are written; `mid` is what both have. -/
theorem Owns.replace {kind : Kind} {pl : Payload} {v : Val} (old : Val) {mid slots : List (Bytes × Val)}
    (h : Owns s a kind p pl) (hi : Inv s (owned + refOf v) iters)
    (hr : ∀ x, old = .thing x → Reach s (owned + refOf v) iters a)
    (hold : tally (children pl.slots) = tally (children mid) + refOf old)
    (hnew : tally (children slots) = tally (children mid) + refOf v) :
    ∃ s₁ s', s.decref old = .ok s₁ ∧ s₁.write p slots = .ok s' ∧
      Replaced s owned iters a kind slots s' ∧ ((∀ x, old ≠ .thing x) → Stays s s') := by
  -- with the old value out of its slot, its release is one of an owned reference
  have hmid : Inv (s.setSlots p mid) (owned + refOf v + refOf old) iters := by
    apply h.inv hi
    rw [hold, ← add_assoc, add_right_comm]
  obtain ⟨s₂, hdec, hi₂, hshr⟩ := hmid.decref
  have hr₂ : ∀ owned₀ : Nat → Nat, (∀ b, owned₀ b ≤ (owned + refOf v) b) → Reach s owned₀ iters a →
      Reach s₂ owned₀ iters a := fun owned₀ hle hr₀ =>
    (h.reach hi hr₀ mid).shrinks hshr hi₂ hle
  have hid : (∀ x, old ≠ .thing x) → s₂ = s.setSlots p mid := fun hnot =>
    (Except.ok.inj (hdec.symm.trans (decref_of_not_thing _ hnot)))
  have hlive : s₂.Live a := by
    by_cases hthing : ∃ x, old = .thing x
    · obtain ⟨x, hx⟩ := hthing
      exact (hr₂ _ (fun _ => Nat.le_refl _) (hr x hx)).live hi₂
    · rw [hid fun x hx => hthing ⟨x, hx⟩]
      unfold Live
      rw [setSlots_things]
      obtain ⟨t, ht, _⟩ := h.body
      exact live_iff.mpr ⟨t, ht⟩
  have howns : Owns s₂ a kind p { pl with slots := mid } := (h.setSlots mid).shrinks hmid hshr hi₂ hlive
  obtain ⟨s₁, hdec', rfl, hp₁⟩ := decref_of_setSlots (Option.ne_none_iff_exists'.mpr ⟨pl, h.payload⟩) hdec
    (Option.ne_none_iff_exists'.mpr ⟨_, howns.payload⟩)
  obtain ⟨pl₁, hpl₁⟩ := Option.ne_none_iff_exists'.mp hp₁
  refine ⟨s₁, s₁.setSlots p slots, hdec', write_eq hpl₁ slots, ?_, ?_⟩
  rotate_left
  · intro hnot
    rw [← setSlots_setSlots s₁ p mid slots, hid hnot, setSlots_setSlots]
    exact stays_setSlots s p slots
  rw [← setSlots_setSlots s₁ p mid slots]
  constructor
  · apply howns.inv hi₂
    rw [hnew, ← add_assoc, add_right_comm]
  · have hbefore := h.keeps hi mid
    have hrelease : Keeps (· = a) (s.setSlots p mid) (s₁.setSlots p mid) :=
      (hshr.keeps hi₂).mono fun _ _ hw => hw.elim
    have hafter := howns.keeps hi₂ slots
    exact (hbefore.trans_same hrelease hi).trans_same hafter hi
  · have hrelease := hshr.noFreeze
    have hafter := noFreeze_setSlots (s₁.setSlots p mid) p slots
    exact ((noFreeze_setSlots s p mid).trans hrelease (hshr.keeps hi₂)).trans hafter (howns.keeps hi₂ slots)
  · rw [setSlots_nextThing, hshr.nextThing, setSlots_nextThing]
  · exact ((h.iterating hi mid).trans (hshr.iterating hi₂)).trans (howns.iterating hi₂ slots)
  · exact (howns.setSlots slots).view
  · intro owned₀ hle hr₀
    apply howns.reach hi₂
    apply hr₂ owned₀ _ hr₀
    intro b
    exact Nat.le_trans (hle b) (Nat.le_add_right _ _)

end Store

end SentryNative.Memory
