import SentryNative.Memory.Counts

/-!
# Releasing references

`sentry_value_decref` on exact counts: it never touches a freed cell, and it frees
only what no handle reaches.
-/

namespace SentryNative.Memory

open CLib

namespace Store

variable {s s' s₁ : Store} {owned iters : Nat → Nat} {a b p q : Nat}

/-! ## Less memory -/

/-- Cells are freed and counts change, and nothing else does. -/
structure Shrinks (s s' : Store) : Prop where
  things : ∀ a t', s'.things a = some t' →
    ∃ t, s.things a = some t ∧ t'.body = t.body ∧ t'.frozen = t.frozen
  payloads : ∀ p pl', s'.payloads p = some pl' → ∃ pl, s.payloads p = some pl ∧ pl'.slots = pl.slots
  nextThing : s'.nextThing = s.nextThing
  nextPayload : s'.nextPayload = s.nextPayload

theorem Shrinks.refl (s : Store) : Shrinks s s :=
  ⟨fun _ t h => ⟨t, h, rfl, rfl⟩, fun _ pl h => ⟨pl, h, rfl⟩, rfl, rfl⟩

theorem Shrinks.trans (h : Shrinks s s₁) (h' : Shrinks s₁ s') : Shrinks s s' := by
  constructor
  · intro a t' ht'
    obtain ⟨t₁, ht₁, hb₁, hf₁⟩ := h'.things a t' ht'
    obtain ⟨t, ht, hb, hf⟩ := h.things a t₁ ht₁
    exact ⟨t, ht, hb₁.trans hb, hf₁.trans hf⟩
  · intro p pl' hp'
    obtain ⟨pl₁, hp₁, hs₁⟩ := h'.payloads p pl' hp'
    obtain ⟨pl, hp, hs⟩ := h.payloads p pl₁ hp₁
    exact ⟨pl, hp, hs₁.trans hs⟩
  · exact h'.nextThing.trans h.nextThing
  · exact h'.nextPayload.trans h.nextPayload

theorem Shrinks.putThing {t : Thing} (ht : s.things a = some t) {t' : Option Thing}
    (h : ∀ u, t' = some u → u.body = t.body ∧ u.frozen = t.frozen) : Shrinks s (s.putThing a t') := by
  constructor
  · intro b u hu
    by_cases hba : b = a
    · subst b
      rw [putThing_self] at hu
      exact ⟨t, ht, h u hu⟩
    · rw [putThing_of_ne s _ hba] at hu
      exact ⟨u, hu, rfl, rfl⟩
  · exact fun _ pl h => ⟨pl, h, rfl⟩
  · rfl
  · rfl

theorem Shrinks.freeThing {t : Thing} (ht : s.things a = some t) : Shrinks s (s.putThing a none) := by
  apply Shrinks.putThing ht
  intro u hu
  cases hu

theorem Shrinks.putPayload {pl : Payload} (hp : s.payloads p = some pl) {pl' : Option Payload}
    (h : ∀ u, pl' = some u → u.slots = pl.slots) : Shrinks s (s.putPayload p pl') := by
  constructor
  · exact fun _ t h => ⟨t, h, rfl, rfl⟩
  · intro q u hu
    by_cases hqp : q = p
    · subst q
      rw [putPayload_self] at hu
      exact ⟨pl, hp, h u hu⟩
    · rw [putPayload_of_ne s _ hqp] at hu
      exact ⟨u, hu, rfl⟩
  · rfl
  · rfl

theorem Shrinks.thing_gone (h : Shrinks s s') (ha : s.things a = none) : s'.things a = none := by
  cases ht : s'.things a with
  | none => rfl
  | some t =>
    obtain ⟨u, hu, _⟩ := h.things a t ht
    rw [ha] at hu
    cases hu

theorem Shrinks.payload_gone (h : Shrinks s s') (hp : s.payloads p = none) : s'.payloads p = none := by
  cases hq : s'.payloads p with
  | none => rfl
  | some pl =>
    obtain ⟨u, hu, _⟩ := h.payloads p pl hq
    rw [hp] at hu
    cases hu

/-! ## Release -/

/-- What one reference does that is given up: a count goes down, or a thing goes with
or without its payload. -/
inductive Released (s : Store) (a : Nat) : Store → List Nat → Prop
  | kept (t : Thing) : s.things a = some t → t.refcount ≠ 1 →
    Released s a (s.putThing a (some { t with refcount := t.refcount - 1 })) []
  | leaf (t : Thing) (v : Value) : s.things a = some t → t.refcount = 1 → t.body = .leaf v →
    Released s a (s.putThing a none) []
  | shared (t : Thing) (kind : Kind) (p : Nat) (pl : Payload) : s.things a = some t → t.refcount = 1 →
    t.body = .container kind p → s.payloads p = some pl → pl.refcount ≠ 1 →
    Released s a ((s.putThing a none).putPayload p (some { pl with refcount := pl.refcount - 1 })) []
  | freed (t : Thing) (kind : Kind) (p : Nat) (pl : Payload) : s.things a = some t → t.refcount = 1 →
    t.body = .container kind p → s.payloads p = some pl → pl.refcount = 1 →
    Released s a ((s.putThing a none).putPayload p none) (children pl.slots)

/-- A release is such steps, one after the other. -/
theorem Released.release_eq {next : List Nat} (h : Released s a s' next) (fuel : Nat) (work : List Nat) :
    release (fuel + 1) (a :: work) s = release fuel (next ++ work) s' := by
  cases h with
  | kept t ht hn => simp [release, ht, hn]
  | leaf t v ht h1 hb => simp [release, ht, h1, hb]
  | shared t kind p pl ht h1 hb hp hn => simp [release, ht, h1, hb, hp, hn]
  | freed t kind p pl ht h1 hb hp hn => simp [release, ht, h1, hb, hp, hn]

theorem Inv.released (h : Inv s (owned + one a) iters) : ∃ s' next, Released s a s' next := by
  have hlive : 0 < (owned + one a) a := by simp
  obtain ⟨t, ht⟩ := h.live_of_owned hlive
  by_cases hn : t.refcount = 1
  · cases hb : t.body with
    | leaf v => exact ⟨_, _, .leaf t v ht hn hb⟩
    | container kind p =>
      obtain ⟨pl, hp⟩ := h.live_payload ht hb
      by_cases hone : pl.refcount = 1
      · exact ⟨_, _, .freed t kind p pl ht hn hb hp hone⟩
      · exact ⟨_, _, .shared t kind p pl ht hn hb hp hone⟩
  · exact ⟨_, _, .kept t ht hn⟩

theorem uses_container {t : Thing} {kind : Kind} (hb : t.body = .container kind p) :
    (fun q => uses q (some t)) = one p := by
  funext q
  simp only [uses, hb, one, eq_comm]

/-- One such step keeps the counts exact. -/
theorem Released.inv {next : List Nat} (hr : Released s a s' next) (h : Inv s (owned + one a) iters) :
    Inv s' (owned + tally next) iters := by
  cases hr with
  | kept t ht hn =>
    have hpos := h.thingPos a t ht
    rw [tally_nil, add_zero]
    apply h.putCount ht (by omega)
    intro b
    have hb := h.things b
    simp only [Pi.add_apply] at hb
    by_cases hba : b = a
    · subst b
      rw [one_self, rc_eq, ht] at hb
      simp only [if_true, countOf] at hb ⊢
      omega
    · rw [one_of_ne hba] at hb
      simp only [if_neg hba]
      omega
  | leaf t v ht h1 hb =>
    rw [tally_nil, add_zero]
    apply h.freeThing ht h1
    intro q
    simp [uses, hb]
  | shared t kind p pl ht h1 hb hp hn =>
    rw [tally_nil, add_zero]
    have hfree : Inv (s.putThing a none) owned (iters + one p) := by
      apply h.freeThing ht h1
      intro q
      rw [Pi.add_apply, ← uses_container hb]
    exact hfree.dropPayload hp hn
  | freed t kind p pl ht h1 hb hp hn =>
    have hfree : Inv (s.putThing a none) owned (iters + one p) := by
      apply h.freeThing ht h1
      intro q
      rw [Pi.add_apply, ← uses_container hb]
    exact hfree.freePayload hp hn

theorem Released.shrinks {next : List Nat} (hr : Released s a s' next) : Shrinks s s' := by
  cases hr with
  | kept t ht hn =>
    apply Shrinks.putThing ht
    rintro u ⟨⟩
    exact ⟨rfl, rfl⟩
  | leaf t v ht h1 hb => exact Shrinks.freeThing ht
  | shared t kind p pl ht h1 hb hp hn =>
    apply (Shrinks.freeThing ht).trans
    apply Shrinks.putPayload (s := s.putThing a none) hp
    rintro u ⟨⟩
    rfl
  | freed t kind p pl ht h1 hb hp hn =>
    apply (Shrinks.freeThing ht).trans
    apply Shrinks.putPayload (s := s.putThing a none) hp
    intro u hu
    cases hu

/-- One reference less. -/
theorem Released.refs_lt {next : List Nat} (hr : Released s a s' next) (ha : a < s.nextThing)
    (hpos : 0 < s.rc a) : s'.refs + 1 = s.refs := by
  have hput : ∀ t', (s.putThing a t').refs + s.rc a = s.refs + countOf t' := refs_putThing s ha
  have hpayload : ∀ q pl, ((s.putThing a none).putPayload q pl).refs = (s.putThing a none).refs :=
    fun _ _ => rfl
  have hnone := hput none
  cases hr with
  | kept t ht hn =>
    have hsum := hput (some { t with refcount := t.refcount - 1 })
    rw [rc_eq, ht] at hsum hpos
    simp only [countOf] at hsum hpos
    omega
  | leaf t v ht h1 hb =>
    rw [rc_eq, ht] at hnone
    simp only [countOf] at hnone
    omega
  | shared t kind p pl ht h1 hb hp hn =>
    rw [rc_eq, ht] at hnone
    rw [hpayload]
    simp only [countOf] at hnone
    omega
  | freed t kind p pl ht h1 hb hp hn =>
    rw [rc_eq, ht] at hnone
    rw [hpayload]
    simp only [countOf] at hnone
    omega

/-- With exact counts a release ends, and the counts stay exact. -/
theorem Inv.release {fuel : Nat} {work : List Nat} (h : Inv s (owned + tally work) iters)
    (hfuel : s.refs ≤ fuel) :
    ∃ s', release fuel work s = .ok s' ∧ Inv s' owned iters ∧ Shrinks s s' := by
  induction fuel generalizing s work with
  | zero =>
    cases work with
    | nil =>
      rw [tally_nil, add_zero] at h
      exact ⟨s, rfl, h, .refl s⟩
    | cons a work =>
      -- the reference that is given up is one of none
      rw [tally_cons, ← add_assoc] at h
      obtain ⟨t, ht⟩ := h.live_of_owned (a := a) (by simp)
      have hlt := h.lt_nextThing ht
      have hle : s.rc a ≤ s.refs := Counting.le_sum_range countOf s.things hlt
      have hrc := h.things a
      simp only [Pi.add_apply, one_self] at hrc
      omega
  | succ fuel ih =>
    cases work with
    | nil =>
      rw [tally_nil, add_zero] at h
      exact ⟨s, rfl, h, .refl s⟩
    | cons a work =>
      rw [tally_cons, ← add_assoc] at h
      obtain ⟨s₁, next, hr⟩ := h.released
      obtain ⟨t, ht⟩ := h.live_of_owned (a := a) (by simp)
      have hrc := h.things a
      simp only [Pi.add_apply, one_self] at hrc
      have hrefs := hr.refs_lt (h.lt_nextThing ht) (by omega)
      have h₁ : Inv s₁ (owned + tally (next ++ work)) iters := by
        rw [tally_append, add_comm (tally next), ← add_assoc]
        exact hr.inv h
      obtain ⟨s', hrun, hinv, hshr⟩ := ih h₁ (by omega)
      exact ⟨s', (hr.release_eq fuel work).trans hrun, hinv, hr.shrinks.trans hshr⟩

/-- A reference that is not the last one is only counted down. -/
theorem decref_many {t : Thing} (ht : s.things a = some t) (ha : a < s.nextThing) (hmany : 2 ≤ t.refcount) :
    s.decref (.thing a) = .ok (s.putThing a (some { t with refcount := t.refcount - 1 })) := by
  have hle : s.rc a ≤ s.refs := Counting.le_sum_range countOf s.things ha
  rw [rc_eq, ht] at hle
  simp only [countOf] at hle
  obtain ⟨k, hk⟩ : ∃ k, s.refs = k + 1 := ⟨s.refs - 1, by omega⟩
  have hone : t.refcount ≠ 1 := by omega
  simp only [Store.decref, hk, release, ht, ne_eq, hone, not_false_eq_true, if_true]

theorem decref_of_not_thing (s : Store) {v : Val} (h : ∀ a, v ≠ .thing a) : s.decref v = .ok s := by
  cases v with
  | thing a => exact absurd rfl (h a)
  | null => rfl
  | bool b => rfl
  | int32 i => rfl

/-- `sentry_value_decref` gives up a reference. -/
theorem Inv.decref {v : Val} (h : Inv s (owned + refOf v) iters) :
    ∃ s', s.decref v = .ok s' ∧ Inv s' owned iters ∧ Shrinks s s' := by
  cases v with
  | thing a =>
    apply Inv.release _ (Nat.le_refl _)
    rw [tally_cons, tally_nil, zero_add]
    exact h
  | null => exact ⟨s, rfl, h, .refl s⟩
  | bool b => exact ⟨s, rfl, h, .refl s⟩
  | int32 i => exact ⟨s, rfl, h, .refl s⟩

/-- `list_free` and `obj_free` give up a reference to a payload. -/
theorem Inv.payloadFree (h : Inv s owned (iters + one p)) :
    ∃ s', s.payloadFree p = .ok s' ∧ Inv s' owned iters ∧ Shrinks s s' := by
  obtain ⟨pl, hp⟩ := h.live_of_iter (p := p) (by simp)
  by_cases hone : pl.refcount = 1
  · obtain ⟨s', hrun, hinv, hshr⟩ := Inv.release (h.freePayload hp hone) (Nat.le_refl _)
    have hfree : Shrinks s (s.putPayload p none) := by
      apply Shrinks.putPayload hp
      intro u hu
      cases hu
    refine ⟨s', ?_, hinv, hfree.trans hshr⟩
    unfold Store.payloadFree
    simp only [readPayload, hp, hone, bind, Except.bind, ne_eq, not_true_eq_false, if_false]
    exact hrun
  · refine ⟨s.putPayload p (some { pl with refcount := pl.refcount - 1 }), ?_, h.dropPayload hp hone, ?_⟩
    · unfold Store.payloadFree
      simp only [readPayload, hp, hone, bind, Except.bind, ne_eq, not_false_eq_true, if_true]
      rfl
    · apply Shrinks.putPayload hp
      rintro u ⟨⟩
      rfl

/-! ## Slots that are not read

A mutator releases the old value of a slot before it writes the slot. As long as the
payload is not freed, no release reads its slots, so that the two may change places.
-/

/-- The slots of a payload are replaced. -/
def setSlots (s : Store) (p : Nat) (slots : List (Bytes × Val)) : Store :=
  match s.payloads p with
  | some pl => s.putPayload p (some { pl with slots := slots })
  | none => s

theorem setSlots_eq {pl : Payload} (hp : s.payloads p = some pl) (slots : List (Bytes × Val)) :
    s.setSlots p slots = s.putPayload p (some { pl with slots := slots }) := by
  unfold setSlots
  rw [hp]

theorem write_eq {pl : Payload} (hp : s.payloads p = some pl) (slots : List (Bytes × Val)) :
    s.write p slots = .ok (s.setSlots p slots) := by
  rw [setSlots_eq hp]
  simp only [write, readPayload, hp, bind, Except.bind]
  rfl

@[simp] theorem setSlots_things (s : Store) (p : Nat) (slots : List (Bytes × Val)) :
    (s.setSlots p slots).things = s.things := by
  unfold setSlots
  split <;> rfl

@[simp] theorem setSlots_nextThing (s : Store) (p : Nat) (slots : List (Bytes × Val)) :
    (s.setSlots p slots).nextThing = s.nextThing := by
  unfold setSlots
  split <;> rfl

@[simp] theorem setSlots_nextPayload (s : Store) (p : Nat) (slots : List (Bytes × Val)) :
    (s.setSlots p slots).nextPayload = s.nextPayload := by
  unfold setSlots
  split <;> rfl

@[simp] theorem setSlots_fails (s : Store) (p : Nat) (slots : List (Bytes × Val)) :
    (s.setSlots p slots).fails = s.fails := by
  unfold setSlots
  split <;> rfl

@[simp] theorem setSlots_mallocs (s : Store) (p : Nat) (slots : List (Bytes × Val)) :
    (s.setSlots p slots).mallocs = s.mallocs := by
  unfold setSlots
  split <;> rfl

theorem setSlots_self {pl : Payload} (hp : s.payloads p = some pl) (slots : List (Bytes × Val)) :
    (s.setSlots p slots).payloads p = some { pl with slots := slots } := by
  rw [setSlots_eq hp, putPayload_self]

theorem setSlots_of_ne (slots : List (Bytes × Val)) (h : q ≠ p) :
    (s.setSlots p slots).payloads q = s.payloads q := by
  unfold setSlots
  split
  · exact putPayload_of_ne s _ h
  · rfl

theorem setSlots_setSlots (s : Store) (p : Nat) (xs ys : List (Bytes × Val)) :
    (s.setSlots p xs).setSlots p ys = s.setSlots p ys := by
  cases hp : s.payloads p with
  | none => simp [setSlots, hp]
  | some pl =>
    rw [setSlots_eq hp, setSlots_eq hp, setSlots_eq (putPayload_self ..)]
    simp only [Store.putPayload, Function.update_idem]

theorem setSlots_putThing (s : Store) (t : Option Thing) (slots : List (Bytes × Val)) :
    (s.putThing a t).setSlots p slots = (s.setSlots p slots).putThing a t := by
  unfold setSlots
  cases hp : s.payloads p with
  | none => simp [hp]
  | some pl =>
    simp only [putThing_payloads, hp]
    rfl

theorem setSlots_putPayload_of_ne (s : Store) (pl : Option Payload) (slots : List (Bytes × Val))
    (h : q ≠ p) : (s.putPayload q pl).setSlots p slots = (s.setSlots p slots).putPayload q pl := by
  unfold setSlots
  rw [putPayload_of_ne s pl h.symm]
  cases hp : s.payloads p with
  | none => rfl
  | some pl' => simp only [Store.putPayload, Function.update_comm h]

/-- Each step that is done to other slots is done to the real ones. -/
theorem Released.of_setSlots {next : List Nat} {slots : List (Bytes × Val)} {pl : Payload}
    (hp : s.payloads p = some pl) (hr : Released (s.setSlots p slots) a s₁ next)
    (hlive : s₁.payloads p ≠ none) :
    ∃ s', Released s a s' next ∧ s'.setSlots p slots = s₁ ∧ s'.payloads p ≠ none := by
  cases hr with
  | kept t ht hn =>
    rw [setSlots_things] at ht
    refine ⟨_, .kept t ht hn, setSlots_putThing .., ?_⟩
    rw [putThing_payloads, hp]
    exact Option.some_ne_none pl
  | leaf t v ht h1 hb =>
    rw [setSlots_things] at ht
    refine ⟨_, .leaf t v ht h1 hb, setSlots_putThing .., ?_⟩
    rw [putThing_payloads, hp]
    exact Option.some_ne_none pl
  | shared t kind q plq ht h1 hb hq hn =>
    rw [setSlots_things] at ht
    by_cases hqp : q = p
    · subst q
      rw [setSlots_self hp] at hq
      cases hq
      refine ⟨_, .shared t kind p pl ht h1 hb hp hn, ?_, ?_⟩
      · rw [setSlots_eq (putPayload_self ..), ← setSlots_putThing, setSlots_eq (s := s.putThing a none) hp]
        simp only [Store.putPayload, Function.update_idem]
      · rw [putPayload_self]
        exact Option.some_ne_none _
    · rw [setSlots_of_ne slots hqp] at hq
      refine ⟨_, .shared t kind q plq ht h1 hb hq hn, ?_, ?_⟩
      · rw [setSlots_putPayload_of_ne _ _ _ hqp, setSlots_putThing]
      · rw [putPayload_of_ne _ _ (Ne.symm hqp), putThing_payloads, hp]
        exact Option.some_ne_none pl
  | freed t kind q plq ht h1 hb hq hn =>
    rw [setSlots_things] at ht
    by_cases hqp : q = p
    · subst q
      exact absurd (putPayload_self ..) hlive
    · rw [setSlots_of_ne slots hqp] at hq
      refine ⟨_, .freed t kind q plq ht h1 hb hq hn, ?_, ?_⟩
      · rw [setSlots_putPayload_of_ne _ _ _ hqp, setSlots_putThing]
      · rw [putPayload_of_ne _ _ (Ne.symm hqp), putThing_payloads, hp]
        exact Option.some_ne_none pl

/-- What a release that ends began with. -/
theorem release_cases {fuel : Nat} {work : List Nat} (h : release (fuel + 1) (a :: work) s = .ok s') :
    ∃ s₁ next, Released s a s₁ next ∧ release fuel (next ++ work) s₁ = .ok s' := by
  have hlive : ∃ s₁ next, Released s a s₁ next := by
    cases ht : s.things a with
    | none => simp [release, ht] at h
    | some t =>
      by_cases hn : t.refcount = 1
      · cases hb : t.body with
        | leaf v => exact ⟨_, _, .leaf t v ht hn hb⟩
        | container kind p =>
          cases hp : s.payloads p with
          | none => simp [release, ht, hn, hb, hp] at h
          | some pl =>
            by_cases hone : pl.refcount = 1
            · exact ⟨_, _, .freed t kind p pl ht hn hb hp hone⟩
            · exact ⟨_, _, .shared t kind p pl ht hn hb hp hone⟩
      · exact ⟨_, _, .kept t ht hn⟩
  obtain ⟨s₁, next, hr⟩ := hlive
  exact ⟨s₁, next, hr, (hr.release_eq fuel work).symm.trans h⟩

theorem release_shrinks {fuel : Nat} {work : List Nat} (h : release fuel work s = .ok s') :
    Shrinks s s' := by
  induction fuel generalizing s work with
  | zero =>
    cases work with
    | nil =>
      cases h
      exact .refl _
    | cons a work => cases h
  | succ fuel ih =>
    cases work with
    | nil =>
      cases h
      exact .refl _
    | cons a work =>
      obtain ⟨s₁, next, hr, hrest⟩ := release_cases h
      exact hr.shrinks.trans (ih hrest)

/-- A release with other slots in a payload that survives it is a release with the
real ones. -/
theorem release_of_setSlots {fuel : Nat} {work : List Nat} {slots : List (Bytes × Val)}
    (hp : s.payloads p ≠ none) (h : release fuel work (s.setSlots p slots) = .ok s₁)
    (hlive : s₁.payloads p ≠ none) :
    ∃ s', release fuel work s = .ok s' ∧ s'.setSlots p slots = s₁ ∧ s'.payloads p ≠ none := by
  induction fuel generalizing s work with
  | zero =>
    cases work with
    | nil =>
      cases h
      exact ⟨s, rfl, rfl, hp⟩
    | cons a work => cases h
  | succ fuel ih =>
    cases work with
    | nil =>
      cases h
      exact ⟨s, rfl, rfl, hp⟩
    | cons a work =>
      obtain ⟨s₂, next, hr, hrest⟩ := release_cases h
      obtain ⟨pl, hpl⟩ := Option.ne_none_iff_exists'.mp hp
      have hlive₂ : s₂.payloads p ≠ none := fun hnone =>
        hlive ((release_shrinks hrest).payload_gone hnone)
      obtain ⟨s', hr', rfl, hp'⟩ := hr.of_setSlots hpl hlive₂
      obtain ⟨s₃, hrun, heq, hp₃⟩ := ih hp' hrest
      exact ⟨s₃, (hr'.release_eq fuel work).trans hrun, heq, hp₃⟩

theorem decref_of_setSlots {v : Val} {slots : List (Bytes × Val)} (hp : s.payloads p ≠ none)
    (h : (s.setSlots p slots).decref v = .ok s₁) (hlive : s₁.payloads p ≠ none) :
    ∃ s', s.decref v = .ok s' ∧ s'.setSlots p slots = s₁ ∧ s'.payloads p ≠ none := by
  cases v with
  | thing a =>
    have hrefs : (s.setSlots p slots).refs = s.refs := by
      unfold refs
      rw [setSlots_nextThing]
      simp only [rc, setSlots_things]
    unfold decref at h
    rw [hrefs] at h
    exact release_of_setSlots hp h hlive
  | null =>
    cases h
    exact ⟨s, rfl, rfl, hp⟩
  | bool b =>
    cases h
    exact ⟨s, rfl, rfl, hp⟩
  | int32 i =>
    cases h
    exact ⟨s, rfl, rfl, hp⟩

end Store

end SentryNative.Memory
