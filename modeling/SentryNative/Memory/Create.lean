import SentryNative.Memory.Mutators

/-!
# Constructors, readers and iterations

A constructor adds a thing, a reader takes at most a reference, and an iteration keeps
a payload.
-/

namespace SentryNative.Memory

open CLib ObjectMap

namespace Store

variable {s s' s₁ : Store} {owned owned' iters : Nat → Nat} {a b p q : Nat} {v value : Val} {kind : Kind}

/-! ## More memory -/

/-- Things may be new, and everything else stays and looks as it did. -/
structure Grows (s s' : Store) : Prop where
  next : s.nextThing ≤ s'.nextThing
  nextPayload : s.nextPayload ≤ s'.nextPayload
  things : ∀ a t, s.things a = some t →
    ∃ t', s'.things a = some t' ∧ t'.body = t.body ∧ t'.frozen = t.frozen
  old : ∀ a, s'.Live a → s.Live a ∨ s.nextThing ≤ a
  view : ∀ a, s.Live a → s'.view a = s.view a
  payloads : ∀ p pl, s.payloads p = some pl → ∃ pl', s'.payloads p = some pl' ∧ pl'.slots = pl.slots
  new : ∀ a, s.nextThing ≤ a → s'.Frozen a → s'.IsLeaf a

theorem Grows.refl (h : Inv s owned iters) : Grows s s := by
  constructor
  · exact Nat.le_refl _
  · exact Nat.le_refl _
  · exact fun a t ht => ⟨t, ht, rfl, rfl⟩
  · exact fun a ha => .inl ha
  · exact fun a _ => rfl
  · exact fun p pl hp => ⟨pl, hp, rfl⟩
  · intro a hge hf
    exact absurd (h.live_lt hf.live) (Nat.not_lt.mpr hge)

theorem Grows.stays (h : Grows s s') (ha : s.Live a) : s'.Live a := by
  obtain ⟨t, ht⟩ := live_iff.mp ha
  obtain ⟨t', ht', _⟩ := h.things a t ht
  exact live_iff.mpr ⟨t', ht'⟩

theorem Grows.frozen_iff (h : Grows s s') (ha : s.Live a) : s'.Frozen a ↔ s.Frozen a := by
  obtain ⟨t, ht⟩ := live_iff.mp ha
  obtain ⟨t', ht', _, hf⟩ := h.things a t ht
  constructor
  · rintro ⟨u, hu, huf⟩
    cases ht'.symm.trans hu
    exact ⟨t, ht, hf.symm.trans huf⟩
  · rintro ⟨u, hu, huf⟩
    cases ht.symm.trans hu
    exact ⟨t', ht', hf.trans huf⟩

theorem isLeaf_of_view {w : Value} (h : s.view a = some (.leaf w)) : s.IsLeaf a := by
  obtain ⟨t, ht⟩ := live_iff.mp (live_of_view h)
  cases hb : t.body with
  | leaf w => exact ⟨t, w, ht, hb⟩
  | container kind p =>
    simp only [Store.view, ht, hb] at h
    cases hp : s.payloads p with
    | none => simp [hp] at h
    | some pl => simp [hp] at h

theorem Grows.leaf (h : Grows s s') (hl : s.IsLeaf a) : s'.IsLeaf a := by
  obtain ⟨w, hw⟩ := hl.view
  exact isLeaf_of_view ((h.view a hl.live).trans hw)

theorem Grows.keeps (h : Grows s s') : KeepsAll s s' :=
  ⟨h.next, h.old, fun a ha _ _ => h.view a ha, fun _ hf _ => (h.frozen_iff hf.live).mpr hf,
    fun _ hl _ => h.leaf hl⟩

theorem Grows.noFreeze (h : Grows s s') : NoFreeze s s' := by
  intro a ha
  rcases h.old a ha.live with hold | hnew
  · exact .inl ((h.frozen_iff hold).mp ha)
  · exact .inr (h.new a hnew ha)

theorem Grows.trans (h : Grows s s₁) (h' : Grows s₁ s') : Grows s s' := by
  constructor
  · exact Nat.le_trans h.next h'.next
  · exact Nat.le_trans h.nextPayload h'.nextPayload
  · intro a t ht
    obtain ⟨t₁, ht₁, hb₁, hf₁⟩ := h.things a t ht
    obtain ⟨t', ht', hb', hf'⟩ := h'.things a t₁ ht₁
    exact ⟨t', ht', hb'.trans hb₁, hf'.trans hf₁⟩
  · intro a ha
    rcases h'.old a ha with h₁ | hge
    · exact h.old a h₁
    · exact .inr (Nat.le_trans h.next hge)
  · exact fun a ha => (h'.view a (h.stays ha)).trans (h.view a ha)
  · intro p pl hp
    obtain ⟨pl₁, hp₁, hs₁⟩ := h.payloads p pl hp
    obtain ⟨pl', hp', hs'⟩ := h'.payloads p pl₁ hp₁
    exact ⟨pl', hp', hs'.trans hs₁⟩
  · intro a hge hf
    rcases h'.noFreeze a hf with h₁ | hl
    · exact h'.leaf (h.new a hge h₁)
    · exact hl

theorem Grows.noNew (h : Quiet s s') (hn : s.nextPayload ≤ s'.nextPayload)
    (hb : ∀ a t t', s.things a = some t → s'.things a = some t' → t'.body = t.body)
    (hi : Inv s owned iters) : Grows s s' := by
  constructor
  · exact Nat.le_of_eq h.nextThing.symm
  · exact hn
  · intro a t ht
    obtain ⟨t', ht', hf⟩ := h.things a t ht
    exact ⟨t', ht', hb a t t' ht ht', hf⟩
  · exact fun a ha => .inl (h.live a ha)
  · exact h.view
  · exact h.payloads
  · intro a hge hf
    exact absurd (hi.live_lt (h.live a hf.live)) (Nat.not_lt.mpr hge)

theorem Grows.iterating (h : Grows s s') : Iterating iters s s' := fun p pl _ hp => h.payloads p pl hp

theorem Reach.grows (hr : Reach s owned iters a) (h : Grows s s') : Reach s' owned iters a := by
  apply hr.transfer
  · intro b kind slots _ hv
    rw [h.view b (live_of_view hv), hv]
  · exact h.iterating

theorem Grows.newThing (h : Inv s owned iters) {t : Thing} (hf : t.frozen = true → ∃ w, t.body = .leaf w) :
    Grows s (s.newThing t) := by
  have hself : (s.newThing t).things s.nextThing = some t := putThing_self ..
  have hne : ∀ b, b ≠ s.nextThing → (s.newThing t).things b = s.things b := fun b hb =>
    putThing_of_ne s _ hb
  have hlt : ∀ b, s.Live b → b ≠ s.nextThing := fun b hb => Nat.ne_of_lt (h.live_lt hb)
  constructor
  · exact Nat.le_succ _
  · exact Nat.le_refl _
  · intro b u hu
    exact ⟨u, (hne b (hlt b (live_iff.mpr ⟨u, hu⟩))).trans hu, rfl, rfl⟩
  · intro b hb
    by_cases hbn : b = s.nextThing
    · exact .inr (Nat.le_of_eq hbn.symm)
    · unfold Live at hb
      rw [hne b hbn] at hb
      exact .inl hb
  · intro b hb
    unfold Store.view
    rw [hne b (hlt b hb)]
    rfl
  · exact fun p pl hp => ⟨pl, hp, rfl⟩
  · rintro b hge ⟨u, hu, huf⟩
    have hbn : b = s.nextThing := by
      by_contra hbn
      rw [hne b hbn] at hu
      exact absurd (h.lt_nextThing hu) (Nat.not_lt.mpr hge)
    subst hbn
    cases hself.symm.trans hu
    obtain ⟨w, hw⟩ := hf huf
    exact ⟨_, w, hself, hw⟩

theorem Quiet.newPayload (h : Inv s owned iters) (pl : Payload) (hempty : pl.slots = []) :
    Quiet s (s.newPayload pl) := by
  have hne : ∀ q u, s.payloads q = some u → (s.newPayload pl).payloads q = s.payloads q := fun q u hq =>
    putPayload_of_ne s _ (Nat.ne_of_lt (h.lt_nextPayload hq))
  constructor
  · rfl
  · exact fun a t ht => ⟨t, ht, rfl⟩
  · exact fun a ha => ha
  · intro a ha
    obtain ⟨t, ht⟩ := live_iff.mp ha
    cases hb : t.body with
    | leaf w => rw [view_leaf (s := s.newPayload pl) ht hb, view_leaf ht hb]
    | container k q =>
      obtain ⟨u, hu⟩ := h.live_payload ht hb
      rw [view_container (s := s.newPayload pl) ht hb ((hne q u hu).trans hu), view_container ht hb hu]
  · exact fun q u hq => ⟨u, (hne q u hq).trans hq, rfl⟩
  · rintro c ⟨q, u, hq, hc⟩
    by_cases hqn : q = s.nextPayload
    · subst hqn
      cases (putPayload_self s s.nextPayload (some pl)).symm.trans hq
      rw [hempty] at hc
      exact absurd hc List.not_mem_nil
    · exact ⟨q, u, (putPayload_of_ne s _ hqn).symm.trans hq, hc⟩

/-! ## Constructors -/

/-- A constructor gives a thing with a reference of its own, or null. -/
structure Created (s : Store) (owned iters : Nat → Nat) (v : Val) (s' : Store) : Prop where
  inv : Inv s' (owned + refOf v) iters
  grows : Grows s s'
  fresh : v = .null ∨ v = .thing s.nextThing ∧ s'.nextThing = s.nextThing + 1
  count : ∀ a, v = .thing a → s'.rc a = 1

theorem Grows.withMallocs (h : Inv s owned iters) (n : Nat) : Grows s { s with mallocs := n } := by
  apply Grows.noNew (.withMallocs s n) (Nat.le_refl _) _ h
  intro a t t' ht ht'
  cases ht.symm.trans ht'
  rfl

theorem Created.null (h : Inv s owned iters) (n : Nat) :
    Created s owned iters .null { s with mallocs := n } :=
  ⟨h.withMallocs n, .withMallocs h n, .inl rfl, nofun⟩

theorem rc_newThing (s : Store) (t : Thing) : (s.newThing t).rc s.nextThing = t.refcount := by
  have hself : (s.newThing t).things s.nextThing = some t := putThing_self ..
  rw [rc_eq, hself]
  rfl

theorem Created.leaf (h : Inv s owned iters) (w : Value) :
    Created s owned iters (.thing s.nextThing) (s.newThing ⟨.leaf w, true, 1⟩) := by
  refine ⟨h.newThing _ rfl fun _ => rfl, .newThing h fun _ => ⟨w, rfl⟩, .inr ⟨rfl, rfl⟩, ?_⟩
  rintro a ⟨⟩
  exact rc_newThing ..

theorem Created.after (h : Created s₁ owned iters v s') (hg : Grows s s₁) (hn : s₁.nextThing = s.nextThing) :
    Created s owned iters v s' := ⟨h.inv, hg.trans h.grows, hn ▸ h.fresh, h.count⟩

theorem Inv.newThingValue_leaf (h : Inv s owned iters) (w : Value) :
    Created s owned iters (s.newThingValue (.leaf w) true).1 (s.newThingValue (.leaf w) true).2 := by
  unfold newThingValue malloc
  cases s.fails s.mallocs with
  | true => exact .null h _
  | false => exact (Created.leaf (h.withMallocs _) w).after (.withMallocs h _) rfl

theorem Inv.newLeaf (h : Inv s owned iters) (w : Value) :
    Created s owned iters (s.newLeaf w).1 (s.newLeaf w).2 := by
  unfold Store.newLeaf malloc
  split
  · cases s.fails s.mallocs with
    | true => exact .null h _
    | false => exact ((h.withMallocs _).newThingValue_leaf _).after (.withMallocs h _) rfl
  · exact h.newThingValue_leaf _

theorem Created.container (h : Inv s owned iters) (kind : Kind) :
    Created s owned iters (.thing s.nextThing)
      ((s.newPayload ⟨[], 1⟩).newThing ⟨.container kind s.nextPayload, false, 1⟩) := by
  have hp : Inv (s.newPayload ⟨[], 1⟩) owned (iters + one s.nextPayload) :=
    h.newPayload ⟨[], 1⟩ Nat.one_pos fun _ => rfl
  refine ⟨?_, ?_, .inr ⟨rfl, rfl⟩, ?_⟩
  rotate_left 2
  · rintro a ⟨⟩
    exact rc_newThing ..
  · apply hp.newThing _ rfl
    intro q
    rw [congrFun (uses_container (t := ⟨.container kind s.nextPayload, false, 1⟩) rfl) q]
    rfl
  · have hnew : Grows s (s.newPayload ⟨[], 1⟩) := by
      apply Grows.noNew (Quiet.newPayload h ⟨[], 1⟩ rfl) (Nat.le_succ _) _ h
      intro a t t' ht ht'
      cases ht.symm.trans ht'
      rfl
    exact hnew.trans (.newThing hp nofun)

theorem Inv.newContainerIn (h : Inv s owned iters) (kind : Kind) (calls : Nat) :
    Created s owned iters (s.newContainerIn kind calls).1 (s.newContainerIn kind calls).2 := by
  obtain ⟨m, hm⟩ := mallocN_eq calls s
  unfold Store.newContainerIn
  cases hok : (mallocN calls s).1 with
  | false =>
    rw [show mallocN calls s = (false, { s with mallocs := m }) from Prod.ext hok hm]
    exact .null h m
  | true =>
    rw [show mallocN calls s = (true, { s with mallocs := m }) from Prod.ext hok hm]
    exact (Created.container (h.withMallocs m) kind).after (.withMallocs h m) rfl

/-- A new container has its payload for itself. -/
theorem newContainerIn_owns {calls : Nat} (hv : (s.newContainerIn kind calls).1 = .thing a) :
    Owns (s.newContainerIn kind calls).2 a kind s.nextPayload ⟨[], 1⟩ ∧
      ¬ (s.newContainerIn kind calls).2.Frozen a := by
  obtain ⟨m, hm⟩ := mallocN_eq calls s
  unfold Store.newContainerIn at hv ⊢
  cases hok : (mallocN calls s).1 with
  | false =>
    rw [show mallocN calls s = (false, { s with mallocs := m }) from Prod.ext hok hm] at hv
    cases hv
  | true =>
    rw [show mallocN calls s = (true, { s with mallocs := m }) from Prod.ext hok hm] at hv ⊢
    cases hv
    refine ⟨⟨⟨_, putThing_self .., rfl⟩, putPayload_self .., rfl⟩, ?_⟩
    rintro ⟨t, ht, hf⟩
    cases (putThing_self ..).symm.trans ht
    cases hf

theorem newContainerIn_ready {calls : Nat} (kind : Kind) (h : Ready calls s) :
    (s.newContainerIn kind calls).1 = .thing s.nextThing ∧
      (s.newContainerIn kind calls).2.fails = s.fails ∧
      (s.newContainerIn kind calls).2.mallocs = s.mallocs + calls := by
  unfold Store.newContainerIn
  rw [mallocN_ready h]
  exact ⟨rfl, rfl, rfl⟩

theorem newContainerIn_not_ready {calls : Nat} (h : ¬ Ready calls s) :
    (s.newContainerIn kind calls).1 = .null := by
  have hfail : (mallocN calls s).1 = false := by
    by_contra hok
    exact h (ready_of_mallocN (Bool.not_eq_false _ ▸ hok))
  obtain ⟨m, hm⟩ := mallocN_eq calls s
  unfold Store.newContainerIn
  rw [show mallocN calls s = (false, { s with mallocs := m }) from Prod.ext hfail hm]

/-! ## Readers -/

theorem Inv.payloadOf (kind : Kind) (h : Inv s owned iters) (hlive : ∀ a, value = .thing a → s.Live a) :
    ∃ r, s.payloadOf value kind = .ok r ∧ (s.shown value kind = none → r = none) ∧
      ∀ slots, s.shown value kind = some slots → ∃ a t p pl, r = some p ∧ value = .thing a ∧
        s.things a = some t ∧ t.body = .container kind p ∧ s.payloads p = some pl ∧
        slots = clonePairs pl.slots := by
  cases value with
  | thing a =>
    obtain ⟨t, ht⟩ := live_iff.mp (hlive a rfl)
    cases hb : t.body with
    | leaf w =>
      refine ⟨none, ?_, fun _ => rfl, ?_⟩
      · simp only [Store.payloadOf, readThing, ht, hb, bind, Except.bind]
        rfl
      · intro slots hs
        simp [shown, view_leaf ht hb] at hs
    | container k p =>
      obtain ⟨pl, hp⟩ := h.live_payload ht hb
      by_cases hk : k = kind
      · subst k
        refine ⟨some p, ?_, ?_, ?_⟩
        · simp only [Store.payloadOf, readThing, ht, hb, bind, Except.bind, if_true]
          rfl
        · intro hs
          simp [shown, view_container ht hb hp] at hs
        · intro slots hs
          simp only [shown, view_container ht hb hp, if_true, Option.some.injEq] at hs
          exact ⟨a, t, p, pl, rfl, rfl, ht, hb, hp, hs.symm⟩
      · refine ⟨none, ?_, fun _ => rfl, ?_⟩
        · simp only [Store.payloadOf, readThing, ht, hb, bind, Except.bind, hk, if_false]
          rfl
        · intro slots hs
          simp [shown, view_container ht hb hp, hk] at hs
  | null => exact ⟨none, rfl, fun _ => rfl, fun _ h => by cases h⟩
  | bool b => exact ⟨none, rfl, fun _ => rfl, fun _ h => by cases h⟩
  | int32 i => exact ⟨none, rfl, fun _ => rfl, fun _ h => by cases h⟩

/-- `sentry_value_get_by_key_n` reads what is shown. -/
theorem Inv.getByKey (h : Inv s owned iters) (hlive : ∀ a, value = .thing a → s.Live a)
    (k : Option Bytes) : s.getByKey value k = .ok (s.lookup value k) := by
  cases k with
  | none => rfl
  | some k =>
    obtain ⟨r, hr, hnone, hsome⟩ := h.payloadOf .object hlive
    cases hs : s.shown value .object with
    | none =>
      have hr' := hnone hs
      subst hr'
      simp only [Store.getByKey, slotsOf, hr, lookup, hs, bind, Except.bind, pure, Except.pure]
    | some slots =>
      obtain ⟨a, t, p, pl, rfl, _, _, _, hp, rfl⟩ := hsome slots hs
      simp only [Store.getByKey, slotsOf, hr, readPayload_eq hp, lookup, hs, getPairs_clonePairs, bind,
        Except.bind, pure, Except.pure]

theorem mem_children_of_getPairs {slots : List (Bytes × Val)} {k : Bytes}
    (h : getPairs .null k slots = .thing a) : a ∈ children slots := by
  induction slots with
  | nil => cases h
  | cons first slots ih =>
    obtain ⟨stored, w⟩ := first
    simp only [getPairs] at h
    split at h
    · exact mem_children_cons.mpr (.inl h)
    · exact mem_children_cons.mpr (.inr (ih h))

/-- What is found is borrowed from where it was found. -/
theorem Borrowed.lookup (hb : Borrowed s owned iters value) (k : Option Bytes) :
    Borrowed s owned iters (s.lookup value k) := by
  intro a ha
  unfold Store.lookup at ha
  split at ha
  · rename_i k slots hs
    obtain ⟨b, hval, hv⟩ := shown_eq_some.mp hs
    exact .slot (hb b hval) hv (mem_children_of_getPairs ha)
  · cases ha

/-- `sentry_value_get_by_key_owned_n` takes a reference to what it finds. -/
theorem Inv.getByKeyOwned (h : Inv s owned iters) (hb : Borrowed s owned iters value) (k : Option Bytes) :
    ∃ s', s.getByKeyOwned value k = .ok (s.lookup value k, s') ∧
      Inv s' (owned + refOf (s.lookup value k)) iters ∧ Recounted s s' := by
  obtain ⟨s', hinc, h', hsame⟩ := h.incref ((hb.lookup k).live h)
  refine ⟨s', ?_, h', hsame⟩
  simp only [Store.getByKeyOwned, h.getByKey (hb.live h) k, hinc, bind, Except.bind]
  rfl

/-! ## Iterations -/

theorem Quiet.putPayload {pl : Payload} (hp : s.payloads p = some pl) (n : Nat) :
    Quiet s (s.putPayload p (some { pl with refcount := n })) := by
  have hslots : ∀ q, ((s.putPayload p (some { pl with refcount := n })).payloads q).map Payload.slots =
      (s.payloads q).map Payload.slots := by
    intro q
    by_cases hqp : q = p
    · subst q
      rw [putPayload_self, hp]
      rfl
    · rw [putPayload_of_ne s _ hqp]
  constructor
  · rfl
  · exact fun a t ht => ⟨t, ht, rfl⟩
  · exact fun a ha => ha
  · intro a ha
    obtain ⟨t, ht⟩ := live_iff.mp ha
    have hview : ∀ kind q, (s.payloads q).map (fun pl => View.container kind (clonePairs pl.slots)) =
        ((s.payloads q).map Payload.slots).map fun slots => View.container kind (clonePairs slots) := by
      intro kind q
      rw [Option.map_map]
      rfl
    have hview' : ∀ kind q, ((s.putPayload p (some { pl with refcount := n })).payloads q).map
        (fun pl => View.container kind (clonePairs pl.slots)) =
        ((s.putPayload p (some { pl with refcount := n })).payloads q |>.map Payload.slots).map
          fun slots => View.container kind (clonePairs slots) := by
      intro kind q
      rw [Option.map_map]
      rfl
    simp only [Store.view, putPayload_things, ht]
    split
    · rfl
    · rw [hview, hview', hslots]
  · intro q u hq
    have h := hslots q
    rw [hq] at h
    obtain ⟨u', hu', hs⟩ := Option.map_eq_some_iff.mp h
    exact ⟨u', hu', hs⟩
  · rintro c ⟨q, u', hq, hc⟩
    have h := hslots q
    rw [hq] at h
    obtain ⟨u, hu, hs⟩ := Option.map_eq_some_iff.mp h.symm
    exact ⟨q, u, hu, hs ▸ hc⟩

/-- One more reference to a payload. -/
theorem Inv.keepPayload {pl : Payload} (h : Inv s owned iters) (hp : s.payloads p = some pl) :
    Inv (s.putPayload p (some { pl with refcount := pl.refcount + 1 })) owned (iters + one p) := by
  apply h.putPayload hp { pl with refcount := pl.refcount + 1 } (Nat.succ_pos _) fun _ => rfl
  intro q
  have hq := h.payloads q
  rw [Pi.add_apply]
  by_cases hqp : q = p
  · subst q
    rw [hp] at hq
    simp only [payloadCount, if_true, one_self] at hq ⊢
    omega
  · simp only [if_neg hqp, one_of_ne hqp]
    exact hq

/-- An iteration begins: it keeps the payload. -/
theorem Inv.foreachBegin (kind : Kind) (h : Inv s owned iters) (hb : Borrowed s owned iters value) :
    ∃ r s', s.foreachBegin value kind = .ok (r, s') ∧ Quiet s s' ∧
      (r = none → Inv s' owned iters) ∧ ∀ p, r = some p → Inv s' owned (iters + one p) ∧
        ∃ pl, s'.payloads p = some pl ∧ s.shown value kind = some (clonePairs pl.slots) := by
  obtain ⟨r, hr, hnone, hsome⟩ := h.payloadOf kind (hb.live h)
  cases hs : s.shown value kind with
  | none =>
    have hr' := hnone hs
    subst hr'
    refine ⟨none, s, ?_, .refl s, fun _ => h, nofun⟩
    simp only [Store.foreachBegin, hr, bind, Except.bind]
    rfl
  | some slots =>
    obtain ⟨a, t, p, pl, rfl, _, _, _, hp, rfl⟩ := hsome slots hs
    refine ⟨some p, s.putPayload p (some { pl with refcount := pl.refcount + 1 }), ?_, .putPayload hp _,
      nofun, ?_⟩
    · simp only [Store.foreachBegin, hr, readPayload_eq hp, bind, Except.bind]
      rfl
    · rintro q ⟨⟩
      exact ⟨h.keepPayload hp, _, putPayload_self .., rfl⟩

end Store

end SentryNative.Memory
