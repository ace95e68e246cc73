import SentryNative.Memory.Replace

/-!
# References are taken

`sentry_value_incref`, the copy of a shared payload, and the payload that a mutator may
write.
-/

namespace SentryNative.Memory

open CLib ObjectMap

namespace Store

variable {s s' s₁ : Store} {owned owned' iters : Nat → Nat} {a b p q : Nat}

/-! ## More references -/

theorem Inv.withMallocs (h : Inv s owned iters) (n : Nat) : Inv { s with mallocs := n } owned iters :=
  ⟨h.thingBound, h.payloadBound, h.thingPos, h.payloadPos, h.things, h.payloads⟩

theorem Quiet.withMallocs (s : Store) (n : Nat) : Quiet s { s with mallocs := n } :=
  ⟨rfl, fun _ t h => ⟨t, h, rfl⟩, fun _ h => h, fun _ _ => rfl, fun _ pl h => ⟨pl, h, rfl⟩, fun _ h => h⟩

/-- Things are there with other counts. -/
structure Recounted (s s' : Store) : Prop where
  there : Shrinks s s'
  back : Shrinks s' s
  payloads : s'.payloads = s.payloads
  fails : s'.fails = s.fails
  mallocs : s'.mallocs = s.mallocs

theorem Recounted.refl (s : Store) : Recounted s s := ⟨.refl s, .refl s, rfl, rfl, rfl⟩

theorem Recounted.trans (h : Recounted s s₁) (h' : Recounted s₁ s') : Recounted s s' :=
  ⟨h.there.trans h'.there, h'.back.trans h.back, h'.payloads.trans h.payloads,
    h'.fails.trans h.fails, h'.mallocs.trans h.mallocs⟩

theorem Recounted.live (h : Recounted s s') (ha : s.Live a) : s'.Live a := h.back.live ha

theorem Recounted.quiet (h : Recounted s s') (hi : Inv s' owned iters) : Quiet s s' := by
  constructor
  · exact h.there.nextThing
  · intro a t ht
    obtain ⟨t', ht', _, hf⟩ := h.back.things a t ht
    exact ⟨t', ht', hf.symm⟩
  · exact fun a ha => h.there.live ha
  · exact fun a ha => h.there.view hi (h.live ha)
  · intro p pl hp
    rw [h.payloads]
    exact ⟨pl, hp, rfl⟩
  · exact fun a ha => h.there.held ha

/-- `sentry_value_incref` takes a reference. -/
theorem Inv.incref {v : Val} (h : Inv s owned iters) (hlive : ∀ a, v = .thing a → s.Live a) :
    ∃ s', s.incref v = .ok s' ∧ Inv s' (owned + refOf v) iters ∧ Recounted s s' := by
  cases v with
  | thing a =>
    obtain ⟨t, ht⟩ := live_iff.mp (hlive a rfl)
    refine ⟨s.putThing a (some { t with refcount := t.refcount + 1 }), ?_, ?_, ?_⟩
    · simp only [Store.incref, readThing, ht, bind, Except.bind]
      rfl
    · apply h.putCount ht (Nat.succ_pos _)
      intro b
      have hb := h.things b
      simp only [refOf_thing, Pi.add_apply]
      by_cases hba : b = a
      · subst b
        rw [rc_eq, ht] at hb
        simp only [if_true, one_self, countOf] at hb ⊢
        omega
      · simp only [if_neg hba, one_of_ne hba]
        exact hb
    · constructor
      · apply Shrinks.putThing ht
        rintro u ⟨⟩
        exact ⟨rfl, rfl⟩
      · have hback : s = (s.putThing a (some { t with refcount := t.refcount + 1 })).putThing a (some t) := by
          simp only [Store.putThing, Function.update_idem, ← ht, Function.update_eq_self]
        nth_rewrite 2 [hback]
        apply Shrinks.putThing (putThing_self ..)
        rintro u ⟨⟩
        exact ⟨rfl, rfl⟩
      · rfl
      · rfl
      · rfl
  | null => exact ⟨s, rfl, h, .refl s⟩
  | bool b => exact ⟨s, rfl, h, .refl s⟩
  | int32 i => exact ⟨s, rfl, h, .refl s⟩

theorem tally_children_cons (k : Bytes) (v : Val) (slots : List (Bytes × Val)) :
    tally (children ((k, v) :: slots)) = refOf v + tally (children slots) := by
  cases v with
  | thing a =>
    change tally (a :: children slots) = _
    rw [tally_cons, add_comm, refOf_thing]
  | null => exact (zero_add _).symm
  | bool b => exact (zero_add _).symm
  | int32 i => exact (zero_add _).symm

theorem mem_children_cons {k : Bytes} {v : Val} {slots : List (Bytes × Val)} :
    a ∈ children ((k, v) :: slots) ↔ v = .thing a ∨ a ∈ children slots := by
  cases v <;> simp [children, eq_comm]

theorem Inv.increfAll (slots : List (Bytes × Val)) (h : Inv s owned iters)
    (hlive : ∀ a ∈ children slots, s.Live a) :
    ∃ s', s.increfAll slots = .ok s' ∧ Inv s' (owned + tally (children slots)) iters ∧
      Recounted s s' := by
  induction slots generalizing s owned with
  | nil => exact ⟨s, rfl, h, .refl s⟩
  | cons slot slots ih =>
    obtain ⟨k, v⟩ := slot
    obtain ⟨s₁, hinc, h₁, hsame⟩ := h.incref (v := v) fun a ha => hlive a (mem_children_cons.mpr (.inl ha))
    have hlive₁ : ∀ a ∈ children slots, s₁.Live a := fun a ha =>
      hsame.live (hlive a (mem_children_cons.mpr (.inr ha)))
    obtain ⟨s', hrest, h', hsame'⟩ := ih h₁ hlive₁
    refine ⟨s', ?_, ?_, hsame.trans hsame'⟩
    · simp only [Store.increfAll, hinc, bind, Except.bind]
      exact hrest
    · rw [tally_children_cons, ← add_assoc]
      exact h'

/-! ## Detach -/

/-- A thing uses another payload; the reference to the old one is left over. -/
theorem Inv.setBody {t : Thing} {kind : Kind} (h : Inv s owned (iters + one q))
    (ht : s.things a = some t) (hb : t.body = .container kind p) :
    Inv (s.putThing a (some { t with body := .container kind q })) owned (iters + one p) := by
  have ha := h.lt_nextThing ht
  constructor
  · intro b hb
    rw [putThing_of_ne s _ (by rintro rfl; exact absurd ha (Nat.not_lt.mpr hb))]
    exact h.thingBound b hb
  · exact h.payloadBound
  · intro b u hu
    by_cases hba : b = a
    · subst b
      rw [putThing_self] at hu
      cases hu
      exact h.thingPos _ t ht
    · rw [putThing_of_ne s _ hba] at hu
      exact h.thingPos b u hu
  · exact h.payloadPos
  · intro b
    have hb := h.things b
    rw [rc_putThing]
    by_cases hba : b = a
    · subst b
      rw [rc_eq, ht] at hb
      simp only [if_true]
      exact hb
    · simp only [if_neg hba]
      exact hb
  · intro r
    have hsum := users_putThing s ha (some { t with body := .container kind q }) r
    have hr := h.payloads r
    rw [ht, congrFun (uses_container hb) r,
      congrFun (uses_container (t := { t with body := .container kind q }) rfl) r] at hsum
    simp only [putThing_payloads, Pi.add_apply] at hr ⊢
    omega

/-- The next calls of `malloc` succeed. -/
def Ready (n : Nat) (s : Store) : Prop := ∀ i < n, s.fails (s.mallocs + i) = false

theorem mallocN_ready {n : Nat} (h : Ready n s) : mallocN n s = (true, { s with mallocs := s.mallocs + n }) := by
  induction n generalizing s with
  | zero => rfl
  | succ n ih =>
    have hfirst : s.fails s.mallocs = false := h 0 (Nat.succ_pos n)
    have hrest : Ready n s.malloc.2 := by
      intro i hi
      have := h (i + 1) (Nat.succ_lt_succ hi)
      rwa [← Nat.add_assoc, Nat.add_right_comm] at this
    unfold mallocN
    rw [hfirst, ih hrest]
    simp only [Bool.false_eq_true, if_false, malloc]
    rw [Nat.add_right_comm, Nat.add_assoc]

theorem ready_of_mallocN {n : Nat} (h : (mallocN n s).1 = true) : Ready n s := by
  induction n generalizing s with
  | zero => exact fun i hi => absurd hi (Nat.not_lt_zero i)
  | succ n ih =>
    unfold mallocN at h
    split at h
    · cases h
    · rename_i hfirst
      intro i hi
      cases i with
      | zero => exact Bool.eq_false_of_not_eq_true hfirst
      | succ i =>
        have := ih h i (Nat.lt_of_succ_lt_succ hi)
        rwa [← Nat.add_assoc, Nat.add_right_comm]

/-- The calls of `malloc` in `thing_detach`. -/
def detachMallocs (s : Store) (a : Nat) : Nat :=
  match s.things a with
  | some ⟨.container kind p, _, _⟩ =>
    match s.payloads p with
    | some pl => if pl.refcount ≤ 1 then 0 else cloneMallocs kind pl.slots.length
    | none => 0
  | _ => 0

theorem detachMallocs_eq {t : Thing} {pl : Payload} {kind : Kind} (ht : s.things a = some t)
    (hb : t.body = .container kind p) (hp : s.payloads p = some pl) :
    s.detachMallocs a = if pl.refcount ≤ 1 then 0 else cloneMallocs kind pl.slots.length := by
  obtain ⟨body, frozen, refcount⟩ := t
  cases hb
  simp only [detachMallocs, ht, hp]

theorem mallocN_eq (n : Nat) (s : Store) : ∃ m, (mallocN n s).2 = { s with mallocs := m } := by
  induction n generalizing s with
  | zero => exact ⟨s.mallocs, rfl⟩
  | succ n ih =>
    unfold mallocN
    split
    · exact ⟨_, rfl⟩
    · exact ih s.malloc.2

theorem clonePairs_clonePairs {V : Type} (slots : List (Bytes × V)) :
    clonePairs (clonePairs slots) = clonePairs slots := by
  simp [clonePairs, Function.comp_def, cstr_of_not_mem (zero_not_mem_cstr _)]

theorem clonePairs_cloneSlots (kind : Kind) (slots : List (Bytes × Val)) :
    clonePairs (cloneSlots kind slots) = clonePairs slots := by
  cases kind with
  | list => rfl
  | object => exact clonePairs_clonePairs slots

theorem children_cloneSlots (kind : Kind) (slots : List (Bytes × Val)) :
    children (cloneSlots kind slots) = children slots := by
  cases kind with
  | list => rfl
  | object => exact children_clonePairs slots

/-- The copy of a payload, for one of its things. -/
def copied (s : Store) (a : Nat) (t : Thing) (kind : Kind) (p : Nat) (pl : Payload) : Store :=
  ((s.putPayload p (some { pl with refcount := pl.refcount - 1 })).newPayload
    ⟨cloneSlots kind pl.slots, 1⟩).putThing a (some { t with body := .container kind s.nextPayload })

theorem Inv.copied {t : Thing} {kind : Kind} {pl : Payload}
    (h : Inv s (owned + tally (children pl.slots)) iters) (ht : s.things a = some t)
    (hb : t.body = .container kind p) (hp : s.payloads p = some pl) (hmany : pl.refcount ≠ 1) :
    Inv (s.copied a t kind p pl) owned iters := by
  have hlt := h.lt_nextPayload hp
  have hne : p ≠ s.nextPayload := Nat.ne_of_lt hlt
  -- the same with the old payload given up last
  have hlast : s.copied a t kind p pl =
      ((s.newPayload ⟨cloneSlots kind pl.slots, 1⟩).putThing a
        (some { t with body := .container kind s.nextPayload })).putPayload p
          (some { pl with refcount := pl.refcount - 1 }) := by
    simp only [Store.copied, Store.newPayload, Store.putPayload, Store.putThing, Function.update_comm hne]
  have hnew : Inv (s.newPayload ⟨cloneSlots kind pl.slots, 1⟩) owned (iters + one s.nextPayload) := by
    apply h.newPayload ⟨cloneSlots kind pl.slots, 1⟩ Nat.one_pos
    intro b
    rw [children_cloneSlots]
    rfl
  have hbody := hnew.setBody (a := a) ht hb
  rw [hlast]
  apply hbody.dropPayload _ hmany
  exact (putPayload_of_ne s _ hne).trans hp

theorem copied_things_of_ne (t : Thing) (kind : Kind) (pl : Payload) (hba : b ≠ a) :
    (s.copied a t kind p pl).things b = s.things b := putThing_of_ne _ _ hba

theorem copied_things_self {t : Thing} {kind : Kind} {pl : Payload} :
    (s.copied a t kind p pl).things a = some { t with body := .container kind s.nextPayload } :=
  putThing_self ..

theorem copied_payloads (t : Thing) (kind : Kind) {pl u : Payload} (hp : s.payloads p = some pl)
    (hlt : q < s.nextPayload) (hq : s.payloads q = some u) :
    ∃ u', (s.copied a t kind p pl).payloads q = some u' ∧ u'.slots = u.slots := by
  have hold : (s.copied a t kind p pl).payloads q =
      (s.putPayload p (some { pl with refcount := pl.refcount - 1 })).payloads q :=
    putPayload_of_ne _ _ (Nat.ne_of_lt hlt)
  rw [hold]
  by_cases hqp : q = p
  · subst q
    cases hp.symm.trans hq
    exact ⟨_, putPayload_self .., rfl⟩
  · rw [putPayload_of_ne s _ hqp]
    exact ⟨u, hq, rfl⟩

theorem Owns.copied (s : Store) (a : Nat) (t : Thing) (kind : Kind) (p : Nat) (pl : Payload) :
    Owns (s.copied a t kind p pl) a kind s.nextPayload ⟨cloneSlots kind pl.slots, 1⟩ :=
  ⟨⟨_, copied_things_self, rfl⟩, putPayload_self .., rfl⟩

theorem Quiet.copied {t : Thing} {kind : Kind} {pl : Payload} (hi : Inv s owned iters)
    (ht : s.things a = some t) (hb : t.body = .container kind p) (hp : s.payloads p = some pl) :
    Quiet s (s.copied a t kind p pl) := by
  constructor
  · rfl
  · intro b u hu
    by_cases hba : b = a
    · subst b
      cases ht.symm.trans hu
      exact ⟨_, copied_things_self, rfl⟩
    · exact ⟨u, (copied_things_of_ne _ _ _ hba).trans hu, rfl⟩
  · intro b hlive
    by_cases hba : b = a
    · subst b
      exact live_iff.mpr ⟨t, ht⟩
    · unfold Live at hlive
      rwa [copied_things_of_ne t kind pl hba] at hlive
  · intro b hlive
    by_cases hba : b = a
    · subst b
      rw [(Owns.copied s a t kind p pl).view, view_container ht hb hp, clonePairs_cloneSlots]
    · obtain ⟨u, hu⟩ := live_iff.mp hlive
      have hu' := (copied_things_of_ne (s := s) (p := p) t kind pl hba).trans hu
      cases hbody : u.body with
      | leaf v => rw [view_leaf hu' hbody, view_leaf hu hbody]
      | container k q =>
        obtain ⟨w, hw⟩ := hi.live_payload hu hbody
        obtain ⟨w', hw', hslots⟩ := copied_payloads (a := a) t kind hp
          (hi.lt_nextPayload hw) hw
        rw [view_container hu' hbody hw', view_container hu hbody hw, hslots]
  · intro q u hq
    exact copied_payloads t kind hp (hi.lt_nextPayload hq) hq
  · rintro c ⟨q, u, hq, hc⟩
    by_cases hqn : q = s.nextPayload
    · -- the copy holds what the payload holds
      subst hqn
      rw [(Owns.copied s a t kind p pl).payload] at hq
      cases hq
      rw [children_cloneSlots] at hc
      exact ⟨p, pl, hp, hc⟩
    · have hold : (s.copied a t kind p pl).payloads q =
          (s.putPayload p (some { pl with refcount := pl.refcount - 1 })).payloads q := putPayload_of_ne _ _ hqn
      rw [hold] at hq
      by_cases hqp : q = p
      · subst q
        rw [putPayload_self] at hq
        cases hq
        exact ⟨p, pl, hp, hc⟩
      · rw [putPayload_of_ne s _ hqp] at hq
        exact ⟨q, u, hq, hc⟩

/-- No other thing changes its body or loses a payload of its own, and no payload address
is given back. -/
structure Apart (a : Nat) (s s' : Store) : Prop where
  nextPayload : s.nextPayload ≤ s'.nextPayload
  body : ∀ b t t', b ≠ a → s.things b = some t → s'.things b = some t' → t'.body = t.body
  owns : ∀ b k q pl, b ≠ a → Owns s b k q pl → Owns s' b k q pl

theorem Apart.withMallocs (a : Nat) (s : Store) (n : Nat) : Apart a s { s with mallocs := n } := by
  refine ⟨Nat.le_refl _, ?_, fun b k q pl _ h => ⟨h.body, h.payload, h.one⟩⟩
  intro b t t' _ ht ht'
  cases ht.symm.trans ht'
  rfl

/-- `thing_detach` leaves everything as it looks; when it does not fail, the thing has
its payload for itself: a new one, or the one it had for itself before. -/
theorem Inv.detach (h : Inv s owned iters) (ha : s.Live a) :
    ∃ ok s', s.detach a = .ok (ok, s') ∧ Inv s' owned iters ∧ Quiet s s' ∧ Apart a s s' ∧
      (ok = true → ∀ kind slots, s.view a = some (.container kind slots) →
        ∃ p pl, Owns s' a kind p pl ∧ (s.nextPayload ≤ p ∨ Owns s a kind p pl)) ∧
      (Ready (s.detachMallocs a) s →
        ok = true ∧ s'.fails = s.fails ∧ s'.mallocs = s.mallocs + s.detachMallocs a) := by
  obtain ⟨t, ht⟩ := live_iff.mp ha
  cases hb : t.body with
  | leaf v =>
    have hzero : s.detachMallocs a = 0 := by
      obtain ⟨body, frozen, refcount⟩ := t
      cases hb
      simp only [detachMallocs, ht]
    refine ⟨true, s, ?_, h, .refl s, .withMallocs a s s.mallocs, ?_, fun _ => ⟨rfl, rfl, by rw [hzero]; rfl⟩⟩
    · simp only [Store.detach, readThing, ht, hb, bind, Except.bind]
      rfl
    · intro _ kind slots hv
      rw [view_leaf ht hb] at hv
      cases hv
  | container kind p =>
    obtain ⟨pl, hp⟩ := h.live_payload ht hb
    have hkind : ∀ k slots, s.view a = some (.container k slots) → k = kind := by
      intro k slots hv
      rw [view_container ht hb hp] at hv
      cases hv
      rfl
    have hmallocs := detachMallocs_eq ht hb hp
    by_cases hle : pl.refcount ≤ 1
    · rw [if_pos hle] at hmallocs
      refine ⟨true, s, ?_, h, .refl s, .withMallocs a s s.mallocs, ?_,
        fun _ => ⟨rfl, rfl, by rw [hmallocs]; rfl⟩⟩
      · simp only [Store.detach, readThing, readPayload, ht, hb, hp, hle, bind, Except.bind, if_true]
        rfl
      · intro _ k slots hv
        have hpos := h.payloadPos p pl hp
        have howns : Owns s a kind p pl := ⟨⟨t, ht, hb⟩, hp, by omega⟩
        rw [hkind k slots hv]
        exact ⟨p, pl, howns, .inr howns⟩
    · rw [if_neg hle] at hmallocs
      obtain ⟨m, hm⟩ := mallocN_eq (cloneMallocs kind pl.slots.length) s
      cases hok : (mallocN (cloneMallocs kind pl.slots.length) s).1 with
      | false =>
        refine ⟨false, { s with mallocs := m }, ?_, h.withMallocs m, .withMallocs s m,
          .withMallocs a s m, (fun h => by cases h), ?_⟩
        rotate_left
        · intro hready
          rw [hmallocs] at hready
          rw [mallocN_ready hready] at hok
          cases hok
        have hpair : mallocN (cloneMallocs kind pl.slots.length) s = (false, { s with mallocs := m }) :=
          Prod.ext hok hm
        simp only [Store.detach, readThing, readPayload, ht, hb, hp, hle, hpair, bind, Except.bind, if_false]
        rfl
      | true =>
        have hpair : mallocN (cloneMallocs kind pl.slots.length) s = (true, { s with mallocs := m }) :=
          Prod.ext hok hm
        have hmany : pl.refcount ≠ 1 := by omega
        obtain ⟨s₁, hall, h₁, hsame⟩ := (h.withMallocs m).increfAll pl.slots
          fun b hb => live_iff.mpr (h.live_of_slot hp hb)
        obtain ⟨t₁, ht₁⟩ := live_iff.mp (hsame.live ha)
        obtain ⟨u, hu, hb₁, _⟩ := hsame.there.things a t₁ ht₁
        cases ht.symm.trans hu
        have hbody₁ := hb₁.trans hb
        have hp₁ : s₁.payloads p = some pl := (congrFun hsame.payloads p).trans hp
        have hnext : s₁.nextPayload = s.nextPayload := hsame.there.nextPayload
        refine ⟨true, s₁.copied a t₁ kind p pl, ?_, h₁.copied ht₁ hbody₁ hp₁ hmany, ?_, ?_, ?_, ?_⟩
        · simp only [Store.detach, readThing, readPayload, ht, hb, hp, hle, hpair, hall, Store.payloadFree,
            hp₁, hmany, bind, Except.bind, pure, Except.pure, if_false, ne_eq, not_false_eq_true, if_true,
            Store.newPayload, putPayload_things, ht₁]
          rfl
        · have hquiet := Quiet.copied h₁ ht₁ hbody₁ hp₁
          exact ((Quiet.withMallocs s m).trans (hsame.quiet h₁)).trans hquiet
        · constructor
          · exact Nat.le_trans (Nat.le_of_eq hnext.symm) (Nat.le_succ _)
          · intro b u u' hba hu' hu''
            rw [copied_things_of_ne _ _ _ hba] at hu''
            obtain ⟨w, hw, hbw, _⟩ := hsame.there.things b u' hu''
            cases hu'.symm.trans hw
            exact hbw
          · intro b k q w hba ho
            obtain ⟨u, hu, hbu⟩ := ho.body
            obtain ⟨u₁, hu₁, hbu₁, _⟩ := hsame.back.things b u hu
            have hqp : q ≠ p := by
              rintro rfl
              exact hba (ho.user_eq h ht hb).symm
            have hq : q ≠ s₁.nextPayload := by
              rw [hnext]
              exact Nat.ne_of_lt (h.lt_nextPayload ho.payload)
            refine ⟨⟨u₁, (copied_things_of_ne _ _ _ hba).trans hu₁, hbu₁.symm.trans hbu⟩, ?_, ho.one⟩
            have hpay : (s₁.copied a t₁ kind p pl).payloads q = s₁.payloads q :=
              (putPayload_of_ne _ _ hq).trans (putPayload_of_ne _ _ hqp)
            rw [hpay, hsame.payloads]
            exact ho.payload
        · intro _ k slots hv
          rw [hkind k slots hv]
          exact ⟨_, _, Owns.copied s₁ a t₁ kind p pl, .inl (Nat.le_of_eq hnext.symm)⟩
        · intro hready
          rw [hmallocs] at hready ⊢
          rw [mallocN_ready hready] at hm
          have hm' : s.mallocs + cloneMallocs kind pl.slots.length = m := congrArg Store.mallocs hm
          exact ⟨rfl, hsame.fails, hsame.mallocs.trans hm'.symm⟩

/-- A thing is detached only with the memory for it. -/
theorem ready_of_detach (h : s.detach a = .ok (true, s')) : Ready (s.detachMallocs a) s := by
  cases ht : s.things a with
  | none => simp [Store.detach, readThing, ht, bind, Except.bind] at h
  | some t =>
    cases hb : t.body with
    | leaf v =>
      obtain ⟨body, frozen, refcount⟩ := t
      cases hb
      simp only [detachMallocs, ht]
      exact fun i hi => absurd hi (Nat.not_lt_zero i)
    | container kind p =>
      cases hp : s.payloads p with
      | none => simp [Store.detach, readThing, readPayload, ht, hb, hp, bind, Except.bind] at h
      | some pl =>
        rw [detachMallocs_eq ht hb hp]
        by_cases hle : pl.refcount ≤ 1
        · rw [if_pos hle]
          exact fun i hi => absurd hi (Nat.not_lt_zero i)
        · rw [if_neg hle]
          apply ready_of_mallocN
          by_contra hfail
          have hpair : mallocN (cloneMallocs kind pl.slots.length) s =
              (false, (mallocN (cloneMallocs kind pl.slots.length) s).2) :=
            Prod.ext (Bool.eq_false_of_not_eq_true hfail) rfl
          simp only [Store.detach, readThing, readPayload, ht, hb, hp, hle, bind, Except.bind, if_false] at h
          rw [hpair] at h
          cases h

/-! ## What a mutator may write -/

/-- `writable` finds the payload of an unfrozen container of the kind, or nothing. -/
theorem Inv.writable {value : Val} (kind : Kind) (h : Inv s owned iters)
    (hlive : ∀ a, value = .thing a → s.Live a) :
    ∃ r s', s.writable value kind = .ok (r, s') ∧ Inv s' owned iters ∧ Quiet s s' ∧
      (∀ p, r = some p → ∃ a pl, value = .thing a ∧ ¬ s.Frozen a ∧ Owns s' a kind p pl ∧ Apart a s s' ∧
        Ready (s.detachMallocs a) s) ∧
      ∀ a slots, value = .thing a → ¬ s.Frozen a → s.view a = some (.container kind slots) →
        Ready (s.detachMallocs a) s → r ≠ none ∧ s'.fails = s.fails ∧
          s'.mallocs = s.mallocs + s.detachMallocs a := by
  cases value with
  | thing a =>
    obtain ⟨t, ht⟩ := live_iff.mp (hlive a rfl)
    cases hb : t.body with
    | leaf v =>
      refine ⟨none, s, ?_, h, .refl s, nofun, ?_⟩
      rotate_left
      · rintro b slots ⟨⟩ _ hv
        rw [view_leaf ht hb] at hv
        cases hv
      simp only [Store.writable, readThing, ht, hb, bind, Except.bind]
      rfl
    | container k p =>
      obtain ⟨pl, hp⟩ := h.live_payload ht hb
      cases hcond : t.frozen || decide (k ≠ kind) with
      | true =>
        refine ⟨none, s, ?_, h, .refl s, nofun, ?_⟩
        rotate_left
        · rintro b slots ⟨⟩ hfrozen hv
          rw [view_container ht hb hp] at hv
          cases hv
          simp only [ne_eq, not_true_eq_false, decide_false, Bool.or_false] at hcond
          exact absurd ⟨t, ht, hcond⟩ hfrozen
        simp only [Store.writable, readThing, ht, hb, hcond, bind, Except.bind, if_true]
        rfl
      | false =>
        obtain ⟨ok, s₁, hdet, h₁, hquiet, hapart, howns, hready⟩ := h.detach (live_iff.mpr ⟨t, ht⟩)
        simp only [Bool.or_eq_false_iff, decide_eq_false_iff_not, not_not] at hcond
        obtain ⟨hfrozen, rfl⟩ := hcond
        cases ok with
        | false =>
          refine ⟨none, s₁, ?_, h₁, hquiet, nofun, ?_⟩
          rotate_left
          · rintro b slots ⟨⟩ _ _ hr
            exact absurd (hready hr).1 nofun
          simp only [Store.writable, readThing, ht, hb, hfrozen, hdet, bind, Except.bind, ne_eq,
            not_true_eq_false, decide_false, Bool.or_self, Bool.false_eq_true, if_false, Bool.not_false, if_true]
          rfl
        | true =>
          obtain ⟨q, pl', hq, _⟩ := howns rfl k _ (view_container ht hb hp)
          obtain ⟨t₁, ht₁, hb₁⟩ := hq.body
          refine ⟨some q, s₁, ?_, h₁, hquiet, ?_, ?_⟩
          · simp only [Store.writable, readThing, ht, hb, hfrozen, hdet, ht₁, hb₁, bind, Except.bind, ne_eq,
              not_true_eq_false, decide_false, Bool.or_self, Bool.false_eq_true, if_false, Bool.not_true]
            rfl
          · rintro r ⟨⟩
            refine ⟨a, pl', rfl, ?_, hq, hapart, ready_of_detach hdet⟩
            rintro ⟨u, hu, huf⟩
            cases ht.symm.trans hu
            rw [hfrozen] at huf
            cases huf
          · rintro b slots ⟨⟩ _ _ hr
            exact ⟨nofun, (hready hr).2⟩
  | null => exact ⟨none, s, rfl, h, .refl s, nofun, nofun⟩
  | bool b => exact ⟨none, s, rfl, h, .refl s, nofun, nofun⟩
  | int32 i => exact ⟨none, s, rfl, h, .refl s, nofun, nofun⟩

end Store

end SentryNative.Memory
