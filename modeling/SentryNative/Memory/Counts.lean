import SentryNative.Lib.Counting
import SentryNative.Memory.Store

/-!
# Exact reference counts

A thing has as many references as there are handles and slots that hold it, and a
payload as many as there are things that use it and iterations that run over it.
-/

namespace SentryNative.Memory

open Finset Counting

/-! ## What holds what -/

/-- How often a payload holds a thing. -/
def holds (a : Nat) (pl : Option Payload) : Nat :=
  match pl with
  | some pl => (children pl.slots).count a
  | none => 0

/-- Whether a thing uses a payload. -/
def uses (p : Nat) (t : Option Thing) : Nat :=
  match t with
  | some t =>
    match t.body with
    | .container _ q => if q = p then 1 else 0
    | .leaf _ => 0
  | none => 0

def countOf (t : Option Thing) : Nat :=
  match t with
  | some t => t.refcount
  | none => 0

def payloadCount (pl : Option Payload) : Nat :=
  match pl with
  | some pl => pl.refcount
  | none => 0

/-- One reference. -/
def one (a : Nat) : Nat → Nat := fun b => if b = a then 1 else 0

/-- The references of a list of things. -/
def tally (work : List Nat) : Nat → Nat := fun b => work.count b

/-- The reference that a value is. -/
def refOf (v : Val) : Nat → Nat :=
  match v with
  | .thing a => one a
  | _ => 0

@[simp] theorem one_self (a : Nat) : one a a = 1 := by simp [one]

theorem one_of_ne {a b : Nat} (h : b ≠ a) : one a b = 0 := by simp [one, h]

@[simp] theorem tally_nil : tally [] = 0 := rfl

theorem tally_cons (a : Nat) (work : List Nat) : tally (a :: work) = tally work + one a := by
  funext b
  unfold tally one
  rw [List.count_cons, Pi.add_apply]
  simp only [beq_iff_eq, @eq_comm _ a b]

theorem tally_append (xs ys : List Nat) : tally (xs ++ ys) = tally xs + tally ys := by
  funext b
  simp [tally]

@[simp] theorem refOf_thing (a : Nat) : refOf (.thing a) = one a := rfl

namespace Store

variable {s : Store} {owned iters : Nat → Nat} {a b p q : Nat}

def slotRefs (s : Store) (a : Nat) : Nat := ∑ p ∈ range s.nextPayload, holds a (s.payloads p)

def users (s : Store) (p : Nat) : Nat := ∑ a ∈ range s.nextThing, uses p (s.things a)

theorem rc_eq (s : Store) (a : Nat) : s.rc a = countOf (s.things a) := rfl

/-- The counts are exact; `owned` are the handles, `iters` the running iterations. -/
structure Inv (s : Store) (owned iters : Nat → Nat) : Prop where
  thingBound : ∀ a, s.nextThing ≤ a → s.things a = none
  payloadBound : ∀ p, s.nextPayload ≤ p → s.payloads p = none
  thingPos : ∀ a t, s.things a = some t → 0 < t.refcount
  payloadPos : ∀ p pl, s.payloads p = some pl → 0 < pl.refcount
  things : ∀ a, s.rc a = owned a + s.slotRefs a
  payloads : ∀ p, payloadCount (s.payloads p) = s.users p + iters p

/-- The owned handles may be described otherwise. -/
theorem Inv.congr (h : Inv s owned iters) {owned' : Nat → Nat} (ho : ∀ a, owned' a = owned a) :
    Inv s owned' iters := (funext ho : owned' = owned) ▸ h

/-! ## Live cells -/

theorem Inv.lt_nextThing (h : Inv s owned iters) {t : Thing} (ht : s.things a = some t) :
    a < s.nextThing := by
  by_contra hge
  rw [h.thingBound a (Nat.le_of_not_lt hge)] at ht
  cases ht

theorem Inv.lt_nextPayload (h : Inv s owned iters) {pl : Payload} (hp : s.payloads p = some pl) :
    p < s.nextPayload := by
  by_contra hge
  rw [h.payloadBound p (Nat.le_of_not_lt hge)] at hp
  cases hp

theorem thing_of_rc_pos (h : 0 < s.rc a) : ∃ t, s.things a = some t := by
  unfold rc at h
  cases ht : s.things a with
  | none =>
    rw [ht] at h
    cases h
  | some t => exact ⟨t, rfl⟩

theorem payload_of_pos (h : 0 < payloadCount (s.payloads p)) : ∃ pl, s.payloads p = some pl := by
  cases hp : s.payloads p with
  | none =>
    rw [hp] at h
    cases h
  | some pl => exact ⟨pl, rfl⟩

/-- An owned handle is of a live thing. -/
theorem Inv.live_of_owned (h : Inv s owned iters) (ha : 0 < owned a) : ∃ t, s.things a = some t := by
  apply thing_of_rc_pos
  have := h.things a
  omega

/-- What a live payload holds is live. -/
theorem Inv.live_of_slot (h : Inv s owned iters) {pl : Payload} (hp : s.payloads p = some pl)
    (ha : a ∈ children pl.slots) : ∃ t, s.things a = some t := by
  apply thing_of_rc_pos
  have hcount : 0 < holds a (s.payloads p) := by
    rw [hp]
    exact List.count_pos_iff.mpr ha
  have hle := le_sum_range (holds a) s.payloads (h.lt_nextPayload hp)
  have := h.things a
  unfold slotRefs at this
  omega

theorem uses_eq_one {t : Thing} (ht : s.things a = some t) {kind : Kind}
    (hb : t.body = .container kind p) : uses p (s.things a) = 1 := by
  rw [ht]
  simp [uses, hb]

/-- The payload of a live thing is live. -/
theorem Inv.live_payload (h : Inv s owned iters) {t : Thing} (ht : s.things a = some t) {kind : Kind}
    (hb : t.body = .container kind p) : ∃ pl, s.payloads p = some pl := by
  apply payload_of_pos
  have huse := uses_eq_one ht hb
  have hle := le_sum_range (uses p) s.things (h.lt_nextThing ht)
  have := h.payloads p
  unfold users at this
  omega

theorem Inv.live_of_iter (h : Inv s owned iters) (hp : 0 < iters p) : ∃ pl, s.payloads p = some pl := by
  apply payload_of_pos
  have := h.payloads p
  omega

/-! ## One cell is replaced -/

@[simp] theorem putThing_payloads (s : Store) (a : Nat) (t : Option Thing) :
    (s.putThing a t).payloads = s.payloads := rfl

@[simp] theorem putPayload_things (s : Store) (p : Nat) (pl : Option Payload) :
    (s.putPayload p pl).things = s.things := rfl

theorem putThing_self (s : Store) (a : Nat) (t : Option Thing) : (s.putThing a t).things a = t :=
  Function.update_self ..

theorem putThing_of_ne (s : Store) (t : Option Thing) (h : b ≠ a) :
    (s.putThing a t).things b = s.things b := Function.update_of_ne h ..

theorem putPayload_self (s : Store) (p : Nat) (pl : Option Payload) :
    (s.putPayload p pl).payloads p = pl := Function.update_self ..

theorem putPayload_of_ne (s : Store) (pl : Option Payload) (h : q ≠ p) :
    (s.putPayload p pl).payloads q = s.payloads q := Function.update_of_ne h ..

theorem rc_putThing (s : Store) (a b : Nat) (t : Option Thing) :
    (s.putThing a t).rc b = if b = a then countOf t else s.rc b := by
  unfold putThing
  rw [rc_eq, rc_eq]
  by_cases h : b = a
  · subst b
    simp
  · simp [Function.update_of_ne h, h]

theorem users_putThing (s : Store) {a : Nat} (ha : a < s.nextThing) (t : Option Thing) (p : Nat) :
    (s.putThing a t).users p + uses p (s.things a) = s.users p + uses p t :=
  sum_range_update (uses p) s.things ha t

theorem refs_putThing (s : Store) {a : Nat} (ha : a < s.nextThing) (t : Option Thing) :
    (s.putThing a t).refs + s.rc a = s.refs + countOf t :=
  sum_range_update countOf s.things ha t

theorem slotRefs_putPayload (s : Store) {p : Nat} (hp : p < s.nextPayload) (pl : Option Payload)
    (a : Nat) : (s.putPayload p pl).slotRefs a + holds a (s.payloads p) = s.slotRefs a + holds a pl :=
  sum_range_update (holds a) s.payloads hp pl

theorem payloadCount_putPayload (s : Store) (p q : Nat) (pl : Option Payload) :
    payloadCount ((s.putPayload p pl).payloads q) =
      if q = p then payloadCount pl else payloadCount (s.payloads q) := by
  by_cases h : q = p
  · subst q
    simp [putPayload_self]
  · simp [putPayload_of_ne s pl h, h]

/-- A thing with the same body and another count. -/
theorem Inv.putCount (h : Inv s owned iters) {t : Thing} (ht : s.things a = some t) {n : Nat}
    (hn : 0 < n) {frozen : Bool} {owned' : Nat → Nat}
    (ho : ∀ b, (if b = a then n else s.rc b) = owned' b + s.slotRefs b) :
    Inv (s.putThing a (some ⟨t.body, frozen, n⟩)) owned' iters := by
  have ha := h.lt_nextThing ht
  have husers : ∀ p, (s.putThing a (some ⟨t.body, frozen, n⟩)).users p = s.users p := by
    intro p
    have hsum := users_putThing s ha (some ⟨t.body, frozen, n⟩) p
    have hsame : uses p (s.things a) = uses p (some ⟨t.body, frozen, n⟩) := by
      rw [ht]
      rfl
    omega
  constructor
  · intro b hb
    rw [putThing_of_ne s _ (by rintro rfl; exact absurd ha (Nat.not_lt.mpr hb))]
    exact h.thingBound b hb
  · exact h.payloadBound
  · intro b u hu
    by_cases hba : b = a
    · subst b
      rw [putThing_self] at hu
      cases hu
      exact hn
    · rw [putThing_of_ne s _ hba] at hu
      exact h.thingPos b u hu
  · exact h.payloadPos
  · intro b
    rw [rc_putThing]
    exact ho b
  · intro q
    rw [husers q]
    exact h.payloads q

/-- A payload with other slots or another count. -/
theorem Inv.putPayload (h : Inv s owned iters) {pl : Payload} (hp : s.payloads p = some pl)
    (pl' : Payload) (hpos : 0 < pl'.refcount) {owned' iters' : Nat → Nat}
    (ho : ∀ b, owned b + (children pl.slots).count b = owned' b + (children pl'.slots).count b)
    (hi : ∀ q, (if q = p then pl'.refcount else payloadCount (s.payloads q)) = s.users q + iters' q) :
    Inv (s.putPayload p (some pl')) owned' iters' := by
  have hlt := h.lt_nextPayload hp
  constructor
  · exact h.thingBound
  · intro q hq
    rw [putPayload_of_ne s _ (by rintro rfl; exact absurd hlt (Nat.not_lt.mpr hq))]
    exact h.payloadBound q hq
  · exact h.thingPos
  · intro q u hu
    by_cases hqp : q = p
    · subst q
      rw [putPayload_self] at hu
      cases hu
      exact hpos
    · rw [putPayload_of_ne s _ hqp] at hu
      exact h.payloadPos q u hu
  · intro b
    have hsum := slotRefs_putPayload s hlt (some pl') b
    rw [hp] at hsum
    have hcount := ho b
    have hthing := h.things b
    simp only [holds] at hsum
    have hrc : (s.putPayload p (some pl')).rc b = s.rc b := rfl
    omega
  · intro q
    rw [payloadCount_putPayload]
    exact hi q

/-! ## A cell is freed -/

/-- The last reference to a thing goes; its payload keeps the reference it had. -/
theorem Inv.freeThing (h : Inv s (owned + one a) iters) {t : Thing} (ht : s.things a = some t)
    (hone : t.refcount = 1) {iters' : Nat → Nat} (hi : ∀ q, iters' q = iters q + uses q (some t)) :
    Inv (s.putThing a none) owned iters' := by
  have ha := h.lt_nextThing ht
  have hrc : s.rc a = 1 := by
    rw [rc_eq, ht]
    exact hone
  constructor
  · intro b hb
    rw [putThing_of_ne s _ (by rintro rfl; exact absurd ha (Nat.not_lt.mpr hb))]
    exact h.thingBound b hb
  · exact h.payloadBound
  · intro b u hu
    by_cases hba : b = a
    · subst b
      rw [putThing_self] at hu
      cases hu
    · rw [putThing_of_ne s _ hba] at hu
      exact h.thingPos b u hu
  · exact h.payloadPos
  · intro b
    have hb := h.things b
    have hslots : (s.putThing a none).slotRefs b = s.slotRefs b := rfl
    rw [rc_putThing, hslots]
    simp only [Pi.add_apply] at hb
    by_cases hba : b = a
    · subst b
      rw [one_self] at hb
      simp only [if_true, countOf]
      omega
    · rw [one_of_ne hba] at hb
      simp only [if_neg hba]
      omega
  · intro q
    have hsum := users_putThing s ha none q
    have hq := h.payloads q
    have hiq := hi q
    rw [ht] at hsum
    simp only [uses, Nat.add_zero] at hsum hiq
    simp only [putThing_payloads]
    omega

/-- A reference to a payload goes that is not the last one. -/
theorem Inv.dropPayload (h : Inv s owned (iters + one p)) {pl : Payload}
    (hp : s.payloads p = some pl) (hmany : pl.refcount ≠ 1) :
    Inv (s.putPayload p (some { pl with refcount := pl.refcount - 1 })) owned iters := by
  have hpos := h.payloadPos p pl hp
  apply h.putPayload hp
  · dsimp only
    omega
  · intro b
    rfl
  · intro q
    have hq := h.payloads q
    simp only [Pi.add_apply] at hq
    by_cases hqp : q = p
    · subst q
      rw [hp, one_self] at hq
      simp only [payloadCount, if_true] at hq ⊢
      omega
    · rw [one_of_ne hqp] at hq
      simp only [if_neg hqp]
      omega

/-- The last reference to a payload goes; its slots are references without a holder. -/
theorem Inv.freePayload (h : Inv s owned (iters + one p)) {pl : Payload}
    (hp : s.payloads p = some pl) (hone : pl.refcount = 1) :
    Inv (s.putPayload p none) (owned + tally (children pl.slots)) iters := by
  have hlt := h.lt_nextPayload hp
  constructor
  · exact h.thingBound
  · intro q hq
    rw [putPayload_of_ne s _ (by rintro rfl; exact absurd hlt (Nat.not_lt.mpr hq))]
    exact h.payloadBound q hq
  · exact h.thingPos
  · intro q u hu
    by_cases hqp : q = p
    · subst q
      rw [putPayload_self] at hu
      cases hu
    · rw [putPayload_of_ne s _ hqp] at hu
      exact h.payloadPos q u hu
  · intro b
    have hsum := slotRefs_putPayload s hlt none b
    rw [hp] at hsum
    have hb := h.things b
    have hrc : (s.putPayload p none).rc b = s.rc b := rfl
    simp only [holds, Nat.add_zero] at hsum
    simp only [Pi.add_apply, tally]
    omega
  · intro q
    have hq := h.payloads q
    have husers : (s.putPayload p none).users q = s.users q := rfl
    rw [payloadCount_putPayload, husers]
    simp only [Pi.add_apply] at hq
    by_cases hqp : q = p
    · subst q
      rw [hp, one_self] at hq
      simp only [payloadCount, if_true] at hq ⊢
      omega
    · rw [one_of_ne hqp] at hq
      simp only [if_neg hqp]
      omega

/-! ## A new cell -/

theorem Inv.newThing (h : Inv s owned iters) (t : Thing) (ht : t.refcount = 1)
    {iters' : Nat → Nat} (hi : ∀ q, iters' q + uses q (some t) = iters q) :
    Inv (s.newThing t) (owned + one s.nextThing) iters' := by
  have hfree : s.things s.nextThing = none := h.thingBound _ (Nat.le_refl _)
  have husers : ∀ q, (s.newThing t).users q = s.users q + uses q (some t) := fun q =>
    sum_range_succ_update (uses q) s.things s.nextThing (some t)
  have hself : (s.newThing t).things s.nextThing = some t := putThing_self ..
  have hne : ∀ b, b ≠ s.nextThing → (s.newThing t).things b = s.things b := fun b hb =>
    putThing_of_ne s _ hb
  constructor
  · intro b hb
    have hb' : s.nextThing + 1 ≤ b := hb
    rw [hne b (by omega)]
    exact h.thingBound b (by omega)
  · exact h.payloadBound
  · intro b u hu
    by_cases hb : b = s.nextThing
    · subst b
      rw [hself] at hu
      cases hu
      omega
    · rw [hne b hb] at hu
      exact h.thingPos b u hu
  · exact h.payloadPos
  · intro b
    have hold := h.things b
    have hslots : (s.newThing t).slotRefs b = s.slotRefs b := rfl
    rw [hslots]
    by_cases hb : b = s.nextThing
    · subst b
      have hzero : s.rc s.nextThing = 0 := by rw [rc_eq, hfree]; rfl
      have hone : (s.newThing t).rc s.nextThing = 1 := by
        rw [rc_eq, hself]
        exact ht
      simp only [Pi.add_apply, one_self]
      omega
    · have hsame : (s.newThing t).rc b = s.rc b := by rw [rc_eq, hne b hb, rc_eq]
      simp only [Pi.add_apply, one_of_ne hb]
      omega
  · intro q
    have hq := h.payloads q
    have hiq := hi q
    have hpl : (s.newThing t).payloads = s.payloads := rfl
    rw [husers q, hpl]
    omega

theorem Inv.newPayload (h : Inv s owned iters) (pl : Payload) (hpos : 0 < pl.refcount)
    {owned' : Nat → Nat} (ho : ∀ b, owned' b + (children pl.slots).count b = owned b) :
    Inv (s.newPayload pl) owned' (iters + fun q => if q = s.nextPayload then pl.refcount else 0) := by
  have hfree : s.payloads s.nextPayload = none := h.payloadBound _ (Nat.le_refl _)
  have hslots : ∀ b, (s.newPayload pl).slotRefs b = s.slotRefs b + holds b (some pl) := fun b =>
    sum_range_succ_update (holds b) s.payloads s.nextPayload (some pl)
  have hself : (s.newPayload pl).payloads s.nextPayload = some pl := putPayload_self ..
  have hne : ∀ q, q ≠ s.nextPayload → (s.newPayload pl).payloads q = s.payloads q := fun q hq =>
    putPayload_of_ne s _ hq
  constructor
  · exact h.thingBound
  · intro q hq
    have hq' : s.nextPayload + 1 ≤ q := hq
    rw [hne q (by omega)]
    exact h.payloadBound q (by omega)
  · exact h.thingPos
  · intro q u hu
    by_cases hq : q = s.nextPayload
    · subst q
      rw [hself] at hu
      cases hu
      exact hpos
    · rw [hne q hq] at hu
      exact h.payloadPos q u hu
  · intro b
    have hold := h.things b
    have hob := ho b
    have hrc : (s.newPayload pl).rc b = s.rc b := rfl
    rw [hslots b, hrc]
    simp only [holds]
    omega
  · intro q
    have hq := h.payloads q
    have husers : (s.newPayload pl).users q = s.users q := rfl
    rw [husers]
    by_cases hqn : q = s.nextPayload
    · subst q
      rw [hfree] at hq
      rw [hself]
      simp only [payloadCount, Pi.add_apply, if_true] at hq ⊢
      omega
    · rw [hne q hqn]
      simp only [Pi.add_apply, if_neg hqn]
      omega

end Store

end SentryNative.Memory
