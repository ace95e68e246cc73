import SentryNative.Memory.Clone

/-!
# Merge

`sentry__value_merge_objects` and `sentry__value_merge_objects_shallow`. They run over
the payload that the source had when the loop began and only ever put a value where
there was none, so that nothing is freed.
-/

namespace SentryNative.Memory

open CLib ObjectMap

namespace Store

variable {s s' s₁ : Store} {owned iters : Nat → Nat} {a p i : Nat} {v dst src : Val}

/-! ## The functions -/

/-- Whether `sentry_value_get_type` gives an object. -/
def isObject (s : Store) (v : Val) : Except Fault Bool := do
  let p ← s.payloadOf v .object
  return p.isSome

/-- Whether a deep merge goes on below two values. -/
def bothObjects (s : Store) (deep : Bool) (dst src : Val) : Except Fault Bool :=
  if !deep then return false
  else do
    if !(← s.isObject dst) then return false
    else s.isObject src

mutual

/-- `sentry__value_merge_objects`, and `sentry__value_merge_objects_shallow` when it is
not deep. -/
def mergeObjects (deep : Bool) : Nat → Store → Val → Val → Except Fault (Nat × Store)
  | 0, _, _, _ => .error .fuel
  | fuel + 1, s, dst, src =>
    if src = .null then .ok (0, s)
    else do
      if !(← s.isObject dst) then return (1, s)
      else
        match ← s.payloadOf src .object with
        | none => return (1, s)
        | some p =>
          if ← s.isFrozen dst then return (1, s)
          else mergeFrom deep fuel s dst p 0

/-- The loop, from an index on. -/
def mergeFrom (deep : Bool) : Nat → Store → Val → Nat → Nat → Except Fault (Nat × Store)
  | 0, _, _, _, _ => .error .fuel
  | fuel + 1, s, dst, p, i => do
    let pl ← s.readPayload p
    match pl.slots[i]? with
    | none => return (0, s)
    | some (key, srcVal) =>
      let dstVal ← s.getByKey dst (some (cstr key))
      if ← s.bothObjects deep dstVal srcVal then
        let (rv, s) ← mergeObjects deep fuel s dstVal srcVal
        if rv ≠ 0 then return (1, s) else mergeFrom deep fuel s dst p (i + 1)
      else if dstVal = .null then
        let s ← s.incref srcVal
        let (rv, s) ← s.setByKey dst (some (cstr key)) srcVal
        if rv ≠ 0 then return (1, s) else mergeFrom deep fuel s dst p (i + 1)
      else mergeFrom deep fuel s dst p (i + 1)

end

/-! ## Reading -/

theorem Inv.isObject (h : Inv s owned iters) (hlive : ∀ a, v = .thing a → s.Live a) :
    s.isObject v = .ok (s.shown v .object).isSome := by
  obtain ⟨r, hr, hnone, hsome⟩ := h.payloadOf .object hlive
  cases hs : s.shown v .object with
  | none =>
    simp only [Store.isObject, hr, hnone hs, bind, Except.bind]
    rfl
  | some slots =>
    obtain ⟨a, t, p, pl, rfl, _⟩ := hsome slots hs
    simp only [Store.isObject, hr, bind, Except.bind]
    rfl

theorem Inv.bothObjects (h : Inv s owned iters) (deep : Bool) (hdst : ∀ a, dst = .thing a → s.Live a)
    (hsrc : ∀ a, src = .thing a → s.Live a) : ∃ b, s.bothObjects deep dst src = .ok b := by
  cases deep with
  | false => exact ⟨false, rfl⟩
  | true =>
    simp only [Store.bothObjects, h.isObject hdst, h.isObject hsrc, bind, Except.bind]
    cases (s.shown dst .object).isSome with
    | false => exact ⟨false, rfl⟩
    | true => exact ⟨_, rfl⟩

theorem isFrozen_ok (hlive : ∀ a, v = .thing a → s.Live a) : ∃ b, s.isFrozen v = .ok b := by
  cases v with
  | thing a =>
    obtain ⟨t, ht⟩ := live_iff.mp (hlive a rfl)
    refine ⟨t.frozen, ?_⟩
    simp only [Store.isFrozen, readThing, ht, bind, Except.bind]
    rfl
  | null => exact ⟨true, rfl⟩
  | bool b => exact ⟨true, rfl⟩
  | int32 i => exact ⟨true, rfl⟩

theorem Inv.live_lookup (h : Inv s owned iters) (k : Option Bytes) :
    ∀ a, s.lookup v k = .thing a → s.Live a := by
  intro a ha
  unfold Store.lookup at ha
  split at ha
  · rename_i k slots hs
    obtain ⟨b, _, hv⟩ := shown_eq_some.mp hs
    exact h.live_of_view hv (mem_children_of_getPairs ha)
  · cases ha

/-! ## The outcome -/

/-- A merge keeps every cell and changes no frozen thing. -/
structure Merged (s : Store) (owned iters : Nat → Nat) (s' : Store) : Prop where
  inv : Inv s' owned iters
  evolves : Evolves s s'
  stays : Stays s s'
  iterating : Iterating iters s s'

theorem Merged.refl (h : Inv s owned iters) : Merged s owned iters s := ⟨h, .refl s, .refl s, .refl s⟩

theorem Merged.trans (h : Merged s owned iters s₁) (h' : Merged s₁ owned iters s') (hi : Inv s owned iters) :
    Merged s owned iters s' :=
  ⟨h'.inv, h.evolves.trans h'.evolves hi, h.stays.trans h'.stays, h.iterating.trans h'.iterating⟩

def MergeOk (deep : Bool) (fuel : Nat) : Prop :=
  ∀ s owned iters dst src, Inv s owned iters → (∀ a, dst = .thing a → s.Live a) →
    (∀ a, src = .thing a → s.Live a) → mergeObjects deep fuel s dst src = .error .fuel ∨
      ∃ rv s', mergeObjects deep fuel s dst src = .ok (rv, s') ∧ Merged s owned iters s'

def MergeLoopOk (deep : Bool) (fuel : Nat) : Prop :=
  ∀ s owned iters dst p i, Inv s owned iters → (∀ a, dst = .thing a → s.Live a) →
    s.payloads p ≠ none → mergeFrom deep fuel s dst p i = .error .fuel ∨
      ∃ rv s', mergeFrom deep fuel s dst p i = .ok (rv, s') ∧ Merged s owned iters s'

theorem MergeOk.succ {deep : Bool} {fuel : Nat} (hloop : MergeLoopOk deep fuel) : MergeOk deep (fuel + 1) := by
  intro s owned iters dst src h hdst hsrc
  by_cases hnull : src = .null
  · right
    refine ⟨0, s, ?_, .refl h⟩
    simp only [mergeObjects, hnull, if_true]
  · cases hobj : (s.shown dst .object).isSome with
    | false =>
      right
      refine ⟨1, s, ?_, .refl h⟩
      simp only [mergeObjects, hnull, h.isObject hdst, hobj, bind, Except.bind, if_false, Bool.not_false, if_true]
      rfl
    | true =>
      obtain ⟨r, hr, hnone, hsome⟩ := h.payloadOf .object hsrc
      cases hs : s.shown src .object with
      | none =>
        right
        refine ⟨1, s, ?_, .refl h⟩
        simp only [mergeObjects, hnull, h.isObject hdst, hobj, hr, hnone hs, bind, Except.bind, if_false,
          Bool.not_true, Bool.false_eq_true]
        rfl
      | some slots =>
        obtain ⟨a, t, p, pl, rfl, _, _, _, hp, _⟩ := hsome slots hs
        obtain ⟨fr, hfr⟩ := isFrozen_ok hdst
        cases fr with
        | true =>
          right
          refine ⟨1, s, ?_, .refl h⟩
          simp only [mergeObjects, hnull, h.isObject hdst, hobj, hr, hfr, bind, Except.bind, if_false,
            Bool.not_true, Bool.false_eq_true, if_true]
          rfl
        | false =>
          have heq : mergeObjects deep (fuel + 1) s dst src = mergeFrom deep fuel s dst p 0 := by
            simp only [mergeObjects, hnull, h.isObject hdst, hobj, hr, hfr, bind, Except.bind, if_false,
              Bool.not_true, Bool.false_eq_true]
          rw [heq]
          exact hloop s owned iters dst p 0 h hdst (Option.ne_none_iff_exists'.mpr ⟨pl, hp⟩)

/-- A value goes where there was none. -/
theorem Merged.insert {key : Bytes} {pl : Payload} (h : Inv s owned iters)
    (hdst : ∀ a, dst = .thing a → s.Live a) (hp : s.payloads p = some pl)
    (hslot : pl.slots[i]? = some (key, v)) (hnull : s.lookup dst (some (cstr key)) = .null) :
    ∃ s₁ rv s', s.incref v = .ok s₁ ∧ s₁.setByKey dst (some (cstr key)) v = .ok (rv, s') ∧
      Merged s owned iters s' := by
  have hheld : ∀ x, v = .thing x → x ∈ children pl.slots := by
    rintro x rfl
    exact mem_children_of_getElem? hslot
  obtain ⟨s₁, hinc, h₁, hsame⟩ := h.incref (v := v) fun x hx => live_iff.mpr (h.live_of_slot hp (hheld x hx))
  have hquiet := hsame.quiet h₁
  have hlook := (lookup_quiet hquiet hdst (some (cstr key))).trans hnull
  obtain ⟨rv, s', hset, hmut, hstays⟩ := h₁.setByKey_spec dst (some (cstr key))
    (fun a ha => hquiet.stays (hdst a ha)) (by
      intro x hx
      rw [hlook] at hx
      cases hx)
  refine ⟨s₁, rv, s', hinc, hset, hmut.inv, ?_, ?_, hquiet.iterating.trans hmut.iterating⟩
  · exact (Evolves.of_keepsAll hquiet.keeps hquiet.noFreeze).trans hmut.evolves h
  · have hadds := hstays (cstr key) rfl (by
      intro x hx
      rw [hlook] at hx
      cases hx)
    apply hquiet.allStays.trans
    apply hadds.stays
    intro x hx
    exact ⟨p, pl, (congrFun hsame.payloads p).trans hp, hheld x hx⟩

theorem MergeLoopOk.succ {deep : Bool} {fuel : Nat} (hmerge : MergeOk deep fuel) (hloop : MergeLoopOk deep fuel) :
    MergeLoopOk deep (fuel + 1) := by
  intro s owned iters dst p i h hdst hp
  obtain ⟨pl, hpl⟩ := Option.ne_none_iff_exists'.mp hp
  cases hslot : pl.slots[i]? with
  | none =>
    right
    refine ⟨0, s, ?_, .refl h⟩
    simp only [mergeFrom, readPayload_eq hpl, hslot, bind, Except.bind]
    rfl
  | some slot =>
    obtain ⟨key, srcVal⟩ := slot
    have hsrc : ∀ x, srcVal = .thing x → s.Live x := by
      rintro x rfl
      exact live_iff.mpr (h.live_of_slot hpl (mem_children_of_getElem? hslot))
    have hget := h.getByKey hdst (some (cstr key))
    obtain ⟨both, hboth⟩ := h.bothObjects deep (h.live_lookup (v := dst) (some (cstr key))) hsrc
    -- the rest of the loop, from a state that has all cells
    have hrest : ∀ s₁, Merged s owned iters s₁ → mergeFrom deep fuel s₁ dst p (i + 1) = .error .fuel ∨
        ∃ rv s', mergeFrom deep fuel s₁ dst p (i + 1) = .ok (rv, s') ∧ Merged s owned iters s' := by
      intro s₁ h₁
      rcases hloop s₁ owned iters dst p (i + 1) h₁.inv (fun a ha => h₁.stays.things a (hdst a ha))
        (h₁.stays.payloads p hp) with herr | ⟨rv, s', hrun, hm⟩
      · exact .inl herr
      · exact .inr ⟨rv, s', hrun, h₁.trans hm h⟩
    cases both with
    | true =>
      rcases hmerge s owned iters _ srcVal h (h.live_lookup (v := dst) (some (cstr key))) hsrc with
        herr | ⟨rv, s₁, hrun, hm⟩
      · left
        simp only [mergeFrom, readPayload_eq hpl, hslot, hget, hboth, herr, bind, Except.bind, if_true]
      · by_cases hrv : rv = 0
        · subst hrv
          have heq : mergeFrom deep (fuel + 1) s dst p i = mergeFrom deep fuel s₁ dst p (i + 1) := by
            simp only [mergeFrom, readPayload_eq hpl, hslot, hget, hboth, hrun, bind, Except.bind, if_true,
              ne_eq, not_true_eq_false, if_false]
          rw [heq]
          exact hrest s₁ hm
        · right
          refine ⟨1, s₁, ?_, hm⟩
          simp only [mergeFrom, readPayload_eq hpl, hslot, hget, hboth, hrun, bind, Except.bind, if_true,
            ne_eq, hrv, not_false_eq_true]
          rfl
    | false =>
      by_cases hnull : s.lookup dst (some (cstr key)) = .null
      · obtain ⟨s₁, rv, s₂, hinc, hset, hm⟩ := Merged.insert h hdst hpl hslot hnull
        rw [hnull] at hget hboth
        by_cases hrv : rv = 0
        · subst hrv
          have heq : mergeFrom deep (fuel + 1) s dst p i = mergeFrom deep fuel s₂ dst p (i + 1) := by
            simp only [mergeFrom, readPayload_eq hpl, hslot, hget, hboth, hinc, hset, bind, Except.bind,
              Bool.false_eq_true, if_false, if_true, ne_eq, not_true_eq_false]
          rw [heq]
          exact hrest s₂ hm
        · right
          refine ⟨1, s₂, ?_, hm⟩
          simp only [mergeFrom, readPayload_eq hpl, hslot, hget, hboth, hinc, hset, bind, Except.bind,
            Bool.false_eq_true, if_false, if_true, ne_eq, hrv, not_false_eq_true]
          rfl
      · have heq : mergeFrom deep (fuel + 1) s dst p i = mergeFrom deep fuel s dst p (i + 1) := by
          simp only [mergeFrom, readPayload_eq hpl, hslot, hget, hboth, hnull, bind, Except.bind,
            Bool.false_eq_true, if_false]
        rw [heq]
        exact hrest s (.refl h)

/-- A merge never touches a freed cell; it returns when it does not go deeper than the
fuel. -/
theorem mergeOk (deep : Bool) (fuel : Nat) : MergeOk deep fuel ∧ MergeLoopOk deep fuel := by
  induction fuel with
  | zero =>
    exact ⟨fun _ _ _ _ _ _ _ _ => .inl (by unfold mergeObjects; rfl),
      fun _ _ _ _ _ _ _ _ _ => .inl (by unfold mergeFrom; rfl)⟩
  | succ fuel ih => exact ⟨.succ ih.2, .succ ih.1 ih.2⟩

end Store

end SentryNative.Memory
