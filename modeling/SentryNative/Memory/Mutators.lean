import SentryNative.Memory.Detach

/-!
# Mutators

The five mutators, on a container the caller may use and with a value it gives up.
Each does what it is for to the slots of one unfrozen container, or it fails and
changes nothing; the counts stay exact either way.
-/

namespace SentryNative.Memory

open CLib ObjectMap

/-! ## Slots -/

theorem children_append (xs ys : List (Bytes × Val)) : children (xs ++ ys) = children xs ++ children ys :=
  List.filterMap_append ..

theorem tally_eraseIdx {slots : List (Bytes × Val)} {i : Nat} {slot : Bytes × Val}
    (h : slots[i]? = some slot) :
    tally (children slots) = tally (children (slots.eraseIdx i)) + refOf slot.2 := by
  induction slots generalizing i with
  | nil => cases h
  | cons first slots ih =>
    obtain ⟨k, v⟩ := first
    cases i with
    | zero =>
      cases h
      rw [Store.tally_children_cons, add_comm]
      rfl
    | succ i =>
      rw [List.getElem?_cons_succ] at h
      rw [List.eraseIdx_cons_succ, Store.tally_children_cons, Store.tally_children_cons, ih h, add_assoc]

theorem tally_set {slots : List (Bytes × Val)} {i : Nat} {slot : Bytes × Val}
    (h : slots[i]? = some slot) (k : Bytes) (v : Val) :
    tally (children (slots.set i (k, v))) = tally (children (slots.eraseIdx i)) + refOf v := by
  induction slots generalizing i with
  | nil => cases h
  | cons first slots ih =>
    obtain ⟨k', w⟩ := first
    cases i with
    | zero =>
      rw [List.set_cons_zero, Store.tally_children_cons, add_comm]
      rfl
    | succ i =>
      rw [List.getElem?_cons_succ] at h
      rw [List.set_cons_succ, List.eraseIdx_cons_succ, Store.tally_children_cons,
        Store.tally_children_cons, ih h, add_assoc]

theorem tally_append_slot (slots : List (Bytes × Val)) (k : Bytes) (v : Val) :
    tally (children (slots ++ [(k, v)])) = tally (children slots) + refOf v := by
  rw [children_append, tally_append, Store.tally_children_cons]
  rfl

theorem tally_padTo (n : Nat) (slots : List (Bytes × Val)) :
    tally (children (Store.padTo n slots)) = tally (children slots) := by
  have hnull : ∀ m, children (List.replicate m (([] : Bytes), Val.null)) = [] := by
    intro m
    simp [children]
  rw [Store.padTo, children_append, hnull, List.append_nil]

/-- A pair that is found stands at an index. -/
theorem findPair_index {slots : List (Bytes × Val)} {k : Bytes} {old : Val}
    (h : Store.findPair k slots = some old) :
    ∃ i stored, slots[i]? = some (stored, old) ∧ (∀ v, setPairs k v slots = slots.set i (k, v)) ∧
      removePairs k slots = some (slots.eraseIdx i) := by
  induction slots with
  | nil => cases h
  | cons first slots ih =>
    obtain ⟨stored, w⟩ := first
    cases heq : sliceEqs k stored with
    | true =>
      simp only [Store.findPair, heq, if_true, Option.some.injEq] at h
      subst w
      exact ⟨0, stored, rfl, fun v => by simp [setPairs, heq], by simp [removePairs, heq]⟩
    | false =>
      simp only [Store.findPair, heq, Bool.false_eq_true, if_false] at h
      obtain ⟨i, stored', hi, hset, hrem⟩ := ih h
      refine ⟨i + 1, stored', hi, fun v => ?_, ?_⟩
      · simp [setPairs, heq, hset v]
      · simp [removePairs, heq, hrem]

theorem setPairs_of_findPair_none {slots : List (Bytes × Val)} {k : Bytes}
    (h : Store.findPair k slots = none) (v : Val) : setPairs k v slots = slots ++ [(k, v)] := by
  induction slots with
  | nil => rfl
  | cons first slots ih =>
    obtain ⟨stored, w⟩ := first
    cases heq : sliceEqs k stored with
    | true => simp [Store.findPair, heq] at h
    | false =>
      simp only [Store.findPair, heq, Bool.false_eq_true, if_false] at h
      simp [setPairs, heq, ih h]

theorem removePairs_of_findPair_none {slots : List (Bytes × Val)} {k : Bytes}
    (h : Store.findPair k slots = none) : removePairs k slots = none := by
  induction slots with
  | nil => rfl
  | cons first slots ih =>
    obtain ⟨stored, w⟩ := first
    cases heq : sliceEqs k stored with
    | true => simp [Store.findPair, heq] at h
    | false =>
      simp only [Store.findPair, heq, Bool.false_eq_true, if_false] at h
      simp [removePairs, heq, ih h]

theorem sliceEqs_cstr (k stored : Bytes) : sliceEqs k (cstr stored) = sliceEqs k stored := by
  unfold sliceEqs
  rw [cstr_of_not_mem (zero_not_mem_cstr stored)]

/-- Keys look the same after they are copied. -/
theorem clonePairs_setPairs (k : Bytes) (v : Val) (slots : List (Bytes × Val)) :
    clonePairs (setPairs k v (clonePairs slots)) = clonePairs (setPairs k v slots) := by
  induction slots with
  | nil => rfl
  | cons first slots ih =>
    obtain ⟨stored, w⟩ := first
    have hcons : clonePairs ((stored, w) :: slots) = (cstr stored, w) :: clonePairs slots := rfl
    rw [hcons, setPairs, setPairs, sliceEqs_cstr]
    split
    · change (cstr k, v) :: clonePairs (clonePairs slots) = (cstr k, v) :: clonePairs slots
      rw [Store.clonePairs_clonePairs]
    · change (cstr (cstr stored), w) :: clonePairs (setPairs k v (clonePairs slots)) =
        (cstr stored, w) :: clonePairs (setPairs k v slots)
      rw [ih, cstr_of_not_mem (zero_not_mem_cstr stored)]

theorem getPairs_clonePairs (k : Bytes) (slots : List (Bytes × Val)) :
    getPairs .null k (clonePairs slots) = getPairs .null k slots := by
  induction slots with
  | nil => rfl
  | cons first slots ih =>
    change (if sliceEqs k (cstr first.1) then first.2 else getPairs .null k (clonePairs slots)) =
      if sliceEqs k first.1 then first.2 else getPairs .null k slots
    rw [sliceEqs_cstr, ih]

theorem getPairs_of_findPair {slots : List (Bytes × Val)} {k : Bytes} {old : Val}
    (h : Store.findPair k slots = some old) : getPairs .null k slots = old := by
  induction slots with
  | nil => cases h
  | cons first slots ih =>
    obtain ⟨stored, w⟩ := first
    simp only [Store.findPair] at h
    simp only [getPairs]
    split at h
    · rename_i heq
      rw [if_pos heq]
      exact Option.some.inj h
    · rename_i heq
      rw [if_neg heq]
      exact ih h

theorem removePairs_clonePairs (k : Bytes) (slots : List (Bytes × Val)) :
    removePairs k (clonePairs slots) = (removePairs k slots).map clonePairs := by
  induction slots with
  | nil => rfl
  | cons first slots ih =>
    obtain ⟨stored, w⟩ := first
    have hcons : clonePairs ((stored, w) :: slots) = (cstr stored, w) :: clonePairs slots := rfl
    rw [hcons, removePairs, removePairs, sliceEqs_cstr, ih]
    split
    · rfl
    · cases removePairs k slots <;> rfl

theorem clonePairs_set (slots : List (Bytes × Val)) (i : Nat) (v : Val) :
    clonePairs (slots.set i ([], v)) = (clonePairs slots).set i ([], v) := List.map_set

theorem clonePairs_eraseIdx (slots : List (Bytes × Val)) (i : Nat) :
    clonePairs (slots.eraseIdx i) = (clonePairs slots).eraseIdx i := by
  unfold clonePairs
  rw [List.eraseIdx_map]

theorem clonePairs_append (xs ys : List (Bytes × Val)) :
    clonePairs (xs ++ ys) = clonePairs xs ++ clonePairs ys := List.map_append

theorem clonePairs_padTo (n : Nat) (slots : List (Bytes × Val)) :
    clonePairs (Store.padTo n slots) = Store.padTo n (clonePairs slots) := by
  have hnull : ∀ m, clonePairs (List.replicate m (([] : Bytes), Val.null)) = List.replicate m ([], .null) := by
    intro m
    exact List.map_replicate
  have hlen : (clonePairs slots).length = slots.length := List.length_map ..
  rw [Store.padTo, Store.padTo, clonePairs_append, hnull, hlen]

namespace Store

variable {s s' s₁ : Store} {owned owned' iters : Nat → Nat} {a b p q : Nat}

/-! ## The outcome of a mutator -/

/-- What a mutator did to the container it was called on and to the rest; `f` is what it
is for. -/
structure Mutated (s : Store) (owned iters : Nat → Nat) (value : Val) (kind : Kind)
    (f : List (Bytes × Val) → List (Bytes × Val)) (rv : Nat) (s' : Store) : Prop where
  inv : Inv s' owned iters
  keeps : Keeps (fun a => value = .thing a ∧ ¬ s.Frozen a) s s'
  noFreeze : NoFreeze s s'
  nextThing : s'.nextThing = s.nextThing
  iterating : Iterating iters s s'
  failed : rv ≠ 0 → KeepsAll s s'
  held : rv ≠ 0 → ∀ x, s'.Held x → s.Held x
  done : rv = 0 → ∃ a slots, value = .thing a ∧ ¬ s.Frozen a ∧
    s.view a = some (.container kind slots) ∧ s'.view a = some (.container kind (f slots))
  reach : ∀ a, value = .thing a → ∀ owned₀ : Nat → Nat, (∀ b, owned₀ b ≤ owned b) →
    Reach s owned₀ iters a → Reach s' owned₀ iters a

variable {value v : Val} {kind : Kind} {f : List (Bytes × Val) → List (Bytes × Val)}

theorem Held.quiet (h : s.Held a) (hq : Quiet s s') : s'.Held a := by
  obtain ⟨p, pl, hp, ha⟩ := h
  obtain ⟨pl', hp', hslots⟩ := hq.payloads p pl hp
  exact ⟨p, pl', hp', hslots ▸ ha⟩

/-- The release of what a payload holds too frees nothing. -/
theorem Held.stays (hheld : ∀ x, v = .thing x → s.Held x) (h : Inv s (owned + refOf v) iters)
    (hdec : s.decref v = .ok s') : Stays s s' := by
  cases v with
  | thing x =>
    obtain ⟨p, pl, hp, hx⟩ := hheld x rfl
    obtain ⟨t, ht⟩ := h.live_of_slot hp hx
    have hsum := Counting.le_sum_range (holds x) s.payloads (h.lt_nextPayload hp)
    have hcount : 0 < holds x (s.payloads p) := by
      rw [hp]
      exact List.count_pos_iff.mpr hx
    have hrc := h.things x
    rw [rc_eq, ht] at hrc
    simp only [refOf_thing, Pi.add_apply, one_self, countOf, slotRefs] at hrc
    rw [decref_many ht (h.lt_nextThing ht) (by omega)] at hdec
    cases hdec
    refine ⟨?_, fun _ hq => hq⟩
    intro a ha
    by_cases hax : a = x
    · subst a
      exact live_iff.mpr ⟨_, putThing_self ..⟩
    · unfold Live
      rwa [putThing_of_ne _ _ hax]
  | null =>
    cases hdec
    exact .refl _
  | bool b =>
    cases hdec
    exact .refl _
  | int32 i =>
    cases hdec
    exact .refl _

/-- A mutator fails: the value is released. -/
theorem Mutated.of_fail (value : Val) (kind : Kind) (hquiet : Quiet s s₁) (hi : Inv s₁ (owned + refOf v) iters) :
    ∃ s', s₁.fail v = .ok (1, s') ∧ Mutated s owned iters value kind f 1 s' ∧
      ((∀ x, v = .thing x → s.Held x) → Stays s s') := by
  obtain ⟨s', hdec, hi', hshr⟩ := hi.decref
  have hnext : s'.nextThing = s.nextThing := hshr.nextThing.trans hquiet.nextThing
  have hall : KeepsAll s s' := by
    constructor
    · exact Nat.le_of_eq hnext.symm
    · exact fun a ha => .inl (hquiet.live a (hshr.live ha))
    · exact fun a ha ha' _ => (hshr.view hi' ha').trans (hquiet.view a ha)
    · exact fun a hf ha' => (hshr.keeps hi').frozen a (hquiet.frozen_iff.mpr hf) ha'
    · exact fun a hl ha' => (hshr.keeps hi').leaf a (hquiet.keeps.leaf a hl (hshr.live ha')) ha'
  refine ⟨s', ?_, ⟨hi', hall.mono fun _ _ hw => hw.elim, ?_, hnext,
    hquiet.iterating.trans (hshr.iterating hi'), fun _ => hall,
    fun _ x hx => hquiet.held x (hshr.held hx), nofun, ?_⟩, ?_⟩
  · simp only [Store.fail, hdec, bind, Except.bind]
    rfl
  · exact hquiet.noFreeze.trans hshr.noFreeze (hshr.keeps hi')
  · intro a _ owned₀ hle hr
    exact (hr.quiet hquiet).shrinks hshr hi' hle
  · intro hheld
    exact hquiet.allStays.trans (Held.stays (fun x hx => (hheld x hx).quiet hquiet) hi hdec)

/-- A mutator returns without a change. -/
theorem Mutated.of_quiet (hquiet : Quiet s s') (hi : Inv s' owned iters) {rv : Nat}
    (hdone : rv = 0 → ∃ a slots, value = .thing a ∧ ¬ s.Frozen a ∧
      s.view a = some (.container kind slots) ∧ f slots = slots) :
    Mutated s owned iters value kind f rv s' := by
  refine ⟨hi, hquiet.keeps.mono fun _ _ hw => hw.elim, hquiet.noFreeze, hquiet.nextThing,
    hquiet.iterating, fun _ => hquiet.keeps, fun _ => hquiet.held, ?_, fun a _ owned₀ _ hr => hr.quiet hquiet⟩
  intro hrv
  obtain ⟨a, slots, hval, hf, hv, hid⟩ := hdone hrv
  exact ⟨a, slots, hval, hf, hv, by rw [hid, hquiet.view a (live_of_view hv), hv]⟩

/-- A mutator replaces a slot. -/
theorem Mutated.of_replaced {pl : Payload} {slots : List (Bytes × Val)} (hquiet : Quiet s s₁)
    (hi : Inv s owned' iters) (howns : Owns s₁ a kind p pl) (hval : value = .thing a)
    (hfrozen : ¬ s.Frozen a) (hrep : Replaced s₁ owned iters a kind slots s')
    (hf : clonePairs slots = f (clonePairs pl.slots)) : Mutated s owned iters value kind f 0 s' := by
  have hview := howns.view
  have hlive : s.Live a := hquiet.live a (live_of_view hview)
  refine ⟨hrep.inv, ?_, ?_, hrep.nextThing.trans hquiet.nextThing,
    hquiet.iterating.trans hrep.iterating, fun hne => absurd rfl hne,
    fun hne => absurd rfl hne, ?_, ?_⟩
  · apply (hquiet.keeps.trans hrep.keeps hi).mono
    rintro b _ (hw | rfl)
    · exact hw.elim
    · exact ⟨hval, hfrozen⟩
  · exact hquiet.noFreeze.trans hrep.noFreeze hrep.keeps
  · intro _
    refine ⟨a, clonePairs pl.slots, hval, hfrozen, ?_, ?_⟩
    · rw [← hquiet.view a hlive, hview]
    · rw [hrep.view, hf]
  · intro b hb owned₀ hle hr
    cases hval.symm.trans hb
    exact hrep.reach owned₀ hle (hr.quiet hquiet)

theorem Owns.withMallocs {pl : Payload} (h : Owns s a kind p pl) (n : Nat) :
    Owns { s with mallocs := n } a kind p pl := ⟨h.body, h.payload, h.one⟩

theorem Borrowed.live (hb : Borrowed s owned iters v) (h : Inv s owned iters) :
    ∀ a, v = .thing a → s.Live a := fun a ha => (hb a ha).live h

theorem Borrowed.quiet (hb : Borrowed s owned iters v) (h : Quiet s s') : Borrowed s' owned iters v :=
  fun a ha => (hb a ha).quiet h

/-! ## Objects -/

theorem readPayload_eq {pl : Payload} (hp : s.payloads p = some pl) : s.readPayload p = .ok pl := by
  simp only [readPayload, hp]

/-- The calls of `malloc` in `reserve` for a key. -/
def reserveMallocs (k : Bytes) (slots : List (Bytes × Val)) : Nat := if (findPair k slots).isSome then 0 else 1

theorem findPair_clonePairs (k : Bytes) (slots : List (Bytes × Val)) :
    findPair k (clonePairs slots) = findPair k slots := by
  induction slots with
  | nil => rfl
  | cons first slots ih =>
    change (if sliceEqs k (cstr first.1) then some first.2 else findPair k (clonePairs slots)) =
      if sliceEqs k first.1 then some first.2 else findPair k slots
    rw [sliceEqs_cstr, ih]

/-- A value was put in, with so many calls of `malloc`. -/
structure Inserted (s : Store) (value : Val) (n : Nat) (rv : Nat) (s' : Store) : Prop where
  done : rv = 0
  fails : s'.fails = s.fails
  mallocs : s'.mallocs = s.mallocs + n
  owns : ∀ b k p pl, value ≠ .thing b → Owns s b k p pl → Owns s' b k p pl

/-- What more is known of `sentry_value_set_by_key_n` where it replaces no thing: with a
value that is held elsewhere it frees nothing, and it does not fail for want of memory
that there is. -/
structure Adds (s : Store) (value : Val) (k : Bytes) (v : Val) (calls : Nat) (rv : Nat) (s' : Store) :
    Prop where
  stays : (∀ x, v = .thing x → s.Held x) → Stays s s'
  inserted : ∀ a slots, value = .thing a → ¬ s.Frozen a → s.view a = some (.container .object slots) →
    Ready (calls + s.detachMallocs a + reserveMallocs k slots) s →
    Inserted s value (calls + s.detachMallocs a + reserveMallocs k slots) rv s'

/-- The container is needed for longer than the call only if a thing is replaced. -/
theorem Inv.setByKeyOwned (value : Val) {k : Bytes} (h : Inv s (owned + refOf v) iters)
    (hlive : ∀ a, value = .thing a → s.Live a)
    (hb : ∀ x, s.lookup value (some k) = .thing x → Borrowed s (owned + refOf v) iters value) :
    ∃ rv s', s.setByKeyOwned value k v = .ok (rv, s') ∧
      Mutated s owned iters value .object (fun slots => clonePairs (setPairs k v slots)) rv s' ∧
      ((∀ x, s.lookup value (some k) ≠ .thing x) → Adds s value k v 0 rv s') := by
  obtain ⟨r, s₁, hw, h₁, hquiet, howns, hready⟩ := h.writable .object hlive
  -- the calls up to the write
  have hfirst : ∀ a slots, value = .thing a → ¬ s.Frozen a → s.view a = some (.container .object slots) →
      Ready (0 + s.detachMallocs a + reserveMallocs k slots) s → r ≠ none ∧ s₁.fails = s.fails ∧
        s₁.mallocs = s.mallocs + s.detachMallocs a := by
    intro a slots hval hf hv hr
    apply hready a slots hval hf hv
    intro i hi
    exact hr i (by omega)
  cases r with
  | none =>
    obtain ⟨s', hfail, hmut, hstays⟩ := Mutated.of_fail value .object hquiet h₁
    refine ⟨1, s', ?_, hmut, fun _ => ⟨hstays, ?_⟩⟩
    · simp only [Store.setByKeyOwned, hw, bind, Except.bind]
      exact hfail
    · intro a slots hval hf hv hr
      exact absurd rfl (hfirst a slots hval hf hv hr).1
  | some p =>
    obtain ⟨a, pl, hval, hfrozen, ho, hapart, _⟩ := howns p rfl
    have hview := (hquiet.view a (hlive a hval)).symm.trans ho.view
    have hreserve : ∀ b slots, value = .thing b → s.view b = some (.container .object slots) →
        b = a ∧ reserveMallocs k slots = reserveMallocs k pl.slots := by
      intro b slots hb hv
      cases hval.symm.trans hb
      rw [hview] at hv
      cases hv
      unfold reserveMallocs
      rw [findPair_clonePairs]
      exact ⟨rfl, rfl⟩
    have hother : ∀ s₂, s₂.things = s₁.things → (∀ q, q ≠ p → s₂.payloads q = s₁.payloads q) →
        ∀ b k' q w, value ≠ .thing b → Owns s b k' q w → Owns s₂ b k' q w := by
      intro s₂ hthings hpay b k' q w hne hob
      have hba : b ≠ a := by
        rintro rfl
        exact hne hval
      have hob₁ := hapart.owns b k' q w hba hob
      have hqp : q ≠ p := by
        rintro rfl
        obtain ⟨t, ht, hbt⟩ := ho.body
        exact hba (hob₁.user_eq h₁ ht hbt).symm
      exact ⟨hthings ▸ hob₁.body, (hpay q hqp).trans hob₁.payload, hob₁.one⟩
    cases hfind : findPair k pl.slots with
    | some old =>
      have hold : s.lookup value (some k) = old := by
        have hshown := shown_eq_some.mpr ⟨a, hval, hview⟩
        simp only [lookup, hshown, getPairs_clonePairs]
        exact getPairs_of_findPair hfind
      obtain ⟨i, stored, hi, hset, _⟩ := findPair_index hfind
      have hreach : ∀ x, old = .thing x → Reach s₁ (owned + refOf v) iters a := fun x hx =>
        (hb x (hold.trans hx) a hval).quiet hquiet
      obtain ⟨s₂, s', hdec, hwrite, hrep, hstays⟩ := ho.replace _ h₁ hreach (tally_eraseIdx hi) (tally_set hi k v)
      rw [← hset v] at hwrite hrep
      refine ⟨0, s', ?_, .of_replaced hquiet h ho hval hfrozen hrep (clonePairs_setPairs ..).symm, ?_⟩
      · simp only [Store.setByKeyOwned, hw, readPayload_eq ho.payload, hfind, hdec, hwrite, bind, Except.bind]
        rfl
      · intro hnot
        refine ⟨fun _ => hquiet.allStays.trans (hstays (hold ▸ hnot)), ?_⟩
        intro b slots hbval hf hv hr
        obtain ⟨rfl, hres⟩ := hreserve b slots hbval hv
        obtain ⟨_, hfails, hmallocs⟩ := hfirst _ slots hbval hf hv hr
        rw [decref_of_not_thing s₁ (hold ▸ hnot)] at hdec
        cases hdec
        rw [write_eq ho.payload] at hwrite
        cases hwrite
        refine ⟨rfl, (setSlots_fails ..).trans hfails, ?_,
          hother _ (setSlots_things ..) fun q hq => setSlots_of_ne _ hq⟩
        rw [setSlots_mallocs, hmallocs, hres, reserveMallocs, hfind]
        simp
    | none =>
      have hquiet₂ : Quiet s { s₁ with mallocs := s₁.mallocs + 1 } := hquiet.trans (.withMallocs s₁ _)
      cases hok : s₁.fails s₁.mallocs with
      | true =>
        obtain ⟨s', hfail, hmut, hstays⟩ := Mutated.of_fail value .object hquiet₂ (h₁.withMallocs _)
        refine ⟨1, s', ?_, hmut, fun _ => ⟨hstays, ?_⟩⟩
        · simp only [Store.setByKeyOwned, hw, readPayload_eq ho.payload, hfind, malloc, hok, bind, Except.bind,
            Bool.not_true, Bool.not_false, if_true]
          exact hfail
        · intro b slots hbval hf hv hr
          obtain ⟨rfl, hres⟩ := hreserve b slots hbval hv
          obtain ⟨_, hfails, hmallocs⟩ := hfirst b slots hbval hf hv hr
          have hlast := hr (s.detachMallocs b) (by
            rw [hres, reserveMallocs, hfind]
            simp)
          rw [hfails, hmallocs, hlast] at hok
          cases hok
      | false =>
        obtain ⟨s₂, s', hdec, hwrite, hrep, hstays⟩ := (ho.withMallocs (s₁.mallocs + 1)).replace .null
          (h₁.withMallocs _) (fun _ h => by cases h) (add_zero _).symm (tally_append_slot pl.slots k v)
        cases hdec
        rw [← setPairs_of_findPair_none hfind v] at hwrite hrep
        refine ⟨0, s', ?_, .of_replaced hquiet₂ h (ho.withMallocs _) hval hfrozen hrep
          (clonePairs_setPairs ..).symm, fun _ => ⟨fun _ => hquiet₂.allStays.trans (hstays fun _ h => by cases h), ?_⟩⟩
        · simp only [Store.setByKeyOwned, hw, readPayload_eq ho.payload, hfind, malloc, hok, hwrite, bind,
            Except.bind, Bool.not_true, Bool.not_false, if_false, Bool.false_eq_true]
          rfl
        · intro b slots hbval hf hv hr
          obtain ⟨rfl, hres⟩ := hreserve b slots hbval hv
          obtain ⟨_, hfails, hmallocs⟩ := hfirst b slots hbval hf hv hr
          rw [write_eq (s := { s₁ with mallocs := s₁.mallocs + 1 }) ho.payload] at hwrite
          cases hwrite
          refine ⟨rfl, (setSlots_fails ..).trans hfails, ?_,
            hother _ (setSlots_things ..) fun q hq => setSlots_of_ne _ hq⟩
          rw [setSlots_mallocs, hres, reserveMallocs, hfind]
          simp only [hmallocs, Option.isSome_none, Bool.false_eq_true, if_false]
          omega

/-- What was quiet before counts as nothing. -/
theorem Mutated.after {rv : Nat} (hm : Mutated s₁ owned iters value kind f rv s') (hquiet : Quiet s s₁)
    (hi : Inv s owned' iters) : Mutated s owned iters value kind f rv s' := by
  refine ⟨hm.inv, ?_, hquiet.noFreeze.trans hm.noFreeze hm.keeps, hm.nextThing.trans hquiet.nextThing,
    hquiet.iterating.trans hm.iterating, ?_, fun hrv x hx => hquiet.held x (hm.held hrv x hx), ?_, ?_⟩
  · apply (hquiet.keeps.trans hm.keeps hi).mono
    rintro a _ (hw | ⟨hval, hfrozen⟩)
    · exact hw.elim
    · exact ⟨hval, fun hf => hfrozen (hquiet.frozen_iff.mpr hf)⟩
  · exact fun hrv => hquiet.keeps.trans_same (hm.failed hrv) hi
  · intro hrv
    obtain ⟨a, slots, hval, hfrozen, hv, hv'⟩ := hm.done hrv
    have hlive := hquiet.live a (live_of_view hv)
    exact ⟨a, slots, hval, fun hf => hfrozen (hquiet.frozen_iff.mpr hf), (hquiet.view a hlive).symm.trans hv,
      hv'⟩
  · exact fun a hval owned₀ hle hr => hm.reach a hval owned₀ hle (hr.quiet hquiet)

/-- What `sentry_value_set_by_key_n` is for; without a key it fails. -/
def keyed (k : Option Bytes) (v : Val) (slots : List (Bytes × Val)) : List (Bytes × Val) :=
  match k with
  | some k => clonePairs (setPairs k v slots)
  | none => slots

theorem lookup_quiet (hq : Quiet s s') (hlive : ∀ a, value = .thing a → s.Live a) (k : Option Bytes) :
    s'.lookup value k = s.lookup value k := by
  unfold lookup
  rw [shown_congr fun a ha => hq.view a (hlive a ha)]

theorem Inv.setByKey_spec (value : Val) (k : Option Bytes) (h : Inv s (owned + refOf v) iters)
    (hlive : ∀ a, value = .thing a → s.Live a)
    (hb : ∀ x, s.lookup value k = .thing x → Borrowed s (owned + refOf v) iters value) :
    ∃ rv s', s.setByKey value k v = .ok (rv, s') ∧ Mutated s owned iters value .object (keyed k v) rv s' ∧
      ∀ k', k = some k' → (∀ x, s.lookup value k ≠ .thing x) → Adds s value k' v 1 rv s' := by
  cases k with
  | none =>
    obtain ⟨s', hfail, hmut, _⟩ := Mutated.of_fail value .object (.refl s) h
    exact ⟨1, s', hfail, hmut, nofun⟩
  | some k =>
    have hquiet : Quiet s { s with mallocs := s.mallocs + 1 } := .withMallocs s _
    cases hok : s.fails s.mallocs with
    | true =>
      obtain ⟨s', hfail, hmut, hstays⟩ := Mutated.of_fail value .object hquiet (h.withMallocs _)
      refine ⟨1, s', ?_, hmut, ?_⟩
      · simp only [Store.setByKey, malloc, hok, Bool.not_true]
        exact hfail
      · rintro k' ⟨⟩ _
        refine ⟨hstays, ?_⟩
        intro a slots _ _ _ hr
        have hzero := hr 0 (by omega)
        rw [Nat.add_zero, hok] at hzero
        cases hzero
    | false =>
      have hlook := lookup_quiet hquiet hlive (some k)
      obtain ⟨rv, s', hset, hmut, hstays⟩ := (h.withMallocs (s.mallocs + 1)).setByKeyOwned value (k := k)
        hlive fun x hx => (hb x (hlook.symm.trans hx)).quiet hquiet
      refine ⟨rv, s', ?_, hmut.after hquiet h, ?_⟩
      · simp only [Store.setByKey, malloc, hok, Bool.not_false]
        exact hset
      · rintro k' ⟨⟩ hnot
        have hadds := hstays (hlook ▸ hnot)
        refine ⟨fun hheld => hquiet.allStays.trans (hadds.stays hheld), ?_⟩
        intro a slots hval hf hv hr
        have hins := hadds.inserted a slots hval hf hv (by
          intro i hi
          have hi' : i < s.detachMallocs a + reserveMallocs k slots := (Nat.zero_add (s.detachMallocs a)) ▸ hi
          have := hr (i + 1) (by omega)
          rwa [← Nat.add_assoc, Nat.add_right_comm] at this)
        have hcalls : s'.mallocs = s.mallocs + 1 + (0 + s.detachMallocs a + reserveMallocs k slots) := hins.mallocs
        refine ⟨hins.done, hins.fails, by omega, ?_⟩
        intro b k' q w hne ho
        exact hins.owns b k' q w hne ⟨ho.body, ho.payload, ho.one⟩

theorem Inv.setByKey {k : Option Bytes} (h : Inv s (owned + refOf v) iters)
    (hb : Borrowed s (owned + refOf v) iters value) :
    ∃ rv s', s.setByKey value k v = .ok (rv, s') ∧ Mutated s owned iters value .object (keyed k v) rv s' := by
  obtain ⟨rv, s', hset, hmut, _⟩ := h.setByKey_spec value k (hb.live h) fun _ _ => hb
  exact ⟨rv, s', hset, hmut⟩

/-- What `sentry_value_remove_by_key_n` is for. -/
def unkeyed (k : Option Bytes) (slots : List (Bytes × Val)) : List (Bytes × Val) :=
  match k with
  | some k => (removePairs k slots).getD slots
  | none => slots

theorem Inv.removeByKey {k : Option Bytes} (h : Inv s owned iters) (hb : Borrowed s owned iters value) :
    ∃ rv s', s.removeByKey value k = .ok (rv, s') ∧ Mutated s owned iters value .object (unkeyed k) rv s' := by
  cases k with
  | none => exact ⟨1, s, rfl, .of_quiet (.refl s) h nofun⟩
  | some k =>
    obtain ⟨r, s₁, hw, h₁, hquiet, howns, _⟩ := h.writable .object (hb.live h)
    cases r with
    | none =>
      refine ⟨1, s₁, ?_, .of_quiet hquiet h₁ nofun⟩
      simp only [Store.removeByKey, hw, bind, Except.bind]
      rfl
    | some p =>
      obtain ⟨a, pl, hval, hfrozen, ho, _⟩ := howns p rfl
      cases hfind : findPair k pl.slots with
      | none =>
        refine ⟨1, s₁, ?_, .of_quiet hquiet h₁ nofun⟩
        simp only [Store.removeByKey, hw, readPayload_eq ho.payload, hfind, bind, Except.bind]
        rfl
      | some old =>
        obtain ⟨i, stored, hi, _, hrem⟩ := findPair_index hfind
        obtain ⟨s₂, s', hdec, hwrite, hrep, _⟩ := ho.replace _ (v := .null) h₁
          (fun _ _ => (hb a hval).quiet hquiet) (tally_eraseIdx hi) (add_zero _).symm
        refine ⟨0, s', ?_, .of_replaced hquiet h ho hval hfrozen hrep ?_⟩
        · simp only [Store.removeByKey, hw, readPayload_eq ho.payload, hfind, hrem, hdec, hwrite, bind, Except.bind]
          rfl
        · simp only [unkeyed, removePairs_clonePairs, hrem, Option.map_some, Option.getD_some]

/-! ## Lists -/

theorem Inv.append (h : Inv s (owned + refOf v) iters) (hb : Borrowed s (owned + refOf v) iters value) :
    ∃ rv s', s.append value v = .ok (rv, s') ∧
      Mutated s owned iters value .list (fun slots => slots ++ [([], v)]) rv s' := by
  obtain ⟨r, s₁, hw, h₁, hquiet, howns, _⟩ := h.writable .list (hb.live h)
  cases r with
  | none =>
    obtain ⟨s', hfail, hmut, _⟩ := Mutated.of_fail value .list hquiet h₁
    refine ⟨1, s', ?_, hmut⟩
    simp only [Store.append, hw, bind, Except.bind]
    exact hfail
  | some p =>
    obtain ⟨a, pl, hval, hfrozen, ho, _⟩ := howns p rfl
    have hquiet₂ : Quiet s { s₁ with mallocs := s₁.mallocs + 1 } := hquiet.trans (.withMallocs s₁ _)
    cases hok : s₁.fails s₁.mallocs with
    | true =>
      obtain ⟨s', hfail, hmut, _⟩ := Mutated.of_fail value .list hquiet₂ (h₁.withMallocs _)
      refine ⟨1, s', ?_, hmut⟩
      simp only [Store.append, hw, readPayload_eq ho.payload, malloc, hok, bind, Except.bind, Bool.not_true,
        Bool.not_false, if_true]
      exact hfail
    | false =>
      obtain ⟨s₂, s', hdec, hwrite, hrep, _⟩ := (ho.withMallocs (s₁.mallocs + 1)).replace .null
        (h₁.withMallocs _) (fun _ h => by cases h) (add_zero _).symm (tally_append_slot pl.slots [] v)
      cases hdec
      refine ⟨0, s', ?_, .of_replaced hquiet₂ h (ho.withMallocs _) hval hfrozen hrep (clonePairs_append ..)⟩
      simp only [Store.append, hw, readPayload_eq ho.payload, malloc, hok, hwrite, bind, Except.bind,
        Bool.not_true, Bool.not_false, if_false, Bool.false_eq_true]
      rfl

theorem getElem?_padTo (slots : List (Bytes × Val)) (i : Nat) : ∃ slot, (padTo (i + 1) slots)[i]? = some slot := by
  have hlen : i < (padTo (i + 1) slots).length := by
    simp only [padTo, List.length_append, List.length_replicate]
    omega
  exact ⟨_, List.getElem?_eq_getElem hlen⟩

/-- An index that comes to `reserve` is one that it can make room for. -/
def Indexes (s : Store) (value : Val) (i : Nat) : Prop :=
  ∀ a slots, value = .thing a → ¬ s.Frozen a → s.view a = some (.container .list slots) →
    Ready (s.detachMallocs a) s → i < maxIndex

theorem Inv.setByIndex {i : Nat} (h : Inv s (owned + refOf v) iters)
    (hb : Borrowed s (owned + refOf v) iters value) :
    (s.setByIndex value i v = .error .wild ∧ ¬ s.Indexes value i) ∨
      ∃ rv s', s.setByIndex value i v = .ok (rv, s') ∧
        Mutated s owned iters value .list (fun slots => (padTo (i + 1) slots).set i ([], v)) rv s' := by
  obtain ⟨r, s₁, hw, h₁, hquiet, howns, _⟩ := h.writable .list (hb.live h)
  cases r with
  | none =>
    right
    obtain ⟨s', hfail, hmut, _⟩ := Mutated.of_fail value .list hquiet h₁
    refine ⟨1, s', ?_, hmut⟩
    simp only [Store.setByIndex, hw, bind, Except.bind]
    exact hfail
  | some p =>
    obtain ⟨a, pl, hval, hfrozen, ho, _, hready⟩ := howns p rfl
    have hquiet₂ : Quiet s { s₁ with mallocs := s₁.mallocs + 1 } := hquiet.trans (.withMallocs s₁ _)
    have hnot : maxIndex ≤ i → ¬ s.Indexes value i := by
      intro hle hi
      have hview := (hquiet.view a (hquiet.live a (Store.live_of_view ho.view))).symm.trans ho.view
      exact Nat.not_lt.mpr hle (hi a _ hval hfrozen hview hready)
    by_cases hwrap : i + 1 = 2 ^ 64
    · left
      refine ⟨?_, hnot (by unfold maxIndex; omega)⟩
      simp only [Store.setByIndex, hw, readPayload_eq ho.payload, hwrap, bind, Except.bind, if_true]
    cases hok : s₁.fails s₁.mallocs with
    | true =>
      right
      obtain ⟨s', hfail, hmut, _⟩ := Mutated.of_fail value .list hquiet₂ (h₁.withMallocs _)
      refine ⟨1, s', ?_, hmut⟩
      simp only [Store.setByIndex, hw, readPayload_eq ho.payload, malloc, hok, bind, Except.bind, hwrap,
        Bool.not_true, Bool.not_false, if_true, if_false]
      exact hfail
    | false =>
      by_cases hle : maxIndex ≤ i
      · left
        refine ⟨?_, hnot hle⟩
        simp only [Store.setByIndex, hw, readPayload_eq ho.payload, malloc, hok, bind, Except.bind, hwrap, hle,
          Bool.not_true, Bool.not_false, if_false, if_true, Bool.false_eq_true]
      right
      obtain ⟨slot, hslot⟩ := getElem?_padTo pl.slots i
      have hpad := tally_eraseIdx hslot
      rw [tally_padTo] at hpad
      obtain ⟨s₂, s', hdec, hwrite, hrep, _⟩ := (ho.withMallocs (s₁.mallocs + 1)).replace _
        (h₁.withMallocs _) (fun _ _ => (hb a hval).quiet hquiet₂) hpad (tally_set hslot [] v)
      refine ⟨0, s', ?_, .of_replaced hquiet₂ h (ho.withMallocs _) hval hfrozen hrep ?_⟩
      · simp only [Store.setByIndex, hw, readPayload_eq ho.payload, malloc, hok, hwrap, hle, hslot,
          Option.map_some, Option.getD_some, hdec, hwrite, bind, Except.bind, Bool.not_true, Bool.not_false,
          if_false, Bool.false_eq_true]
        rfl
      · rw [clonePairs_set, clonePairs_padTo]

theorem Inv.removeByIndex {i : Nat} (h : Inv s owned iters) (hb : Borrowed s owned iters value) :
    ∃ rv s', s.removeByIndex value i = .ok (rv, s') ∧
      Mutated s owned iters value .list (fun slots => slots.eraseIdx i) rv s' := by
  obtain ⟨r, s₁, hw, h₁, hquiet, howns, _⟩ := h.writable .list (hb.live h)
  cases r with
  | none =>
    refine ⟨1, s₁, ?_, .of_quiet hquiet h₁ nofun⟩
    simp only [Store.removeByIndex, hw, bind, Except.bind]
    rfl
  | some p =>
    obtain ⟨a, pl, hval, hfrozen, ho, _⟩ := howns p rfl
    cases hslot : pl.slots[i]? with
    | none =>
      refine ⟨0, s₁, ?_, .of_quiet hquiet h₁ fun _ => ?_⟩
      · simp only [Store.removeByIndex, hw, readPayload_eq ho.payload, hslot, bind, Except.bind]
        rfl
      · have hlive := hquiet.live a (Store.live_of_view ho.view)
        have hview := (hquiet.view a hlive).symm.trans ho.view
        refine ⟨a, _, hval, hfrozen, hview, ?_⟩
        rw [← clonePairs_eraseIdx, List.eraseIdx_of_length_le (List.getElem?_eq_none_iff.mp hslot)]
    | some slot =>
      obtain ⟨s₂, s', hdec, hwrite, hrep, _⟩ := ho.replace _ (v := .null) h₁
        (fun _ _ => (hb a hval).quiet hquiet) (tally_eraseIdx hslot) (add_zero _).symm
      refine ⟨0, s', ?_, .of_replaced hquiet h ho hval hfrozen hrep (clonePairs_eraseIdx ..)⟩
      simp only [Store.removeByIndex, hw, readPayload_eq ho.payload, hslot, hdec, hwrite, bind, Except.bind]
      rfl

end Store

/-! ## The mutators together -/

inductive Change where
  | setByKey (k : Option Bytes) (v : Val)
  | removeByKey (k : Option Bytes)
  | append (v : Val)
  | setByIndex (i : Nat) (v : Val)
  | removeByIndex (i : Nat)

namespace Change

open Store

variable {s s' : Store} {owned iters : Nat → Nat} {value : Val} {ch : Change}

def run (s : Store) (value : Val) : Change → Except Fault (Nat × Store)
  | .setByKey k v => s.setByKey value k v
  | .removeByKey k => s.removeByKey value k
  | .append v => s.append value v
  | .setByIndex i v => s.setByIndex value i v
  | .removeByIndex i => s.removeByIndex value i

/-- The value that the mutator takes. -/
def given : Change → Val
  | .setByKey _ v => v
  | .append v => v
  | .setByIndex _ v => v
  | _ => .null

def kind : Change → Kind
  | .setByKey _ _ => .object
  | .removeByKey _ => .object
  | _ => .list

/-- What the mutator is for. -/
def effect : Change → List (Bytes × Val) → List (Bytes × Val)
  | .setByKey k v, slots => keyed k v slots
  | .removeByKey k, slots => unkeyed k slots
  | .append v, slots => slots ++ [([], v)]
  | .setByIndex i v, slots => (padTo (i + 1) slots).set i ([], v)
  | .removeByIndex i, slots => slots.eraseIdx i

/-- An index has to be one that `reserve` can make room for. -/
def Fits (s : Store) (value : Val) : Change → Prop
  | .setByIndex i _ => s.Indexes value i
  | _ => True

theorem mutated (h : Inv s (owned + refOf ch.given) iters) (hb : Borrowed s (owned + refOf ch.given) iters value) :
    (ch.run s value = .error .wild ∧ ¬ ch.Fits s value) ∨
      ∃ rv s', ch.run s value = .ok (rv, s') ∧ Mutated s owned iters value ch.kind ch.effect rv s' := by
  cases ch with
  | setByKey k v => exact .inr (h.setByKey hb)
  | removeByKey k => exact .inr (h.removeByKey hb)
  | append v => exact .inr (h.append hb)
  | setByIndex i v => exact h.setByIndex hb
  | removeByIndex i => exact .inr (h.removeByIndex hb)

end Change

end SentryNative.Memory
