import SentryNative.Memory.Merge

/-!
# Builders

The functions that put a child into a value and go on with it. They do not look at
whether the setter took the child: when it did not, the child is freed, and to go on
with it is a fault.
-/

namespace SentryNative.Memory

open CLib ObjectMap

namespace Store

variable {s s' s₁ : Store} {owned iters : Nat → Nat} {a n : Nat} {v c parent : Val} {kind : Kind}

/-! ## The functions -/

/-- The child under a key, or a new one that is put there. -/
def getOrInsert (s : Store) (parent : Val) (key : Bytes) (kind : Kind) : Except Fault (Val × Store) := do
  let child ← s.getByKey parent (some key)
  if child = .null then
    let (child, s) := s.newContainer kind
    let (_, s) ← s.setByKey parent (some key) child
    return (child, s)
  else return (child, s)

def valuesKey : Bytes := ascii "values"

/-- `sentry__get_or_insert_values_list`. -/
def getOrInsertValuesList (s : Store) (parent : Val) (key : Bytes) : Except Fault (Val × Store) := do
  let (obj, s) ← s.getOrInsert parent key .object
  if ← s.isObject obj then s.getOrInsert obj valuesKey .list
  else
    match ← s.payloadOf obj .list with
    | some _ => return (obj, s)
    | none => return (.null, s)

/-- The value goes to the end of a list of values. -/
def addValue (s : Store) (event : Val) (key : Bytes) (v : Val) : Except Fault Store := do
  let (values, s) ← s.getOrInsertValuesList event key
  let (_, s) ← s.append values v
  return s

/-- `sentry_event_add_exception`. -/
def eventAddException (s : Store) (event exception : Val) : Except Fault Store :=
  s.addValue event (ascii "exception") exception

/-- `sentry_event_add_thread`. -/
def eventAddThread (s : Store) (event thread : Val) : Except Fault Store :=
  s.addValue event (ascii "threads") thread

/-- `set_data`: a value goes into the object under a key. -/
def setData (s : Store) (item : Val) (dataKey : Bytes) (key : Option Bytes) (v : Val) : Except Fault Store := do
  let (data, s) ← s.getOrInsert item dataKey .object
  let (_, s) ← s.setByKey data key v
  return s

/-- `sentry_transaction_set_data_n`. -/
def transactionSetDataN (s : Store) (tx : Option Val) (key : Option Bytes) (v : Val) : Except Fault Store :=
  match tx with
  | some inner => s.setData inner (ascii "data") key v
  | none => return s

/-- `sentry_transaction_set_data`. -/
def transactionSetData (s : Store) (tx : Option Val) (key : Option Bytes) (v : Val) : Except Fault Store :=
  match key with
  | some key => s.transactionSetDataN tx (some key) v
  | none => return s

/-- The value of a tag: `sentry__string_clone_max_n` and `sentry__value_new_string_owned`. -/
def tagValue (s : Store) (value : Option Bytes) : Val × Store :=
  match value with
  | none => (.null, s)
  | some value =>
    match s.malloc with
    | (true, s) => s.newLeaf (.string (cstr (value.take 200)))
    | (false, s) => (.null, s)

/-- `set_tag_n`. -/
def setTag (s : Store) (item : Val) (tag value : Option Bytes) : Except Fault Store := do
  let (tags, s) ← s.getOrInsert item (ascii "tags") .object
  let (v, s) := s.tagValue value
  let (_, s) ← s.setByKey tags tag v
  return s

/-- `sentry_transaction_set_tag_n`. -/
def transactionSetTag (s : Store) (tx : Option Val) (tag value : Option Bytes) : Except Fault Store :=
  match tx with
  | some inner => s.setTag inner tag value
  | none => return s

/-- `sentry__addr_to_string`. -/
def addrText (addr : UInt64) : Bytes := ascii "0x" ++ (Nat.toDigits 16 addr.toNat).map fun c => UInt8.ofNat c.toNat

/-- The loop of `sentry_value_new_stacktrace`, over the addresses in the order of the
frames. -/
def addFrames (s : Store) (frames : Val) : List UInt64 → Except Fault Store
  | [] => return s
  | ip :: ips => do
    let (frame, s) := s.newContainer .object
    let (addr, s) := s.newLeaf (.string (addrText ip))
    let (_, s) ← s.setByKey frame (some (ascii "instruction_addr")) addr
    let (_, s) ← s.append frames frame
    s.addFrames frames ips

/-- `sentry_value_new_stacktrace` on the addresses that were given or walked. -/
def newStacktrace (s : Store) (ips : List UInt64) : Except Fault (Val × Store) := do
  let (frames, s) := s.newListWithSize ips.length
  let s ← s.addFrames frames ips.reverse
  let (stacktrace, s) := s.newContainer .object
  let (_, s) ← s.setByKey stacktrace (some (ascii "frames")) frames
  return (stacktrace, s)

/-- `sentry_value_set_stacktrace`. -/
def setStacktrace (s : Store) (value : Val) (ips : List UInt64) : Except Fault Store := do
  let (stacktrace, s) ← s.newStacktrace ips
  let (_, s) ← s.setByKey value (some (ascii "stacktrace")) stacktrace
  return s

/-! ## Where a child is taken -/

/-- When a child has to be made under the key and there is memory for it, then the value
takes it: an unfrozen object, with the memory that it needs for that. -/
def Accepts (s : Store) (parent : Val) (key : Bytes) : Prop :=
  s.lookup parent (some key) = .null → Ready 2 s → ∃ a slots, parent = .thing a ∧ ¬ s.Frozen a ∧
    s.view a = some (.container .object slots) ∧ Ready (3 + s.detachMallocs a + reserveMallocs key slots) s

/-- The calls of `malloc` in a row, after some, succeed. -/
def ReadyFrom (k n : Nat) (s : Store) : Prop := ∀ i < n, s.fails (s.mallocs + k + i) = false

/-- The same for both children of `sentry__get_or_insert_values_list`. -/
structure AcceptsValue (s : Store) (event : Val) (key : Bytes) : Prop where
  first : s.Accepts event key
  /-- A new object takes the list if there is memory for both. -/
  fresh : s.lookup event (some key) = .null → Ready 2 s → ∀ a slots, event = .thing a →
    s.view a = some (.container .object slots) →
    ReadyFrom (3 + s.detachMallocs a + reserveMallocs key slots) 2 s →
    ReadyFrom (5 + s.detachMallocs a + reserveMallocs key slots) 2 s
  second : (s.shown (s.lookup event (some key)) .object).isSome →
    s.Accepts (s.lookup event (some key)) valuesKey

/-! ## The child -/

/-- A value that was freed. -/
def Dangling (s : Store) (v : Val) : Prop := ∃ n, v = .thing n ∧ s.things n = none

theorem Inv.slotRefs_pos (h : Inv s owned iters) (ha : s.Held a) : 0 < s.slotRefs a := by
  obtain ⟨p, pl, hp, hmem⟩ := ha
  have hle := Counting.le_sum_range (holds a) s.payloads (h.lt_nextPayload hp)
  rw [hp] at hle
  exact Nat.lt_of_lt_of_le (List.count_pos_iff.mpr hmem) hle

theorem held_of_slotRefs_pos (h : 0 < s.slotRefs a) : s.Held a := by
  obtain ⟨p, _, hp⟩ := Counting.exists_of_sum_pos (holds a) s.payloads h
  cases hpl : s.payloads p with
  | none =>
    rw [hpl] at hp
    cases hp
  | some pl =>
    rw [hpl] at hp
    exact ⟨p, pl, hpl, List.count_pos_iff.mp hp⟩

/-- A new thing that no slot took is gone once its reference is released. -/
theorem Created.gone (h : Inv s owned iters) (hc : Created s owned iters (.thing n) s₁)
    (hi : Inv s' owned iters) (hheld : s'.Held n → s₁.Held n) : s'.things n = none := by
  have hrc₁ := hc.inv.things n
  rw [hc.count n rfl] at hrc₁
  simp only [refOf_thing, Pi.add_apply, one_self] at hrc₁
  have hslots : s'.slotRefs n = 0 := by
    by_contra hpos
    have := hc.inv.slotRefs_pos (hheld (held_of_slotRefs_pos (Nat.pos_of_ne_zero hpos)))
    omega
  have hrc := hi.things n
  cases ht : s'.things n with
  | none => rfl
  | some t =>
    have hpos := hi.thingPos n t ht
    rw [rc_eq, ht] at hrc
    simp only [countOf] at hrc
    omega

/-- What is known of the child that `getOrInsert` gives. -/
structure Offered (s : Store) (owned iters : Nat → Nat) (parent : Val) (key : Bytes) (kind : Kind)
    (c : Val) (s' : Store) : Prop where
  inv : Inv s' owned iters
  evolves : Evolves s s'
  bound : ∀ n, c = .thing n → n < s'.nextThing
  child : Borrowed s' owned iters c ∨ Dangling s' c
  accepted : s.Accepts parent key → Borrowed s' owned iters c
  found : s.lookup parent (some key) ≠ .null → c = s.lookup parent (some key) ∧ s' = s
  /-- A child that was made and taken has its payload for itself. -/
  made : s.lookup parent (some key) = .null → s.Accepts parent key → Ready 2 s →
    ∃ a slots b p, parent = .thing a ∧ s.view a = some (.container .object slots) ∧ c = .thing b ∧
      ¬ s'.Frozen b ∧ Owns s' b kind p ⟨[], 1⟩ ∧ s'.fails = s.fails ∧
      s'.mallocs = s.mallocs + (3 + s.detachMallocs a + reserveMallocs key slots)
  none : s.lookup parent (some key) = .null → ¬ Ready 2 s → c = .null

theorem detachMallocs_congr {t t' : Thing} (ht : s.things a = some t) (ht' : s'.things a = some t')
    (hb : t'.body = t.body) {p : Nat} {pl : Payload} (hbody : t.body = .container kind p)
    (hp : s.payloads p = some pl) (hp' : s'.payloads p = some pl) : s'.detachMallocs a = s.detachMallocs a := by
  rw [detachMallocs_eq ht hbody hp, detachMallocs_eq ht' (hb.trans hbody) hp']

theorem mem_children_setPairs (k : Bytes) (slots : List (Bytes × Val)) :
    a ∈ children (setPairs k (.thing a) slots) := by
  induction slots with
  | nil => exact List.mem_singleton.mpr rfl
  | cons first slots ih =>
    obtain ⟨stored, w⟩ := first
    simp only [setPairs]
    split
    · exact mem_children_cons.mpr (.inl rfl)
    · exact mem_children_cons.mpr (.inr ih)

theorem newContainer_payloads {p : Nat} {pl : Payload} (h : Inv s owned iters) (hp : s.payloads p = some pl) :
    (s.newContainer kind).2.payloads p = some pl := by
  obtain ⟨m, hm⟩ := mallocN_eq 2 s
  unfold newContainer newContainerIn
  cases hok : (mallocN 2 s).1 with
  | false =>
    rw [show mallocN 2 s = (false, { s with mallocs := m }) from Prod.ext hok hm]
    exact hp
  | true =>
    rw [show mallocN 2 s = (true, { s with mallocs := m }) from Prod.ext hok hm]
    exact (putPayload_of_ne _ _ (Nat.ne_of_lt (h.lt_nextPayload hp))).trans hp

theorem Inv.getOrInsert (h : Inv s owned iters) (hb : Borrowed s owned iters parent) (key : Bytes) (kind : Kind) :
    ∃ c s', s.getOrInsert parent key kind = .ok (c, s') ∧ Offered s owned iters parent key kind c s' := by
  have hget := h.getByKey (hb.live h) (some key)
  by_cases hnull : s.lookup parent (some key) = .null
  · have hcr : Created s owned iters (s.newContainer kind).1 (s.newContainer kind).2 := h.newContainerIn kind 2
    have hb₁ : Borrowed (s.newContainer kind).2 owned iters parent := fun a ha => (hb a ha).grows hcr.grows
    have hlive₁ : ∀ a, parent = .thing a → (s.newContainer kind).2.Live a := fun a ha =>
      hcr.grows.stays ((hb a ha).live h)
    have hlook : (s.newContainer kind).2.lookup parent (some key) = .null := by
      rw [← hnull]
      unfold lookup
      rw [shown_congr fun a ha => hcr.grows.view a ((hb a ha).live h)]
    have hnot : ∀ x, (s.newContainer kind).2.lookup parent (some key) ≠ .thing x := by
      intro x hx
      rw [hlook] at hx
      cases hx
    obtain ⟨rv, s', hset, hmut, hadds⟩ := hcr.inv.setByKey_spec parent (some key) hlive₁
      fun x hx => absurd hx (hnot x)
    have hrun : s.getOrInsert parent key kind = .ok ((s.newContainer kind).1, s') := by
      simp only [Store.getOrInsert, hget, hnull, hset, bind, Except.bind, if_true]
      rfl
    -- a child that was taken is reached through its parent
    have htaken : rv = 0 → Borrowed s' owned iters (s.newContainer kind).1 := by
      intro hrv n hn
      obtain ⟨a, slots, hval, _, _, hv'⟩ := hmut.done hrv
      have ha := hmut.reach a hval owned (fun _ => Nat.le_refl _) (hb₁ a hval)
      apply Reach.slot ha hv'
      rw [hn, keyed, children_clonePairs]
      exact mem_children_setPairs key slots
    have hgone : rv ≠ 0 → ∀ n, (s.newContainer kind).1 = .thing n → s'.things n = none := by
      intro hrv n hn
      rw [hn] at hcr
      exact hcr.gone h hmut.inv (hmut.held hrv n)
    have hins : s.Accepts parent key → Ready 2 s → ∃ a slots, parent = .thing a ∧
        s.view a = some (.container .object slots) ∧
        Inserted (s.newContainer kind).2 parent (1 + s.detachMallocs a + reserveMallocs key slots) rv s' := by
      intro hacc hready
      obtain ⟨a, slots, hval, hf, hv, hmem⟩ := hacc hnull hready
      obtain ⟨_, hfails, hmallocs⟩ := newContainerIn_ready kind hready
      have hlive := (hb a hval).live h
      obtain ⟨t, p, pl, ht, hbt, hp, _⟩ := of_view_container hv
      obtain ⟨t₁, ht₁, hb₁, _⟩ := hcr.grows.things a t ht
      have hdm := detachMallocs_congr ht ht₁ hb₁ hbt hp (newContainer_payloads h hp)
      refine ⟨a, slots, hval, hv, ?_⟩
      rw [← hdm]
      apply (hadds key rfl hnot).inserted a slots hval (fun hf' => hf ((hcr.grows.frozen_iff hlive).mp hf'))
        ((hcr.grows.view a hlive).trans hv)
      intro i hi
      rw [hdm] at hi
      change (s.newContainerIn kind 2).2.fails ((s.newContainerIn kind 2).2.mallocs + i) = false
      rw [hfails, hmallocs]
      have := hmem (2 + i) (by omega)
      rwa [← Nat.add_assoc] at this
    refine ⟨_, s', hrun, hmut.inv, ?_, ?_, ?_, ?_, fun hne => absurd hnull hne, ?_, ?_⟩
    · exact (Evolves.of_keepsAll hcr.grows.keeps hcr.grows.noFreeze).trans hmut.evolves h
    · intro n hn
      rcases hcr.fresh with hnone | ⟨hnew, hnext⟩
      · cases hn.symm.trans hnone
      · cases hn.symm.trans hnew
        rw [hmut.nextThing, hnext]
        exact Nat.lt_succ_self _
    · by_cases hrv : rv = 0
      · exact .inl (htaken hrv)
      · cases hc : (s.newContainer kind).1 with
        | thing n => exact .inr ⟨n, rfl, hgone hrv n hc⟩
        | null => exact .inl nofun
        | bool b => exact .inl nofun
        | int32 i => exact .inl nofun
    · intro hacc
      by_cases hready : Ready 2 s
      · obtain ⟨a, slots, _, _, hin⟩ := hins hacc hready
        exact htaken hin.done
      · intro n hn
        have hnone : (s.newContainer kind).1 = .null := newContainerIn_not_ready hready
        rw [hnone] at hn
        cases hn
    · intro _ hacc hready
      obtain ⟨a, slots, hval, hv, hin⟩ := hins hacc hready
      obtain ⟨hthing, hfails, hmallocs⟩ := newContainerIn_ready kind hready
      have hthing' : (s.newContainer kind).1 = .thing s.nextThing := hthing
      obtain ⟨hown, hfr⟩ := newContainerIn_owns hthing
      have hne : parent ≠ .thing s.nextThing := by
        intro heq
        exact absurd (h.live_lt ((hb _ heq).live h)) (Nat.lt_irrefl _)
      refine ⟨a, slots, s.nextThing, s.nextPayload, hval, hv, hthing', ?_, hin.owns _ _ _ _ hne hown,
        hin.fails.trans hfails, ?_⟩
      · intro hf'
        rcases hmut.noFreeze _ hf' with hf₁ | hleaf
        · exact hfr hf₁
        · obtain ⟨w, hw⟩ := hleaf.view
          rw [(hin.owns _ _ _ _ hne hown).view] at hw
          cases hw
      · have hcalls := hin.mallocs
        change s'.mallocs = (s.newContainerIn kind 2).2.mallocs + _ at hcalls
        rw [hcalls, hmallocs]
        omega
    · exact fun _ hready => newContainerIn_not_ready hready
  · have hbor : Borrowed s owned iters (s.lookup parent (some key)) := hb.lookup _
    refine ⟨s.lookup parent (some key), s, ?_, h, .refl s, fun n hn => h.live_lt ((hbor n hn).live h),
      .inl hbor, fun _ => hbor, fun _ => ⟨rfl, rfl⟩, fun hn => absurd hn hnull, fun hn => absurd hn hnull⟩
    simp only [Store.getOrInsert, hget, hnull, bind, Except.bind, if_false]
    rfl

/-! ## A freed child -/

theorem Dangling.isObject (h : Dangling s v) : s.isObject v = .error .freed := by
  obtain ⟨n, rfl, hn⟩ := h
  simp only [Store.isObject, payloadOf, readThing, hn, bind, Except.bind]

theorem Dangling.writable (h : Dangling s v) (kind : Kind) : s.writable v kind = .error .freed := by
  obtain ⟨n, rfl, hn⟩ := h
  simp only [Store.writable, readThing, hn, bind, Except.bind]

theorem Dangling.append (h : Dangling s parent) (v : Val) : s.append parent v = .error .freed := by
  simp only [Store.append, h.writable, bind, Except.bind]

/-- Only a failure before the value is looked at goes well. -/
theorem Dangling.setByKey {k : Option Bytes} (h : Dangling s parent) (hi : Inv s (owned + refOf v) iters) :
    s.setByKey parent k v = .error .freed ∨
      ∃ rv s', s.setByKey parent k v = .ok (rv, s') ∧ Inv s' owned iters ∧ Evolves s s' := by
  have hfail : ∀ s₁, Quiet s s₁ → Inv s₁ (owned + refOf v) iters →
      ∃ s', s₁.fail v = .ok (1, s') ∧ Inv s' owned iters ∧ Evolves s s' := by
    intro s₁ hquiet h₁
    obtain ⟨s', hf, hmut, _⟩ := Mutated.of_fail parent .object (f := id) hquiet h₁
    exact ⟨s', hf, hmut.inv, hmut.evolves⟩
  cases k with
  | none =>
    obtain ⟨s', hf, hi', he⟩ := hfail s (.refl s) hi
    exact .inr ⟨1, s', hf, hi', he⟩
  | some k =>
    cases hok : s.fails s.mallocs with
    | true =>
      obtain ⟨s', hf, hi', he⟩ := hfail _ (.withMallocs s (s.mallocs + 1)) (hi.withMallocs _)
      right
      refine ⟨1, s', ?_, hi', he⟩
      simp only [Store.setByKey, malloc, hok, Bool.not_true]
      exact hf
    | false =>
      left
      have hd : Dangling { s with mallocs := s.mallocs + 1 } parent := h
      simp only [Store.setByKey, malloc, hok, Bool.not_false, setByKeyOwned, hd.writable, bind, Except.bind]

/-! ## Builders with a child -/

/-- A builder touched a freed cell, or it did its work with exact counts. -/
def Built (s : Store) (owned iters : Nat → Nat) (r : Except Fault Store) : Prop :=
  r = .error .freed ∨ ∃ s', r = .ok s' ∧ Inv s' owned iters ∧ Evolves s s'

theorem Inv.getOrInsertValuesList (h : Inv s owned iters) (hb : Borrowed s owned iters parent) (key : Bytes) :
    (s.getOrInsertValuesList parent key = .error .freed ∧ ¬ s.AcceptsValue parent key) ∨
      ∃ c s', s.getOrInsertValuesList parent key = .ok (c, s') ∧ Inv s' owned iters ∧ Evolves s s' ∧
        (Borrowed s' owned iters c ∨ Dangling s' c) ∧ (s.AcceptsValue parent key → Borrowed s' owned iters c) := by
  obtain ⟨c, s₁, hrun, hoff⟩ := h.getOrInsert hb key .object
  rcases hoff.child with hbor | hdang
  · have hobj := hoff.inv.isObject (hbor.live hoff.inv)
    right
    cases hshown : (s₁.shown c .object).isSome with
    | true =>
      rw [hshown] at hobj
      obtain ⟨c', s₂, hrun₂, hoff₂⟩ := hoff.inv.getOrInsert hbor valuesKey .list
      have hacc : s.AcceptsValue parent key → s₁.Accepts c valuesKey := by
        intro hav
        by_cases hnull : s.lookup parent (some key) = .null
        · intro _ hready₁
          by_cases hready : Ready 2 s
          · obtain ⟨a, slots, b, p, hval, hv, rfl, hfr, hown, hfails, hmallocs⟩ := hoff.made hnull hav.first hready
            obtain ⟨t, ht, hbt⟩ := hown.body
            have hdm : s₁.detachMallocs b = 0 := by
              rw [detachMallocs_eq ht hbt hown.payload]
              rfl
            refine ⟨b, [], rfl, hfr, hown.view, ?_⟩
            have hfirst : ReadyFrom (3 + s.detachMallocs a + reserveMallocs key slots) 2 s := by
              intro i hi
              have := hready₁ i hi
              rwa [hfails, hmallocs] at this
            have hsecond := hav.fresh hnull hready a slots hval hv hfirst
            intro i hi
            rw [hfails, hmallocs]
            by_cases hi2 : i < 2
            · exact hfirst i hi2
            · have hlast : i < 4 := by
                rw [hdm] at hi
                exact hi
              have := hsecond (i - 2) (by omega)
              rwa [show s.mallocs + (5 + s.detachMallocs a + reserveMallocs key slots) + (i - 2) =
                s.mallocs + (3 + s.detachMallocs a + reserveMallocs key slots) + i by omega] at this
          · have hnone := hoff.none hnull hready
            subst hnone
            cases hshown
        · obtain ⟨rfl, rfl⟩ := hoff.found hnull
          exact hav.second hshown
      refine ⟨c', s₂, ?_, hoff₂.inv, hoff.evolves.trans hoff₂.evolves h, hoff₂.child,
        fun hav => hoff₂.accepted (hacc hav)⟩
      simp only [Store.getOrInsertValuesList, hrun, hobj, bind, Except.bind, if_true]
      exact hrun₂
    | false =>
      rw [hshown] at hobj
      obtain ⟨r, hr, _, _⟩ := hoff.inv.payloadOf .list (hbor.live hoff.inv)
      cases r with
      | some p =>
        refine ⟨c, s₁, ?_, hoff.inv, hoff.evolves, .inl hbor, fun _ => hbor⟩
        simp only [Store.getOrInsertValuesList, hrun, hobj, hr, bind, Except.bind, Bool.false_eq_true, if_false]
        rfl
      | none =>
        refine ⟨.null, s₁, ?_, hoff.inv, hoff.evolves, .inl nofun, fun _ => nofun⟩
        simp only [Store.getOrInsertValuesList, hrun, hobj, hr, bind, Except.bind, Bool.false_eq_true, if_false]
        rfl
  · left
    constructor
    · simp only [Store.getOrInsertValuesList, hrun, hdang.isObject, bind, Except.bind]
    · intro hav
      obtain ⟨n, rfl, hn⟩ := hdang
      exact (hoff.accepted hav.first n rfl).live hoff.inv hn

theorem Dangling.not_borrowed (h : Dangling s v) (hi : Inv s owned iters) : ¬ Borrowed s owned iters v := by
  obtain ⟨n, rfl, hn⟩ := h
  exact fun hb => (hb n rfl).live hi hn

theorem Inv.addValue (h : Inv s (owned + refOf v) iters) (hb : Borrowed s (owned + refOf v) iters parent)
    (key : Bytes) : Built s owned iters (s.addValue parent key v) ∧
      (s.AcceptsValue parent key → s.addValue parent key v ≠ .error .freed) := by
  rcases h.getOrInsertValuesList hb key with ⟨herr, hnot⟩ | ⟨c, s₁, hrun, h₁, he, hchild, hacc⟩
  · have hrun : s.addValue parent key v = .error .freed := by
      simp only [Store.addValue, herr, bind, Except.bind]
    exact ⟨.inl hrun, fun hav => absurd hav hnot⟩
  · rcases hchild with hbor | hdang
    · obtain ⟨rv, s', happ, hmut⟩ := h₁.append hbor
      have hok : s.addValue parent key v = .ok s' := by
        simp only [Store.addValue, hrun, happ, bind, Except.bind]
        rfl
      refine ⟨.inr ⟨s', hok, hmut.inv, he.trans hmut.evolves h⟩, fun _ herr => ?_⟩
      rw [hok] at herr
      cases herr
    · have herr : s.addValue parent key v = .error .freed := by
        simp only [Store.addValue, hrun, hdang.append, bind, Except.bind]
      exact ⟨.inl herr, fun hav => absurd (hacc hav) (hdang.not_borrowed h₁)⟩

/-- The end of `set_data` and `set_tag_n`: a value goes into the child. -/
theorem Inv.setChild {k : Option Bytes} (h : Inv s (owned + refOf v) iters)
    (hc : Borrowed s (owned + refOf v) iters c ∨ Dangling s c) :
    s.setByKey c k v = .error .freed ∨
      ∃ rv s', s.setByKey c k v = .ok (rv, s') ∧ Inv s' owned iters ∧ Evolves s s' := by
  rcases hc with hbor | hdang
  · obtain ⟨rv, s', hset, hmut⟩ := h.setByKey (k := k) hbor
    exact .inr ⟨rv, s', hset, hmut.inv, hmut.evolves⟩
  · exact hdang.setByKey h

theorem Inv.setData {k : Option Bytes} (h : Inv s (owned + refOf v) iters)
    (hb : Borrowed s (owned + refOf v) iters parent) (dataKey : Bytes) :
    Built s owned iters (s.setData parent dataKey k v) ∧
      (s.Accepts parent dataKey → s.setData parent dataKey k v ≠ .error .freed) := by
  obtain ⟨c, s₁, hrun, hoff⟩ := h.getOrInsert hb dataKey .object
  constructor
  · rcases hoff.inv.setChild (k := k) hoff.child with herr | ⟨rv, s', hset, hi', he⟩
    · left
      simp only [Store.setData, hrun, herr, bind, Except.bind]
    · right
      refine ⟨s', ?_, hi', hoff.evolves.trans he h⟩
      simp only [Store.setData, hrun, hset, bind, Except.bind]
      rfl
  · intro hacc herr
    obtain ⟨rv, s', hset, _⟩ := hoff.inv.setByKey (k := k) (hoff.accepted hacc)
    simp only [Store.setData, hrun, hset, bind, Except.bind] at herr
    cases herr

theorem Inv.tagValue (h : Inv s owned iters) (value : Option Bytes) :
    Created s owned iters (s.tagValue value).1 (s.tagValue value).2 := by
  unfold Store.tagValue malloc
  cases value with
  | none => exact .null h s.mallocs
  | some value =>
    cases s.fails s.mallocs with
    | true => exact .null h _
    | false => exact ((h.withMallocs _).newLeaf _).after (.withMallocs h _) rfl

theorem Dangling.grows (h : Dangling s v) (hg : Grows s s') (hlt : ∀ n, v = .thing n → n < s.nextThing) :
    Dangling s' v := by
  obtain ⟨n, rfl, hn⟩ := h
  refine ⟨n, rfl, ?_⟩
  by_contra hlive
  rcases hg.old n hlive with hold | hge
  · exact hold hn
  · exact absurd (hlt n rfl) (Nat.not_lt.mpr hge)

theorem Borrowed.created {w : Val} (hb : Borrowed s owned iters v) (hc : Created s owned iters w s') :
    Borrowed s' (owned + refOf w) iters v := fun a ha =>
  ((hb a ha).grows hc.grows).mono fun _ => Nat.le_add_right _ _

theorem Created.evolves (h : Created s owned iters v s') : Evolves s s' :=
  .of_keepsAll h.grows.keeps h.grows.noFreeze

theorem Inv.setTag (h : Inv s owned iters) (hb : Borrowed s owned iters parent) (tag value : Option Bytes) :
    Built s owned iters (s.setTag parent tag value) ∧
      (s.Accepts parent (ascii "tags") → s.setTag parent tag value ≠ .error .freed) := by
  obtain ⟨c, s₁, hrun, hoff⟩ := h.getOrInsert hb (ascii "tags") .object
  have hcr := hoff.inv.tagValue value
  have hev := hoff.evolves.trans hcr.evolves h
  constructor
  · have hchild : Borrowed (s₁.tagValue value).2 (owned + refOf (s₁.tagValue value).1) iters c ∨
        Dangling (s₁.tagValue value).2 c :=
      hoff.child.imp (fun hbor => hbor.created hcr) fun hdang => hdang.grows hcr.grows hoff.bound
    rcases hcr.inv.setChild (k := tag) hchild with herr | ⟨rv, s', hset, hi', he⟩
    · left
      simp only [Store.setTag, hrun, herr, bind, Except.bind]
    · right
      refine ⟨s', ?_, hi', hev.trans he h⟩
      simp only [Store.setTag, hrun, hset, bind, Except.bind]
      rfl
  · intro hacc herr
    obtain ⟨rv, s', hset, _⟩ := hcr.inv.setByKey (k := tag) ((hoff.accepted hacc).created hcr)
    simp only [Store.setTag, hrun, hset, bind, Except.bind] at herr
    cases herr

/-! ## Stack traces -/

/-- Only things from `m` on change. -/
structure Beyond (m : Nat) (iters : Nat → Nat) (s s' : Store) : Prop where
  keeps : Keeps (fun a => m ≤ a) s s'
  iterating : Iterating iters s s'
  evolves : Evolves s s'

theorem Beyond.trans {m : Nat} (h : Beyond m iters s s₁) (h' : Beyond m iters s₁ s') (hi : Inv s owned iters) :
    Beyond m iters s s' :=
  ⟨h.keeps.trans_same h'.keeps hi, h.iterating.trans h'.iterating, h.evolves.trans h'.evolves hi⟩

theorem Created.beyond (h : Created s owned iters v s') (m : Nat) : Beyond m iters s s' :=
  ⟨h.grows.keeps.mono fun _ _ hw => hw.elim, h.grows.iterating, h.evolves⟩

theorem Mutated.beyond {m rv : Nat} {f : List (Bytes × Val) → List (Bytes × Val)}
    (h : Mutated s owned iters v kind f rv s') (hv : ∀ a, v = .thing a → m ≤ a) : Beyond m iters s s' :=
  ⟨h.keeps.mono fun a _ hw => hv a hw.1, h.iterating, h.evolves⟩

theorem Created.ge (h : Created s owned iters v s') : ∀ a, v = .thing a → s.nextThing ≤ a := by
  rintro a rfl
  rcases h.fresh with hnull | ⟨hnew, _⟩
  · cases hnull
  · cases hnew
    exact Nat.le_refl _

/-- A value that the caller owns may be used. -/
theorem borrowed_of_refOf (owned₀ : Nat → Nat) : Borrowed s (owned₀ + refOf v) iters v := by
  intro a ha
  subst ha
  exact .owned (by simp)

theorem Inv.addFrames {m : Nat} {frames : Val} (ips : List UInt64) (h : Inv s (owned + refOf frames) iters)
    (hm : m ≤ s.nextThing) (hframes : ∀ a, frames = .thing a → m ≤ a) :
    ∃ s', s.addFrames frames ips = .ok s' ∧ Inv s' (owned + refOf frames) iters ∧ Beyond m iters s s' := by
  induction ips generalizing s with
  | nil => exact ⟨s, rfl, h, .refl s, .refl s, .refl s⟩
  | cons ip ips ih =>
    have hframe : Created s (owned + refOf frames) iters (s.newContainer .object).1 (s.newContainer .object).2 :=
      h.newContainerIn .object 2
    have haddr := hframe.inv.newLeaf (.string (addrText ip))
    obtain ⟨rv, s₁, hset, hmut⟩ := haddr.inv.setByKey (k := some (ascii "instruction_addr"))
      ((borrowed_of_refOf (v := (s.newContainer .object).1) (owned + refOf frames)).created haddr)
    have hbor : Borrowed s₁ (owned + refOf frames + refOf (s.newContainer .object).1) iters frames := by
      intro a ha
      apply Reach.owned
      subst ha
      simp only [Pi.add_apply, refOf_thing, one_self]
      omega
    obtain ⟨rv₂, s₂, happ, hmut₂⟩ := hmut.inv.append hbor
    have hbefore := (hframe.beyond m).trans (haddr.beyond m) h
    have hset' := hbefore.trans (hmut.beyond fun a ha => Nat.le_trans hm (hframe.ge a ha)) h
    have happ' := hset'.trans (hmut₂.beyond hframes) h
    obtain ⟨s', hrest, hi', hbey⟩ := ih hmut₂.inv (Nat.le_trans hm happ'.keeps.next)
    refine ⟨s', ?_, hi', happ'.trans hbey h⟩
    simp only [Store.addFrames, hset, happ, bind, Except.bind]
    exact hrest

theorem Inv.newStacktrace (ips : List UInt64) (h : Inv s owned iters) :
    ∃ v s', s.newStacktrace ips = .ok (v, s') ∧ Inv s' (owned + refOf v) iters ∧
      Beyond s.nextThing iters s s' := by
  have hlist : Created s owned iters (s.newListWithSize ips.length).1 (s.newListWithSize ips.length).2 :=
    h.newContainerIn .list _
  obtain ⟨s₁, hframes, h₁, hbey₁⟩ := hlist.inv.addFrames ips.reverse hlist.grows.next hlist.ge
  have hobj : Created s₁ (owned + refOf (s.newListWithSize ips.length).1) iters (s₁.newContainer .object).1
      (s₁.newContainer .object).2 := h₁.newContainerIn .object 2
  have hi : Inv (s₁.newContainer .object).2
      (owned + refOf (s₁.newContainer .object).1 + refOf (s.newListWithSize ips.length).1) iters := by
    rw [add_right_comm]
    exact hobj.inv
  have hbor : Borrowed (s₁.newContainer .object).2
      (owned + refOf (s₁.newContainer .object).1 + refOf (s.newListWithSize ips.length).1) iters
      (s₁.newContainer .object).1 := by
    rw [add_right_comm]
    exact borrowed_of_refOf _
  obtain ⟨rv, s', hset, hmut⟩ := hi.setByKey (k := some (ascii "frames")) hbor
  have hbefore := ((hlist.beyond s.nextThing).trans hbey₁ h).trans (hobj.beyond _) h
  have hge : ∀ a, (s₁.newContainer .object).1 = .thing a → s.nextThing ≤ a := fun a ha =>
    Nat.le_trans (Nat.le_trans hlist.grows.next hbey₁.keeps.next) (hobj.ge a ha)
  refine ⟨_, s', ?_, hmut.inv, hbefore.trans (hmut.beyond hge) h⟩
  simp only [Store.newStacktrace, hframes, hset, bind, Except.bind]
  rfl

theorem Inv.setStacktrace {value : Val} (ips : List UInt64) (h : Inv s owned iters)
    (hb : Borrowed s owned iters value) :
    ∃ s', s.setStacktrace value ips = .ok s' ∧ Inv s' owned iters ∧ Evolves s s' := by
  obtain ⟨v, s₁, hrun, h₁, hbey⟩ := h.newStacktrace ips
  have hb₁ : Borrowed s₁ (owned + refOf v) iters value := by
    intro a ha
    have hr : Reach s₁ owned iters a := by
      apply (hb a ha).keeps hbey.keeps hbey.iterating h₁ fun _ => Nat.le_add_right _ _
      exact fun b hb => Nat.not_le.mpr (h.live_lt hb)
    exact hr.mono fun _ => Nat.le_add_right _ _
  obtain ⟨rv, s', hset, hmut⟩ := h₁.setByKey (k := some (ascii "stacktrace")) hb₁
  refine ⟨s', ?_, hmut.inv, hbey.evolves.trans hmut.evolves h⟩
  simp only [Store.setStacktrace, hrun, hset, bind, Except.bind]
  rfl

end Store

end SentryNative.Memory
