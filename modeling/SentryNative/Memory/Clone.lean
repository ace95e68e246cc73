import SentryNative.Memory.Freeze

/-!
# Clone

`sentry__value_clone` makes a new thing for every container and shares the payload as
long as no container is in it. A copy shows the same values as what it was made of, and
its containers are new.
-/

namespace SentryNative.Memory

open CLib ObjectMap

namespace Store

variable {s s' s₀ s₁ : Store} {owned owned' iters : Nat → Nat} {a b p q m n i : Nat} {v c : Val}
variable {kind : Kind} {xs ys : List (Bytes × Val)}

/-! ## Copies -/

/-- The right value is a copy of the left: what is no container is the same, and a
container, which is below `m` on the left, is at `n` or above on the right. -/
inductive Copy (s : Store) (m n : Nat) : Val → Val → Prop
  | scalar {v : Val} : (∀ a, v ≠ .thing a) → Copy s m n v v
  | leaf {a : Nat} {w : Value} : a < m → s.view a = some (.leaf w) → Copy s m n (.thing a) (.thing a)
  | container {a b : Nat} {kind : Kind} {xs ys : List (Bytes × Val)} : a < m → n ≤ b →
    s.view a = some (.container kind xs) → s.view b = some (.container kind ys) →
    xs.map Prod.fst = ys.map Prod.fst →
    (∀ (i : Nat) (x y : Bytes × Val), xs[i]? = some x → ys[i]? = some y → Copy s m n x.2 y.2) →
    Copy s m n (.thing a) (.thing b)

/-- A copy stays one while what is below `m`, or at `n` or above, looks the same. -/
theorem Copy.congr (h : Copy s m n v c)
    (hview : ∀ a, s.Live a → a < m ∨ n ≤ a → s'.view a = s.view a) : Copy s' m n v c := by
  induction h with
  | scalar hv => exact .scalar hv
  | leaf ha hv => exact .leaf ha ((hview _ (live_of_view hv) (.inl ha)).trans hv)
  | container ha hb hva hvb hkeys _ ih =>
    exact .container ha hb ((hview _ (live_of_view hva) (.inl ha)).trans hva)
      ((hview _ (live_of_view hvb) (.inr hb)).trans hvb) hkeys ih

theorem Copy.weaken (h : Copy s m n v c) {n' : Nat} (hn : n' ≤ n) : Copy s m n' v c := by
  induction h with
  | scalar hv => exact .scalar hv
  | leaf ha hv => exact .leaf ha hv
  | container ha hb hva hvb hkeys _ ih => exact .container ha (Nat.le_trans hn hb) hva hvb hkeys ih

/-- What is below `m` holds only what is below. -/
def Below (m : Nat) (s : Store) : Prop :=
  ∀ a kind slots, a < m → s.view a = some (.container kind slots) → ∀ b ∈ children slots, b < m

theorem Inv.below (h : Inv s owned iters) : Below s.nextThing s := fun _ _ _ _ hv _ hb =>
  h.live_lt (h.live_of_view hv hb)

theorem Below.grows (h : Below m s) (hm : m ≤ s.nextThing) (hg : Grows s s') :
    Below m s' := by
  intro a kind slots ha hv
  have hold : s.Live a := by
    apply (hg.old a (live_of_view hv)).resolve_right
    omega
  exact h a kind slots ha ((hg.view a hold).symm.trans hv)

/-- The first `i` slots are copied, the others are as they were. -/
structure Progress (s : Store) (m n i : Nat) (xs ys : List (Bytes × Val)) : Prop where
  keys : xs.map Prod.fst = ys.map Prod.fst
  copied : ∀ (j : Nat) (x y : Bytes × Val), j < i → xs[j]? = some x → ys[j]? = some y → Copy s m n x.2 y.2
  rest : ∀ j : Nat, i ≤ j → ys[j]? = xs[j]?

theorem Progress.congr (h : Progress s m n i xs ys)
    (hview : ∀ a, s.Live a → a < m ∨ n ≤ a → s'.view a = s.view a) : Progress s' m n i xs ys :=
  ⟨h.keys, fun j x y hj hx hy => (h.copied j x y hj hx hy).congr hview, h.rest⟩

theorem Progress.skip (h : Progress s m n i xs ys) {slot : Bytes × Val} (hi : xs[i]? = some slot)
    (hcopy : Copy s m n slot.2 slot.2) : Progress s m n (i + 1) xs ys := by
  refine ⟨h.keys, ?_, fun j hj => h.rest j (Nat.le_of_succ_le hj)⟩
  intro j x y hj hx hy
  rcases Nat.lt_succ_iff_lt_or_eq.mp hj with hj | rfl
  · exact h.copied j x y hj hx hy
  · rw [h.rest j (Nat.le_refl _), hi] at hy
    rw [hi] at hx
    cases hx
    cases hy
    exact hcopy

theorem Progress.set (h : Progress s m n i xs ys) {k : Bytes} {v c : Val} (hi : xs[i]? = some (k, v))
    (hcopy : Copy s m n v c) : Progress s m n (i + 1) xs (ys.set i (k, c)) := by
  have hy : ys[i]? = some (k, v) := (h.rest i (Nat.le_refl _)).trans hi
  have hlt : i < ys.length := (List.getElem?_eq_some_iff.mp hy).1
  constructor
  · have hkey : (ys.map Prod.fst)[i]? = some k := by
      rw [List.getElem?_map, hy]
      rfl
    obtain ⟨_, hget⟩ := List.getElem?_eq_some_iff.mp hkey
    rw [h.keys, List.map_set]
    dsimp only
    rw [← hget, List.set_getElem_self]
  · intro j x y hj hx hyj
    by_cases hji : j = i
    · subst j
      rw [hi] at hx
      rw [List.getElem?_set_self hlt] at hyj
      cases hx
      cases hyj
      exact hcopy
    · rw [List.getElem?_set_ne (Ne.symm hji)] at hyj
      exact h.copied j x y (by omega) hx hyj
  · intro j hj
    rw [List.getElem?_set_ne (by omega)]
    exact h.rest j (Nat.le_of_succ_le hj)

/-! ## Steps -/

theorem Inv.isContainer (h : Inv s owned iters) (hlive : ∀ a, v = .thing a → s.Live a) :
    (s.isContainer v = .ok true ∧ ∃ a kind slots, v = .thing a ∧ s.view a = some (.container kind slots)) ∨
      (s.isContainer v = .ok false ∧ ∀ a, v = .thing a → ∃ w, s.view a = some (.leaf w)) := by
  cases v with
  | thing a =>
    obtain ⟨t, ht⟩ := live_iff.mp (hlive a rfl)
    cases hb : t.body with
    | leaf w =>
      right
      constructor
      · simp only [Store.isContainer, readThing, ht, hb, bind, Except.bind]
        rfl
      · rintro b ⟨⟩
        exact ⟨w, view_leaf ht hb⟩
    | container kind p =>
      obtain ⟨pl, hp⟩ := h.live_payload ht hb
      left
      constructor
      · simp only [Store.isContainer, readThing, ht, hb, bind, Except.bind]
        rfl
      · exact ⟨a, kind, _, rfl, view_container ht hb hp⟩
  | null => exact .inr ⟨rfl, fun _ h => by cases h⟩
  | bool b => exact .inr ⟨rfl, fun _ h => by cases h⟩
  | int32 i => exact .inr ⟨rfl, fun _ h => by cases h⟩

theorem getChild_eq {t : Thing} {pl : Payload} (ht : s.things a = some t) (hb : t.body = .container kind p)
    (hp : s.payloads p = some pl) (i : Nat) :
    s.getChild a i = .ok (pl.slots[i]?.map fun slot => (p, pl.slots, slot.2)) := by
  simp only [getChild, readThing, readPayload, ht, hb, hp, bind, Except.bind]
  rfl

/-- Two slots of different payloads are two references. -/
theorem Inv.two_refs (h : Inv s owned iters) {pl pl' : Payload} (hp : s.payloads p = some pl)
    (hq : s.payloads q = some pl') (hne : p ≠ q) (ha : a ∈ children pl.slots) (ha' : a ∈ children pl'.slots) :
    2 ≤ s.rc a := by
  have hsum := Counting.add_le_sum_range (holds a) s.payloads (h.lt_nextPayload hp) (h.lt_nextPayload hq) hne
  rw [hp, hq] at hsum
  have h₁ : 0 < holds a (some pl) := List.count_pos_iff.mpr ha
  have h₂ : 0 < holds a (some pl') := List.count_pos_iff.mpr ha'
  have hrc := h.things a
  unfold slotRefs at hrc
  omega

theorem mem_children_of_getElem? {slots : List (Bytes × Val)} {k : Bytes} (h : slots[i]? = some (k, .thing a)) :
    a ∈ children slots := List.mem_filterMap.mpr ⟨(k, .thing a), List.mem_of_getElem? h, rfl⟩

theorem getElem?_clonePairs (slots : List (Bytes × Val)) (i : Nat) :
    (clonePairs slots)[i]? = slots[i]?.map fun slot => (cstr slot.1, slot.2) := List.getElem?_map ..

/-- A payload whose only user is one thing is that thing's own. -/
theorem Inv.owns (h : Inv s owned iters) {t : Thing} (ht : s.things a = some t)
    (hb : t.body = .container kind p) (hiters : iters p = 0)
    (huser : ∀ c u k, s.things c = some u → u.body = .container k p → c = a) : ∃ pl, Owns s a kind p pl := by
  obtain ⟨pl, hp⟩ := h.live_payload ht hb
  have husers : s.users p = uses p (s.things a) := by
    apply Finset.sum_eq_single a
    · intro c _ hne
      cases hu : s.things c with
      | none => rfl
      | some u =>
        cases hbody : u.body with
        | leaf w => simp only [uses, hbody]
        | container k q =>
          simp only [uses, hbody, ite_eq_right_iff]
          rintro rfl
          exact absurd (huser c u k hu hbody) hne
    · intro hnot
      exact absurd (Finset.mem_range.mpr (h.lt_nextThing ht)) hnot
  have hcount := h.payloads p
  rw [hp, husers, uses_eq_one ht hb, hiters] at hcount
  exact ⟨pl, ⟨t, ht, hb⟩, hp, hcount⟩

/-- Only counts and the slots of one payload change. -/
structure Swapped (p : Nat) (s s' : Store) : Prop where
  nextThing : s'.nextThing = s.nextThing
  nextPayload : s'.nextPayload = s.nextPayload
  things : ∀ e u, s.things e = some u → ∃ u', s'.things e = some u' ∧ u'.body = u.body ∧ u'.frozen = u.frozen
  live : ∀ e, s'.Live e → s.Live e
  payloads : ∀ q, q ≠ p → s'.payloads q = s.payloads q

theorem Swapped.body (h : Swapped p s s') {t' : Thing} (ht' : s'.things a = some t') :
    ∃ t, s.things a = some t ∧ t'.body = t.body ∧ t'.frozen = t.frozen := by
  obtain ⟨t, ht⟩ := live_iff.mp (h.live a (live_iff.mpr ⟨t', ht'⟩))
  obtain ⟨u, hu, hb, hf⟩ := h.things a t ht
  cases ht'.symm.trans hu
  exact ⟨t, ht, hb, hf⟩

theorem Swapped.stays (h : Swapped p s s') (ha : s.Live a) : s'.Live a := by
  obtain ⟨t, ht⟩ := live_iff.mp ha
  obtain ⟨t', ht', _⟩ := h.things a t ht
  exact live_iff.mpr ⟨t', ht'⟩

theorem Swapped.of_set {t : Thing} (ht : s.things a = some t) (n : Nat) (slots : List (Bytes × Val)) :
    Swapped p s ((s.putThing a (some { t with refcount := n })).setSlots p slots) := by
  constructor
  · rw [setSlots_nextThing]
    rfl
  · rw [setSlots_nextPayload]
    rfl
  · intro e u hu
    rw [setSlots_things]
    by_cases hea : e = a
    · subst e
      cases ht.symm.trans hu
      exact ⟨_, putThing_self .., rfl, rfl⟩
    · exact ⟨u, (putThing_of_ne _ _ hea).trans hu, rfl, rfl⟩
  · intro e he
    unfold Live at he
    rw [setSlots_things] at he
    by_cases hea : e = a
    · subst e
      exact live_iff.mpr ⟨t, ht⟩
    · rwa [putThing_of_ne _ _ hea] at he
  · intro q hq
    rw [setSlots_of_ne slots hq]
    rfl

/-- A slot is given another value while the old one is held elsewhere too. -/
theorem Owns.swap {x : Nat} {k : Bytes} {pl : Payload} (h : Owns s a kind p pl)
    (hi : Inv s (owned + refOf c) iters) (ha : 0 < owned a) (hat : pl.slots[i]? = some (k, .thing x))
    (hmany : 2 ≤ s.rc x) (hax : a ≠ x) :
    ∃ s₁ s', s.decref (.thing x) = .ok s₁ ∧ s₁.getChild a i = .ok (some (p, pl.slots, .thing x)) ∧
      s₁.write p (pl.slots.modify i fun slot => (slot.1, c)) = .ok s' ∧
      Replaced s owned iters a kind (pl.slots.set i (k, c)) s' ∧ Swapped p s s' ∧
      ∃ pl', Owns s' a kind p pl' := by
  obtain ⟨w, hw⟩ := thing_of_rc_pos (Nat.lt_of_lt_of_le Nat.two_pos hmany)
  rw [rc_eq, hw] at hmany
  have hdec := decref_many hw (hi.lt_nextThing hw) hmany
  have hreach : Reach s (owned + refOf c) iters a := .owned (Nat.lt_of_lt_of_le ha (Nat.le_add_right _ _))
  obtain ⟨s₁, s', hdec', hwrite, hrep, _⟩ := h.replace _ hi (fun _ _ => hreach) (tally_eraseIdx hat)
    (tally_set hat k c)
  cases hdec.symm.trans hdec'
  obtain ⟨t, ht, hb⟩ := h.body
  have hmod : pl.slots.modify i (fun slot => (slot.1, c)) = pl.slots.set i (k, c) := by
    rw [List.modify_eq_set_getElem?, hat]
    rfl
  have hp : (s.putThing x (some { w with refcount := w.refcount - 1 })).payloads p = some pl := h.payload
  have ht₁ : (s.putThing x (some { w with refcount := w.refcount - 1 })).things a = some t :=
    (putThing_of_ne _ _ hax).trans ht
  refine ⟨_, s', hdec, ?_, hmod ▸ hwrite, hrep, ?_⟩
  · rw [getChild_eq ht₁ hb hp, hat]
    rfl
  · rw [write_eq hp] at hwrite
    cases hwrite
    have howns : Owns (s.putThing x (some { w with refcount := w.refcount - 1 })) a kind p pl :=
      ⟨⟨t, ht₁, hb⟩, hp, h.one⟩
    exact ⟨.of_set hw _ _, _, howns.setSlots _⟩

/-! ## The outcome -/

/-- Where the originals are: below `m`, with all they hold. -/
structure Base (m : Nat) (s : Store) (v : Val) : Prop where
  le : m ≤ s.nextThing
  below : Below m s
  root : ∀ a, v = .thing a → a < m

/-- A new thing has a new payload, or that of an original. -/
def Sharing (m : Nat) (s s' : Store) : Prop :=
  ∀ a t kind q, s.nextThing ≤ a → s'.things a = some t → t.body = .container kind q →
    s.nextPayload ≤ q ∨ ∃ c u k, c < m ∧ s.things c = some u ∧ u.body = .container k q

/-- What `sentry__value_clone` did. When it did not fail, nothing is gone and the value
is a copy. -/
structure Cloned (s : Store) (owned iters : Nat → Nat) (v c : Val) (s' : Store) : Prop where
  inv : Inv s' (owned + refOf c) iters
  keeps : KeepsAll s s'
  noFreeze : NoFreeze s s'
  iterating : Iterating iters s s'
  done : (c = .null → v = .null) → Grows s s' ∧
    ∀ m, Base m s v → Copy s' m s.nextThing v c ∧ Sharing m s s'

def CloneOk (fuel : Nat) : Prop :=
  ∀ s owned iters v, Inv s owned iters → (∀ a, v = .thing a → s.Live a) →
    clone fuel s v = .error .fuel ∨ ∃ c s', clone fuel s v = .ok (c, s') ∧ Cloned s owned iters v c s'

/-- In the loop of `thing_clone_children` on the new thing: `s₀` is before the clone, and
`p₀` the payload of the original with the slots `xs`. -/
structure Copying (s₀ : Store) (owned iters : Nat → Nat) (v : Val) (kind : Kind) (p₀ : Nat)
    (xs : List (Bytes × Val)) (s : Store) (i : Nat) (detached : Bool) : Prop where
  inv : Inv s (owned + one s₀.nextThing) iters
  grows : Grows s₀ s
  shared : detached = false → ∃ t pl, s.things s₀.nextThing = some t ∧ t.body = .container kind p₀ ∧
    s.payloads p₀ = some pl ∧ pl.refcount ≠ 1
  owns : detached = true → ∃ p pl, Owns s s₀.nextThing kind p pl ∧ s₀.nextPayload ≤ p
  progress : ∃ ys, s.view s₀.nextThing = some (.container kind ys) ∧
    ∀ m, Base m s₀ v → Progress s m (s₀.nextThing + 1) i xs ys
  sharing : ∀ m, Base m s₀ v → Sharing m s₀ s

def ChildrenOk (fuel : Nat) : Prop :=
  ∀ s₀ owned iters a kind p₀ pl₀ s i len detached, Inv s₀ owned iters →
    s₀.view a = some (.container kind (clonePairs pl₀.slots)) → s₀.payloads p₀ = some pl₀ →
    Copying s₀ owned iters (.thing a) kind p₀ (clonePairs pl₀.slots) s i detached →
    pl₀.slots.length = i + len →
    cloneChildren fuel s s₀.nextThing i len detached = .error .fuel ∨
      ∃ ok s', cloneChildren fuel s s₀.nextThing i len detached = .ok (ok, s') ∧
        Inv s' (owned + one s₀.nextThing) iters ∧ KeepsAll s₀ s' ∧ NoFreeze s₀ s' ∧ Iterating iters s₀ s' ∧
        (ok = true → ∃ d, Copying s₀ owned iters (.thing a) kind p₀ (clonePairs pl₀.slots) s'
          pl₀.slots.length d)

/-! ## The loop -/

section Loop

variable {pl₀ : Payload} {p₀ : Nat} {d : Bool}

/-- The slot the loop is at still has what the original has. -/
theorem Copying.slot {k : Bytes} (h : Copying s₀ owned iters v kind p₀ (clonePairs pl₀.slots) s i d)
    (hm : ∃ m, Base m s₀ v) {c : Val} (hi : pl₀.slots[i]? = some (k, c)) :
    ∃ t p pl k', s.things s₀.nextThing = some t ∧ t.body = .container kind p ∧ s.payloads p = some pl ∧
      pl.slots[i]? = some (k', c) ∧ cstr k' = cstr k := by
  obtain ⟨ys, hv, hprog⟩ := h.progress
  obtain ⟨m, hm⟩ := hm
  obtain ⟨t, p, pl, ht, hb, hp, rfl⟩ := of_view_container hv
  have hrest := (hprog m hm).rest i (Nat.le_refl _)
  rw [getElem?_clonePairs, getElem?_clonePairs, hi] at hrest
  obtain ⟨⟨k', c'⟩, hslot, heq⟩ := Option.map_eq_some_iff.mp hrest
  simp only [Prod.mk.injEq] at heq
  obtain ⟨hk, rfl⟩ := heq
  exact ⟨t, p, pl, k', ht, hb, hp, hslot, hk⟩

theorem Inv.base (h : Inv s owned iters) (hlive : ∀ a, v = .thing a → s.Live a) : Base s.nextThing s v :=
  ⟨Nat.le_refl _, h.below, fun a ha => h.live_lt (hlive a ha)⟩

/-- What is held by the original is below with it. -/
theorem Base.slot (h : Base m s (.thing a)) (hv : s.view a = some (.container kind xs)) {k : Bytes}
    {c : Val} (hi : xs[i]? = some (k, c)) : ∀ b, c = .thing b → b < m := by
  rintro b rfl
  exact h.below a kind xs (h.root a rfl) hv b (mem_children_of_getElem? hi)

/-- A slot that holds no container stays as it is. -/
theorem Copying.skip (h : Copying s₀ owned iters (.thing a) kind p₀ (clonePairs pl₀.slots) s i d)
    (hv₀ : s₀.view a = some (.container kind (clonePairs pl₀.slots))) {k : Bytes} {c : Val}
    (hi : pl₀.slots[i]? = some (k, c)) (hc : ∀ b, c = .thing b → ∃ w, s.view b = some (.leaf w)) :
    Copying s₀ owned iters (.thing a) kind p₀ (clonePairs pl₀.slots) s (i + 1) d := by
  have hslot : (clonePairs pl₀.slots)[i]? = some (cstr k, c) := by
    rw [getElem?_clonePairs, hi]
    rfl
  obtain ⟨ys, hv, hprog⟩ := h.progress
  refine ⟨h.inv, h.grows, h.shared, h.owns, ⟨ys, hv, fun m hm => (hprog m hm).skip hslot ?_⟩, h.sharing⟩
  cases c with
  | thing b =>
    obtain ⟨w, hw⟩ := hc b rfl
    exact .leaf (hm.slot hv₀ hslot b rfl) hw
  | null => exact .scalar nofun
  | bool b => exact .scalar nofun
  | int32 j => exact .scalar nofun

/-- The thing gets a payload for itself. -/
theorem Copying.detach (h : Copying s₀ owned iters v kind p₀ xs s i false) (hi₀ : Inv s₀ owned iters) :
    ∃ ok s', s.detach s₀.nextThing = .ok (ok, s') ∧ Inv s' (owned + one s₀.nextThing) iters ∧
      KeepsAll s₀ s' ∧ NoFreeze s₀ s' ∧ Iterating iters s₀ s' ∧
      (ok = true → Copying s₀ owned iters v kind p₀ xs s' i true) := by
  obtain ⟨ys, hv, hprog⟩ := h.progress
  obtain ⟨ok, s', hdet, hi', hquiet, hapart, howns, _⟩ := h.inv.detach (live_of_view hv)
  refine ⟨ok, s', hdet, hi', h.grows.keeps.trans_same hquiet.keeps hi₀,
    h.grows.noFreeze.trans hquiet.noFreeze hquiet.keeps, h.grows.iterating.trans hquiet.iterating, ?_⟩
  intro hok
  obtain ⟨p, pl, hown, hfresh⟩ := howns hok kind ys hv
  obtain ⟨t, plp, ht, hb, hp, hmany⟩ := h.shared rfl
  have hp' : s.nextPayload ≤ p := by
    apply hfresh.resolve_right
    rintro ⟨⟨u, hu, hbu⟩, hpl, hone⟩
    cases ht.symm.trans hu
    rw [hb] at hbu
    cases hbu
    cases hp.symm.trans hpl
    exact hmany hone
  have hold : ∀ c, s₀.Live c → c ≠ s₀.nextThing := fun c hc => Nat.ne_of_lt (hi₀.live_lt hc)
  constructor
  · exact hi'
  · constructor
    · exact Nat.le_trans h.grows.next (Nat.le_of_eq hquiet.nextThing.symm)
    · exact Nat.le_trans h.grows.nextPayload hapart.nextPayload
    · intro c u hu
      obtain ⟨u₁, hu₁, hb₁, hf₁⟩ := h.grows.things c u hu
      obtain ⟨u₂, hu₂, hf₂⟩ := hquiet.things c u₁ hu₁
      have hb₂ := hapart.body c u₁ u₂ (hold c (live_iff.mpr ⟨u, hu⟩)) hu₁ hu₂
      exact ⟨u₂, hu₂, hb₂.trans hb₁, hf₂.trans hf₁⟩
    · exact fun c hc => h.grows.old c (hquiet.live c hc)
    · exact fun c hc => (hquiet.view c (h.grows.stays hc)).trans (h.grows.view c hc)
    · intro q u hq
      obtain ⟨u₁, hu₁, hs₁⟩ := h.grows.payloads q u hq
      obtain ⟨u₂, hu₂, hs₂⟩ := hquiet.payloads q u₁ hu₁
      exact ⟨u₂, hu₂, hs₂.trans hs₁⟩
    · intro c hge hf
      exact hquiet.keeps.leaf c (h.grows.new c hge (hquiet.frozen_iff.mp hf)) hf.live
  · exact nofun
  · exact fun _ => ⟨p, pl, hown, Nat.le_trans h.grows.nextPayload hp'⟩
  · refine ⟨ys, (hquiet.view _ (live_of_view hv)).trans hv, fun m hm => ?_⟩
    exact (hprog m hm).congr fun c hc _ => hquiet.view c hc
  · intro m hm c u k q hge hu hbu
    by_cases hcb : c = s₀.nextThing
    · subst c
      obtain ⟨w, hw, hbw⟩ := hown.body
      cases hu.symm.trans hw
      rw [hbw] at hbu
      cases hbu
      exact .inl (Nat.le_trans h.grows.nextPayload hp')
    · obtain ⟨u₁, hu₁⟩ := live_iff.mp (hquiet.live c (live_iff.mpr ⟨u, hu⟩))
      have hb₁ := hapart.body c u₁ u hcb hu₁ hu
      exact h.sharing m hm c u₁ k q hge hu₁ (hb₁.symm.trans hbu)

theorem Copying.base (h : Copying s₀ owned iters (.thing a) kind p₀ (clonePairs pl₀.slots) s i d)
    (hv₀ : s₀.view a = some (.container kind (clonePairs pl₀.slots))) {k : Bytes} {c : Val}
    (hslot : pl₀.slots[i]? = some (k, c)) (hm : Base m s₀ (.thing a)) : Base m s c := by
  refine ⟨Nat.le_trans hm.le h.grows.next, hm.below.grows hm.le h.grows, ?_⟩
  apply hm.slot hv₀ (k := cstr k) (i := i)
  rw [getElem?_clonePairs, hslot]
  rfl

/-- The clone of a child leaves the new thing its payload. -/
theorem Copying.owns_after {x : Nat} {k : Bytes}
    (h : Copying s₀ owned iters (.thing a) kind p₀ (clonePairs pl₀.slots) s i true) (hi₀ : Inv s₀ owned iters)
    (hv₀ : s₀.view a = some (.container kind (clonePairs pl₀.slots)))
    (hslot : pl₀.slots[i]? = some (k, .thing x)) {pl : Payload} (hown : Owns s s₀.nextThing kind p pl)
    (hg : Grows s s₁) (hshare : ∀ m, Base m s (.thing x) → Sharing m s s₁)
    (hi₁ : Inv s₁ owned' iters) : ∃ pl', Owns s₁ s₀.nextThing kind p pl' ∧ pl'.slots = pl.slots := by
  obtain ⟨t, ht, hb⟩ := hown.body
  obtain ⟨t₁, ht₁, hb₁, _⟩ := hg.things _ t ht
  have hbase : Base s₀.nextThing s (.thing x) :=
    h.base hv₀ hslot (hi₀.base (by rintro _ ⟨⟩; exact live_of_view hv₀))
  have hp := h.inv.lt_nextPayload hown.payload
  have huser : ∀ c u kind', s₁.things c = some u → u.body = .container kind' p → c = s₀.nextThing := by
    intro c u kind' hu hbu
    rcases hg.old c (live_iff.mpr ⟨u, hu⟩) with hlive | hnew
    · obtain ⟨w, hw⟩ := live_iff.mp hlive
      obtain ⟨w₁, hw₁, hbw, _⟩ := hg.things c w hw
      cases hu.symm.trans hw₁
      exact hown.user_eq h.inv hw (hbw.symm.trans hbu)
    · rcases hshare _ hbase c u kind' p hnew hu hbu with hge | ⟨e, w, k', hlt, hw, hbw⟩
      · exact absurd hp (Nat.not_lt.mpr hge)
      · exact absurd (hown.user_eq h.inv hw hbw) (Nat.ne_of_lt hlt)
  obtain ⟨pl', howns⟩ := hi₁.owns ht₁ (hb₁.trans hb) (hown.iters_eq h.inv) huser
  obtain ⟨u, hu, hslots⟩ := hg.payloads p pl hown.payload
  cases howns.payload.symm.trans hu
  exact ⟨pl', howns, hslots⟩

theorem Grows.swapped (h : Grows s₀ s) (hi₀ : Inv s₀ owned iters) (hswap : Swapped p s s')
    (hp : s₀.nextPayload ≤ p) (hview : ∀ e, e ≠ s₀.nextThing → s.Live e → s'.view e = s.view e) :
    Grows s₀ s' := by
  constructor
  · exact Nat.le_trans h.next (Nat.le_of_eq hswap.nextThing.symm)
  · exact Nat.le_trans h.nextPayload (Nat.le_of_eq hswap.nextPayload.symm)
  · intro e u hu
    obtain ⟨u₁, hu₁, hb₁, hf₁⟩ := h.things e u hu
    obtain ⟨u₂, hu₂, hb₂, hf₂⟩ := hswap.things e u₁ hu₁
    exact ⟨u₂, hu₂, hb₂.trans hb₁, hf₂.trans hf₁⟩
  · exact fun e he => h.old e (hswap.live e he)
  · intro e he
    rw [hview e (Nat.ne_of_lt (hi₀.live_lt he)) (h.stays he), h.view e he]
  · intro q u hq
    have hlt := hi₀.lt_nextPayload hq
    obtain ⟨u₁, hu₁, hs₁⟩ := h.payloads q u hq
    exact ⟨u₁, (hswap.payloads q (by omega)).trans hu₁, hs₁⟩
  · rintro e hge ⟨u', hu', huf⟩
    obtain ⟨u, hu, hb, hf⟩ := hswap.body hu'
    obtain ⟨w, l, hw, hl⟩ := h.new e hge ⟨u, hu, hf.symm.trans huf⟩
    cases hu.symm.trans hw
    exact ⟨u', l, hu', hb.trans hl⟩

/-- A child's clone and the slot it went into leave the sharing as it has to be. -/
theorem Sharing.swapped (h : Sharing m s₀ s) (h₀ : Grows s₀ s) (hg : Grows s s₁) (hswap : Swapped p s₁ s')
    (hnew : Sharing m s s₁) (hm : m ≤ s₀.nextThing) : Sharing m s₀ s' := by
  intro e u' k q hge hu' hbu
  obtain ⟨u, hu, hb, _⟩ := hswap.body hu'
  have hbody := hb.symm.trans hbu
  rcases hg.old e (live_iff.mpr ⟨u, hu⟩) with hlive | hfresh
  · obtain ⟨w, hw⟩ := live_iff.mp hlive
    obtain ⟨w₁, hw₁, hbw, _⟩ := hg.things e w hw
    cases hu.symm.trans hw₁
    exact h e w k q hge hw (hbw.symm.trans hbody)
  · rcases hnew e u k q hfresh hu hbody with hq | ⟨f, w, k', hlt, hw, hbw⟩
    · exact .inl (Nat.le_trans h₀.nextPayload hq)
    · -- an original was there from the start, with the same payload
      have hlive : s₀.Live f := by
        apply (h₀.old f (live_iff.mpr ⟨w, hw⟩)).resolve_right
        omega
      obtain ⟨z, hz⟩ := live_iff.mp hlive
      obtain ⟨z', hz', hbz, _⟩ := h₀.things f z hz
      cases hw.symm.trans hz'
      exact .inr ⟨f, z, k', hlt, hz, hbz.symm.trans hbw⟩

/-- The slot of a child gets its clone. -/
theorem Copying.replace {x : Nat} {k : Bytes} {c : Val}
    (h : Copying s₀ owned iters (.thing a) kind p₀ (clonePairs pl₀.slots) s i true) (hi₀ : Inv s₀ owned iters)
    (hv₀ : s₀.view a = some (.container kind (clonePairs pl₀.slots))) (hp₀ : s₀.payloads p₀ = some pl₀)
    (hslot : pl₀.slots[i]? = some (k, .thing x))
    (hcl : Cloned s (owned + one s₀.nextThing) iters (.thing x) c s₁) (hc : c ≠ .null) :
    ∃ s₂ p slots w s₃, s₁.decref (.thing x) = .ok s₂ ∧
      s₂.getChild s₀.nextThing i = .ok (some (p, slots, w)) ∧
      s₂.write p (slots.modify i fun slot => (slot.1, c)) = .ok s₃ ∧
      Copying s₀ owned iters (.thing a) kind p₀ (clonePairs pl₀.slots) s₃ (i + 1) true := by
  have hlive₀ : ∀ b, Val.thing a = .thing b → s₀.Live b := by
    rintro _ ⟨⟩
    exact live_of_view hv₀
  obtain ⟨hg, hcopy⟩ := hcl.done fun hnull => absurd hnull hc
  obtain ⟨p, pl, hown, hfresh⟩ := h.owns rfl
  obtain ⟨pl₁, hown₁, hslots⟩ := h.owns_after hi₀ hv₀ hslot hown hg (fun m hm => (hcopy m hm).2) hcl.inv
  obtain ⟨t, p', pl', k', ht, hb, hp', hat, hkey⟩ := h.slot ⟨_, hi₀.base hlive₀⟩ hslot
  obtain ⟨u, hu, hbu⟩ := hown.body
  cases ht.symm.trans hu
  rw [hb] at hbu
  cases hbu
  cases hp'.symm.trans hown.payload
  have hat₁ : pl₁.slots[i]? = some (k', .thing x) := hslots ▸ hat
  have hg₀ : Grows s₀ s₁ := h.grows.trans hg
  -- the child is still held by the original
  obtain ⟨pl₂, hp₂, hslots₂⟩ := hg₀.payloads p₀ pl₀ hp₀
  have hne : p ≠ p₀ := by
    have := hi₀.lt_nextPayload hp₀
    omega
  have hmany := hcl.inv.two_refs hown₁.payload hp₂ hne (mem_children_of_getElem? hat₁)
    (hslots₂ ▸ mem_children_of_getElem? hslot)
  have hbase := h.base hv₀ hslot (hi₀.base hlive₀)
  obtain ⟨s₂, s₃, hdec, hget, hwrite, hrep, hswap, pl₃, hown₃⟩ := hown₁.swap hcl.inv (by simp) hat₁ hmany
    (Nat.ne_of_lt (hbase.root x rfl)).symm
  refine ⟨s₂, p, pl₁.slots, .thing x, s₃, hdec, hget, hwrite, ?_⟩
  have hview : ∀ e, e ≠ s₀.nextThing → s₁.Live e → s₃.view e = s₁.view e := fun e hne he =>
    hrep.keeps.view e he (hswap.stays he) hne
  constructor
  · exact hrep.inv
  · exact hg₀.swapped hi₀ hswap hfresh hview
  · exact nofun
  · exact fun _ => ⟨p, pl₃, hown₃, hfresh⟩
  · obtain ⟨ys, hys, hprog⟩ := h.progress
    rw [hown.view] at hys
    cases hys
    refine ⟨_, hrep.view, fun m hm => ?_⟩
    have hsame : ∀ e, s.Live e → e < m ∨ s₀.nextThing + 1 ≤ e → s₃.view e = s.view e := by
      intro e he hrange
      have hle := hm.le
      rw [hview e (by omega) (hg.stays he), hg.view e he]
    have hb : s₀.nextThing + 1 ≤ s.nextThing := h.inv.live_lt (live_of_view hown.view)
    have hchild : Copy s₃ m (s₀.nextThing + 1) (.thing x) c := by
      apply ((hcopy m (h.base hv₀ hslot hm)).1.weaken hb).congr
      intro e he hrange
      have hle := hm.le
      exact hview e (by omega) he
    have hset := ((hprog m hm).congr hsame).set (k := cstr k) (c := c) (by
      rw [getElem?_clonePairs, hslot]
      rfl) hchild
    rw [← hkey] at hset
    have hys : clonePairs (pl₁.slots.set i (k', c)) = (clonePairs pl.slots).set i (cstr k', c) := by
      rw [hslots]
      exact List.map_set
    rw [hys]
    exact hset
  · intro m hm
    exact (h.sharing m hm).swapped h.grows hg hswap (hcopy m (h.base hv₀ hslot hm)).2 hm.le

end Loop

theorem ChildrenOk.succ {fuel : Nat} (hclone : CloneOk fuel) (hloop : ChildrenOk fuel) :
    ChildrenOk (fuel + 1) := by
  intro s₀ owned iters a kind p₀ pl₀ s i len detached hi₀ hv₀ hp₀ h hlen
  have hlive₀ : ∀ b, Val.thing a = .thing b → s₀.Live b := by
    rintro _ ⟨⟩
    exact live_of_view hv₀
  cases len with
  | zero =>
    right
    refine ⟨true, s, rfl, h.inv, h.grows.keeps, h.grows.noFreeze, h.grows.iterating, fun _ => ⟨detached, ?_⟩⟩
    rw [hlen]
    exact h
  | succ len =>
    obtain ⟨⟨k, child⟩, hslot⟩ : ∃ slot, pl₀.slots[i]? = some slot :=
      ⟨_, List.getElem?_eq_getElem (by omega)⟩
    obtain ⟨t, p, pl, k', ht, hb, hp, hat, _⟩ := h.slot ⟨_, hi₀.base hlive₀⟩ hslot
    have hget : s.getChild s₀.nextThing i = .ok (some (p, pl.slots, child)) := by
      rw [getChild_eq ht hb hp, hat]
      rfl
    have hclive : ∀ b, child = .thing b → s.Live b := by
      rintro b rfl
      exact live_iff.mpr (h.inv.live_of_slot hp (mem_children_of_getElem? hat))
    rcases h.inv.isContainer hclive with ⟨hcont, x, kx, xs, rfl, _⟩ | ⟨hcont, hleaf⟩
    · -- from here on the thing has its payload for itself
      have hgo : ∀ s₁, Copying s₀ owned iters (.thing a) kind p₀ (clonePairs pl₀.slots) s₁ i true →
          s.detachOnce s₀.nextThing detached = .ok (true, s₁) →
          cloneChildren (fuel + 1) s s₀.nextThing i (len + 1) detached = .error .fuel ∨
            ∃ ok s', cloneChildren (fuel + 1) s s₀.nextThing i (len + 1) detached = .ok (ok, s') ∧
              Inv s' (owned + one s₀.nextThing) iters ∧ KeepsAll s₀ s' ∧ NoFreeze s₀ s' ∧
              Iterating iters s₀ s' ∧ (ok = true → ∃ d, Copying s₀ owned iters (.thing a) kind p₀ (clonePairs pl₀.slots) s'
                pl₀.slots.length d) := by
        intro s₁ h₁ hdet
        have hclive₁ : ∀ b, Val.thing x = .thing b → s₁.Live b := by
          rintro _ ⟨⟩
          have hx : s₀.Live x := by
            have hmem : x ∈ children (clonePairs pl₀.slots) := by
              rw [children_clonePairs]
              exact mem_children_of_getElem? hslot
            exact hi₀.live_of_view hv₀ hmem
          exact h₁.grows.stays hx
        rcases hclone s₁ _ iters (.thing x) h₁.inv hclive₁ with herr | ⟨c, s₂, hrun, hcl⟩
        · left
          simp only [cloneChildren, hget, hcont, hdet, herr, bind, Except.bind, Bool.not_true,
            Bool.false_eq_true, if_false]
        · by_cases hc : c = .null
          · subst hc
            right
            refine ⟨false, s₂, ?_, ?_, h₁.grows.keeps.trans_same hcl.keeps hi₀,
              h₁.grows.noFreeze.trans hcl.noFreeze hcl.keeps, h₁.grows.iterating.trans hcl.iterating, nofun⟩
            · simp only [cloneChildren, hget, hcont, hdet, hrun, bind, Except.bind, Bool.not_true,
                Bool.false_eq_true, if_false, if_true]
              rfl
            · exact hcl.inv
          · obtain ⟨s₃, q, slots, w, s₄, hdec, hget', hwrite, hnext⟩ := h₁.replace hi₀ hv₀ hp₀ hslot hcl hc
            have heq : cloneChildren (fuel + 1) s s₀.nextThing i (len + 1) detached =
                cloneChildren fuel s₄ s₀.nextThing (i + 1) len true := by
              simp only [cloneChildren, hget, hcont, hdet, hrun, hc, hdec, hget', hwrite, bind, Except.bind,
                Bool.not_true, Bool.false_eq_true, if_false]
            rw [heq]
            exact hloop s₀ owned iters a kind p₀ pl₀ s₄ (i + 1) len true hi₀ hv₀ hp₀ hnext (by omega)
      cases detached with
      | true => exact hgo s h rfl
      | false =>
        obtain ⟨ok, s₁, hdet, hi₁, hk₁, hn₁, hit₁, hcopy⟩ := h.detach hi₀
        have honce : s.detachOnce s₀.nextThing false = .ok (ok, s₁) := hdet
        cases ok with
        | true => exact hgo s₁ (hcopy rfl) honce
        | false =>
          right
          refine ⟨false, s₁, ?_, hi₁, hk₁, hn₁, hit₁, nofun⟩
          simp only [cloneChildren, hget, hcont, honce, bind, Except.bind, Bool.not_true, Bool.not_false,
            Bool.false_eq_true, if_false, if_true]
          rfl
    · have heq : cloneChildren (fuel + 1) s s₀.nextThing i (len + 1) detached =
          cloneChildren fuel s s₀.nextThing (i + 1) len detached := by
        simp only [cloneChildren, hget, hcont, bind, Except.bind, Bool.not_false, if_true]
      rw [heq]
      exact hloop s₀ owned iters a kind p₀ pl₀ s (i + 1) len detached hi₀ hv₀ hp₀ (h.skip hv₀ hslot hleaf)
        (by omega)

/-- The new thing shares the payload at first. -/
theorem Copying.start {t : Thing} {pl : Payload} (h : Inv s owned iters) (ht : s.things a = some t)
    (hb : t.body = .container kind p) (hp : s.payloads p = some pl) (n : Nat) :
    Copying s owned iters (.thing a) kind p (clonePairs pl.slots)
      (Store.newThing { s.putPayload p (some { pl with refcount := pl.refcount + 1 }) with mallocs := n }
        ⟨.container kind p, false, 1⟩) 0 false := by
  have hpos := h.payloadPos p pl hp
  have hkeep : Inv { s.putPayload p (some { pl with refcount := pl.refcount + 1 }) with mallocs := n } owned
      (iters + one p) := (h.keepPayload hp).withMallocs n
  have hquiet : Quiet s { s.putPayload p (some { pl with refcount := pl.refcount + 1 }) with mallocs := n } :=
    (Quiet.putPayload hp _).trans (.withMallocs _ n)
  have hgrow : Grows s { s.putPayload p (some { pl with refcount := pl.refcount + 1 }) with mallocs := n } := by
    apply Grows.noNew hquiet (Nat.le_refl _) _ h
    intro b u u' hu hu'
    cases hu.symm.trans hu'
    rfl
  have hself : (Store.newThing
      { s.putPayload p (some { pl with refcount := pl.refcount + 1 }) with mallocs := n }
        ⟨.container kind p, false, 1⟩).things s.nextThing = some ⟨.container kind p, false, 1⟩ := putThing_self ..
  have hpay : (Store.newThing
      { s.putPayload p (some { pl with refcount := pl.refcount + 1 }) with mallocs := n }
        ⟨.container kind p, false, 1⟩).payloads p = some { pl with refcount := pl.refcount + 1 } :=
    putPayload_self ..
  constructor
  · apply hkeep.newThing _ rfl
    intro q
    rw [congrFun (uses_container (t := ⟨.container kind p, false, 1⟩) rfl) q]
    rfl
  · exact hgrow.trans (.newThing hkeep nofun)
  · intro _
    refine ⟨_, _, hself, rfl, hpay, ?_⟩
    dsimp only
    omega
  · exact nofun
  · have hview := view_container hself rfl hpay
    refine ⟨clonePairs pl.slots, hview, fun m _ => ⟨rfl, ?_, fun _ _ => rfl⟩⟩
    exact fun j _ _ hj => absurd hj (Nat.not_lt_zero j)
  · intro m hm b u k q hge hu hbu
    have hbn : b = s.nextThing := by
      by_contra hne
      have hold : s.things b = some u := (putThing_of_ne _ _ hne).symm.trans hu
      exact absurd (h.lt_nextThing hold) (Nat.not_lt.mpr hge)
    subst hbn
    cases hself.symm.trans hu
    cases hbu
    exact .inr ⟨a, t, kind, hm.root a rfl, ht, hb⟩

/-- Without new things nothing is shared anew. -/
theorem Sharing.noNew (h : Inv s owned iters) (hlive : ∀ a, s'.Live a → s.Live a) : Sharing m s s' := by
  intro a t k q hge ht _
  exact absurd (h.live_lt (hlive a (live_iff.mpr ⟨t, ht⟩))) (Nat.not_lt.mpr hge)

theorem Cloned.scalar (h : Inv s owned iters) (hv : ∀ a, v ≠ .thing a) : Cloned s owned iters v v s := by
  have hzero : refOf v = 0 := by
    cases v with
    | thing a => exact absurd rfl (hv a)
    | null => rfl
    | bool b => rfl
    | int32 i => rfl
  refine ⟨?_, .refl s, .refl s, .refl s, fun _ => ⟨.refl h, fun m _ => ⟨.scalar hv, .noNew h fun _ ha => ha⟩⟩⟩
  rw [hzero, add_zero]
  exact h

theorem Cloned.leaf {w : Value} (h : Inv s owned iters) (hv : s.view a = some (.leaf w)) :
    ∃ s', s.incref (.thing a) = .ok s' ∧ Cloned s owned iters (.thing a) (.thing a) s' := by
  obtain ⟨s', hinc, h', hsame⟩ := h.incref (v := .thing a) (by rintro _ ⟨⟩; exact live_of_view hv)
  have hquiet := hsame.quiet h'
  have hgrow : Grows s s' := by
    apply Grows.noNew hquiet (Nat.le_of_eq hsame.there.nextPayload.symm) _ h
    intro b t t' ht ht'
    obtain ⟨u, hu, hb, _⟩ := hsame.there.things b t' ht'
    cases ht.symm.trans hu
    exact hb
  refine ⟨s', hinc, h', hquiet.keeps, hquiet.noFreeze, hquiet.iterating, fun _ => ⟨hgrow, fun m hm => ⟨?_, ?_⟩⟩⟩
  · exact .leaf (hm.root a rfl) ((hquiet.view a (live_of_view hv)).trans hv)
  · exact .noNew h hquiet.live

/-- A clone that fails gives null, and what was made for it is released. -/
theorem Cloned.failed (h : Inv s owned iters) (hk : KeepsAll s s₁) (hn : NoFreeze s s₁)
    (hit : Iterating iters s s₁) (hshr : Shrinks s₁ s') (hi' : Inv s' owned iters) :
    Cloned s owned iters (.thing a) .null s' :=
  ⟨hi', hk.trans_same (hshr.keeps hi') h, hn.trans hshr.noFreeze (hshr.keeps hi'),
    hit.trans (hshr.iterating hi'), fun hnull => nomatch hnull rfl⟩

theorem CloneOk.succ {fuel : Nat} (hloop : ChildrenOk fuel) : CloneOk (fuel + 1) := by
  intro s owned iters v h hlive
  cases v with
  | null => exact .inr ⟨_, s, rfl, .scalar h nofun⟩
  | bool b => exact .inr ⟨_, s, rfl, .scalar h nofun⟩
  | int32 i => exact .inr ⟨_, s, rfl, .scalar h nofun⟩
  | thing a =>
    obtain ⟨t, ht⟩ := live_iff.mp (hlive a rfl)
    cases hb : t.body with
    | leaf w =>
      obtain ⟨s', hinc, hcl⟩ := Cloned.leaf h (view_leaf ht hb)
      right
      refine ⟨.thing a, s', ?_, hcl⟩
      simp only [clone, readThing, ht, hb, hinc, bind, Except.bind]
      rfl
    | container kind p =>
      obtain ⟨pl, hp⟩ := h.live_payload ht hb
      have hv := view_container ht hb hp
      cases hok : s.fails s.mallocs with
      | true =>
        have hkeep := (h.keepPayload hp).withMallocs (s.mallocs + 1)
        have hquiet := (Quiet.putPayload hp (pl.refcount + 1)).trans (.withMallocs _ (s.mallocs + 1))
        obtain ⟨s', hfree, hi', hshr⟩ := hkeep.payloadFree
        right
        refine ⟨.null, s', ?_, .failed h hquiet.keeps hquiet.noFreeze hquiet.iterating hshr hi'⟩
        have hnew : (s.putPayload p (some { pl with refcount := pl.refcount + 1 })).newThingValue
            (.container kind p) false = (.null, { s.putPayload p (some { pl with refcount := pl.refcount + 1 })
              with mallocs := s.mallocs + 1 }) := by
          unfold newThingValue malloc
          rw [show (s.putPayload p (some { pl with refcount := pl.refcount + 1 })).fails
            (s.putPayload p (some { pl with refcount := pl.refcount + 1 })).mallocs = true from hok]
          rfl
        simp only [clone, readThing, readPayload, ht, hb, hp, hnew, hfree, bind, Except.bind]
        rfl
      | false =>
        have hstart := Copying.start h ht hb hp (s.mallocs + 1)
        have hnew : (s.putPayload p (some { pl with refcount := pl.refcount + 1 })).newThingValue
            (.container kind p) false = (.thing s.nextThing, Store.newThing
              { s.putPayload p (some { pl with refcount := pl.refcount + 1 }) with mallocs := s.mallocs + 1 }
                ⟨.container kind p, false, 1⟩) := by
          unfold newThingValue malloc
          rw [show (s.putPayload p (some { pl with refcount := pl.refcount + 1 })).fails
            (s.putPayload p (some { pl with refcount := pl.refcount + 1 })).mallocs = false from hok]
          rfl
        rcases hloop s owned iters a kind p pl _ 0 pl.slots.length false h hv hp hstart (Nat.zero_add _).symm
          with herr | ⟨ok, s₁, hrun, hi₁, hk₁, hn₁, hit₁, hdone⟩
        · left
          simp only [clone, readThing, readPayload, ht, hb, hp, hnew, herr, bind, Except.bind]
        · right
          cases ok with
          | true =>
            obtain ⟨d, hcopy⟩ := hdone rfl
            obtain ⟨ys, hys, hprog⟩ := hcopy.progress
            refine ⟨.thing s.nextThing, s₁, ?_, hi₁, hk₁, hn₁, hit₁, fun _ => ⟨hcopy.grows, fun m hm => ⟨?_, ?_⟩⟩⟩
            · simp only [clone, readThing, readPayload, ht, hb, hp, hnew, hrun, bind, Except.bind, if_true]
              rfl
            · have hva := (hcopy.grows.view a (hlive a rfl)).trans hv
              refine .container (hm.root a rfl) (Nat.le_refl _) hva hys (hprog m hm).keys ?_
              intro j x y hx hy
              have hlt : j < pl.slots.length := by
                have := (List.getElem?_eq_some_iff.mp hx).1
                rwa [clonePairs, List.length_map] at this
              exact ((hprog m hm).copied j x y hlt hx hy).weaken (Nat.le_succ _)
            · exact hcopy.sharing m hm
          | false =>
            obtain ⟨s', hdec, hi', hshr⟩ := Inv.decref (v := .thing s.nextThing) hi₁
            refine ⟨.null, s', ?_, .failed h hk₁ hn₁ hit₁ hshr hi'⟩
            simp only [clone, readThing, readPayload, ht, hb, hp, hnew, hrun, hdec, bind, Except.bind,
              Bool.false_eq_true, if_false]
            rfl

/-- `sentry__value_clone` never touches a freed cell; it returns when the value is not
deeper than the fuel. -/
theorem cloneOk (fuel : Nat) : CloneOk fuel ∧ ChildrenOk fuel := by
  induction fuel with
  | zero =>
    exact ⟨fun _ _ _ _ _ _ => .inl (by unfold clone; rfl),
      fun _ _ _ _ _ _ _ _ _ _ _ _ _ _ _ _ => .inl (by unfold cloneChildren; rfl)⟩
  | succ fuel ih => exact ⟨.succ ih.2, .succ ih.1 ih.2⟩

end Store

end SentryNative.Memory
