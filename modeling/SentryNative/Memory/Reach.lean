import SentryNative.Memory.Release

/-!
# What is reached, and what it looks like

The view of a thing is what its readers see: a leaf, or the slots with their keys as C
strings. Counts, payload addresses and capacities are not in it.
-/

namespace SentryNative.Memory

open CLib ObjectMap

inductive View where
  | leaf (v : Value)
  | container (kind : Kind) (slots : List (Bytes × Val))

@[simp] theorem children_clonePairs (slots : List (Bytes × Val)) :
    children (clonePairs slots) = children slots := by
  simp [children, clonePairs, List.filterMap_map, Function.comp_def]

namespace Store

variable {s s' s₁ : Store} {owned iters : Nat → Nat} {a b p q : Nat} {value : Val} {kind : Kind}

/-! ## Views -/

def view (s : Store) (a : Nat) : Option View :=
  match s.things a with
  | none => none
  | some t =>
    match t.body with
    | .leaf v => some (.leaf v)
    | .container kind p => (s.payloads p).map fun pl => .container kind (clonePairs pl.slots)

def Live (s : Store) (a : Nat) : Prop := s.things a ≠ none

def Frozen (s : Store) (a : Nat) : Prop := ∃ t, s.things a = some t ∧ t.frozen = true

def IsLeaf (s : Store) (a : Nat) : Prop := ∃ t v, s.things a = some t ∧ t.body = .leaf v

theorem live_iff : s.Live a ↔ ∃ t, s.things a = some t := Option.ne_none_iff_exists'

theorem Frozen.live (h : s.Frozen a) : s.Live a := by
  obtain ⟨t, ht, _⟩ := h
  exact live_iff.mpr ⟨t, ht⟩

theorem IsLeaf.live (h : s.IsLeaf a) : s.Live a := by
  obtain ⟨t, v, ht, _⟩ := h
  exact live_iff.mpr ⟨t, ht⟩

theorem live_of_view {w : View} (h : s.view a = some w) : s.Live a := by
  intro hnone
  simp [view, hnone] at h

theorem view_container {t : Thing} {kind : Kind} {pl : Payload} (ht : s.things a = some t)
    (hb : t.body = .container kind p) (hp : s.payloads p = some pl) :
    s.view a = some (.container kind (clonePairs pl.slots)) := by
  simp [view, ht, hb, hp]

theorem view_leaf {t : Thing} {v : Value} (ht : s.things a = some t) (hb : t.body = .leaf v) :
    s.view a = some (.leaf v) := by
  simp [view, ht, hb]

/-- A view of slots is one of a payload. -/
theorem of_view_container {kind : Kind} {slots : List (Bytes × Val)}
    (h : s.view a = some (.container kind slots)) :
    ∃ t p pl, s.things a = some t ∧ t.body = .container kind p ∧ s.payloads p = some pl ∧
      slots = clonePairs pl.slots := by
  cases ht : s.things a with
  | none => simp [view, ht] at h
  | some t =>
    cases hb : t.body with
    | leaf v => simp [view, ht, hb] at h
    | container k p =>
      cases hp : s.payloads p with
      | none => simp [view, ht, hb, hp] at h
      | some pl =>
        simp only [view, ht, hb, hp, Option.map_some, Option.some.injEq, View.container.injEq] at h
        obtain ⟨rfl, rfl⟩ := h
        exact ⟨t, p, pl, rfl, hb, hp, rfl⟩

theorem IsLeaf.view (h : s.IsLeaf a) : ∃ v, s.view a = some (.leaf v) := by
  obtain ⟨t, v, ht, hb⟩ := h
  exact ⟨v, view_leaf ht hb⟩

theorem Inv.live_lt (h : Inv s owned iters) (ha : s.Live a) : a < s.nextThing := by
  obtain ⟨t, ht⟩ := live_iff.mp ha
  exact h.lt_nextThing ht

theorem Inv.view_of_live (h : Inv s owned iters) (ha : s.Live a) : ∃ w, s.view a = some w := by
  obtain ⟨t, ht⟩ := live_iff.mp ha
  cases hb : t.body with
  | leaf v => exact ⟨_, view_leaf ht hb⟩
  | container kind p =>
    obtain ⟨pl, hp⟩ := h.live_payload ht hb
    exact ⟨_, view_container ht hb hp⟩

/-- What a view shows is live. -/
theorem Inv.live_of_view (h : Inv s owned iters) {kind : Kind} {slots : List (Bytes × Val)}
    (hv : s.view a = some (.container kind slots)) (hb : b ∈ children slots) : s.Live b := by
  obtain ⟨t, p, pl, ht, hbody, hp, rfl⟩ := of_view_container hv
  rw [children_clonePairs] at hb
  exact live_iff.mpr (h.live_of_slot hp hb)

/-- The slots that a value shows as a container of the kind. -/
def shown (s : Store) (value : Val) (kind : Kind) : Option (List (Bytes × Val)) :=
  match value with
  | .thing a =>
    match s.view a with
    | some (.container k slots) => if k = kind then some slots else none
    | _ => none
  | _ => none

/-- What `sentry_value_get_by_key_n` finds. -/
def lookup (s : Store) (value : Val) (k : Option Bytes) : Val :=
  match k, s.shown value .object with
  | some k, some slots => getPairs .null k slots
  | _, _ => .null

theorem shown_eq_some {slots : List (Bytes × Val)} :
    s.shown value kind = some slots ↔ ∃ a, value = .thing a ∧ s.view a = some (.container kind slots) := by
  cases value with
  | thing a =>
    simp only [shown, Val.thing.injEq, exists_eq_left']
    split
    · rename_i k slots' hv
      rw [hv]
      by_cases hk : k = kind
      · simp [hk]
      · simp [hk]
    · rename_i hv
      simp only [reduceCtorEq, false_iff]
      exact fun h => hv _ _ h
  | null => simp [shown]
  | bool b => simp [shown]
  | int32 i => simp [shown]

theorem shown_congr (h : ∀ a, value = .thing a → s'.view a = s.view a) :
    s'.shown value kind = s.shown value kind := by
  cases value with
  | thing a => simp only [shown, h a rfl]
  | null => rfl
  | bool b => rfl
  | int32 i => rfl

/-! ## What changes -/

/-- Of what is live before and after, only the things in `W` look different, and what
is frozen stays so. -/
structure Keeps (W : Nat → Prop) (s s' : Store) : Prop where
  next : s.nextThing ≤ s'.nextThing
  old : ∀ a, s'.Live a → s.Live a ∨ s.nextThing ≤ a
  view : ∀ a, s.Live a → s'.Live a → ¬ W a → s'.view a = s.view a
  frozen : ∀ a, s.Frozen a → s'.Live a → s'.Frozen a
  leaf : ∀ a, s.IsLeaf a → s'.Live a → s'.IsLeaf a

/-- Nothing looks different. -/
def KeepsAll : Store → Store → Prop := Keeps fun _ => False

/-- No container was frozen. -/
def NoFreeze (s s' : Store) : Prop := ∀ a, s'.Frozen a → s.Frozen a ∨ s'.IsLeaf a

variable {W W' : Nat → Prop}

theorem Keeps.refl (s : Store) : Keeps W s s :=
  ⟨Nat.le_refl _, fun _ h => .inl h, fun _ _ _ _ => rfl, fun _ h _ => h, fun _ h _ => h⟩

theorem Keeps.mono (h : Keeps W s s') (hW : ∀ a, s.Live a → W a → W' a) : Keeps W' s s' :=
  ⟨h.next, h.old, fun a ha ha' hn => h.view a ha ha' fun hw => hn (hW a ha hw), h.frozen, h.leaf⟩

theorem Keeps.live_between (h : Keeps W s s₁) (h' : Keeps W' s₁ s') (hi : Inv s owned iters)
    (ha : s.Live a) (ha' : s'.Live a) : s₁.Live a := by
  apply (h'.old a ha').resolve_right
  have hlt := hi.live_lt ha
  have hle := h.next
  omega

theorem Keeps.trans (h : Keeps W s s₁) (h' : Keeps W' s₁ s') (hi : Inv s owned iters) :
    Keeps (fun a => W a ∨ W' a) s s' := by
  have hlive := fun a => h.live_between h' hi (a := a)
  constructor
  · exact Nat.le_trans h.next h'.next
  · intro a ha
    rcases h'.old a ha with h₁ | hge
    · exact h.old a h₁
    · exact .inr (Nat.le_trans h.next hge)
  · intro a ha ha' hn
    have h₁ := hlive a ha ha'
    rw [h'.view a h₁ ha' (fun hw => hn (.inr hw)), h.view a ha h₁ fun hw => hn (.inl hw)]
  · intro a hf ha'
    exact h'.frozen a (h.frozen a hf (hlive a hf.live ha')) ha'
  · intro a hl ha'
    exact h'.leaf a (h.leaf a hl (hlive a hl.live ha')) ha'

theorem Keeps.trans_same (h : Keeps W s s₁) (h' : Keeps W s₁ s') (hi : Inv s owned iters) :
    Keeps W s s' := by
  apply (h.trans h' hi).mono
  intro a _ hw
  exact hw.elim id id

theorem NoFreeze.refl (s : Store) : NoFreeze s s := fun _ h => .inl h

theorem NoFreeze.trans (h : NoFreeze s s₁) (h' : NoFreeze s₁ s') (hk : Keeps W s₁ s') :
    NoFreeze s s' := by
  intro a ha
  rcases h' a ha with h₁ | hl
  · rcases h a h₁ with h₀ | hl
    · exact .inl h₀
    · exact .inr (hk.leaf a hl ha.live)
  · exact .inr hl

/-- A payload holds the thing. -/
def Held (s : Store) (a : Nat) : Prop := ∃ p pl, s.payloads p = some pl ∧ a ∈ children pl.slots

theorem Shrinks.held (h : Shrinks s s') (ha : s'.Held a) : s.Held a := by
  obtain ⟨p, pl', hp', hmem⟩ := ha
  obtain ⟨pl, hp, hslots⟩ := h.payloads p pl' hp'
  exact ⟨p, pl, hp, hslots ▸ hmem⟩

/-- Every cell that was there is there. -/
structure Stays (s s' : Store) : Prop where
  things : ∀ a, s.Live a → s'.Live a
  payloads : ∀ p, s.payloads p ≠ none → s'.payloads p ≠ none

theorem Stays.refl (s : Store) : Stays s s := ⟨fun _ h => h, fun _ h => h⟩

theorem Stays.trans (h : Stays s s₁) (h' : Stays s₁ s') : Stays s s' :=
  ⟨fun a ha => h'.things a (h.things a ha), fun p hp => h'.payloads p (h.payloads p hp)⟩

/-- The payloads that are iterated over keep their slots. -/
def Iterating (iters : Nat → Nat) (s s' : Store) : Prop :=
  ∀ p pl, 0 < iters p → s.payloads p = some pl → ∃ pl', s'.payloads p = some pl' ∧ pl'.slots = pl.slots

theorem Iterating.refl (s : Store) : Iterating iters s s := fun _ pl _ hp => ⟨pl, hp, rfl⟩

theorem Iterating.trans (h : Iterating iters s s₁) (h' : Iterating iters s₁ s') : Iterating iters s s' := by
  intro p pl hpos hp
  obtain ⟨pl₁, hp₁, hs₁⟩ := h p pl hpos hp
  obtain ⟨pl', hp', hs'⟩ := h' p pl₁ hpos hp₁
  exact ⟨pl', hp', hs'.trans hs₁⟩

/-! ## Freed cells -/

theorem Shrinks.live (h : Shrinks s s') (ha : s'.Live a) : s.Live a := by
  obtain ⟨t', ht'⟩ := live_iff.mp ha
  obtain ⟨t, ht, _⟩ := h.things a t' ht'
  exact live_iff.mpr ⟨t, ht⟩

theorem Shrinks.view (h : Shrinks s s') (hi : Inv s' owned iters) (ha : s'.Live a) :
    s'.view a = s.view a := by
  obtain ⟨t', ht'⟩ := live_iff.mp ha
  obtain ⟨t, ht, hb, _⟩ := h.things a t' ht'
  cases hbody : t'.body with
  | leaf v => rw [view_leaf ht' hbody, view_leaf ht (hb.symm.trans hbody)]
  | container kind p =>
    obtain ⟨pl', hp'⟩ := hi.live_payload ht' hbody
    obtain ⟨pl, hp, hslots⟩ := h.payloads p pl' hp'
    rw [view_container ht' hbody hp', view_container ht (hb.symm.trans hbody) hp, hslots]

theorem Shrinks.keeps (h : Shrinks s s') (hi : Inv s' owned iters) : KeepsAll s s' := by
  constructor
  · exact Nat.le_of_eq h.nextThing.symm
  · exact fun a ha => .inl (h.live ha)
  · exact fun a _ ha' _ => h.view hi ha'
  · intro a hf ha'
    obtain ⟨t', ht'⟩ := live_iff.mp ha'
    obtain ⟨t, ht, _, hfr⟩ := h.things a t' ht'
    obtain ⟨u, hu, huf⟩ := hf
    cases ht.symm.trans hu
    exact ⟨t', ht', hfr.trans huf⟩
  · intro a hl ha'
    obtain ⟨t', ht'⟩ := live_iff.mp ha'
    obtain ⟨t, ht, hb, _⟩ := h.things a t' ht'
    obtain ⟨u, v, hu, hv⟩ := hl
    cases ht.symm.trans hu
    exact ⟨t', v, ht', hb.trans hv⟩

theorem Shrinks.noFreeze (h : Shrinks s s') : NoFreeze s s' := by
  rintro a ⟨t', ht', hf⟩
  obtain ⟨t, ht, _, hfr⟩ := h.things a t' ht'
  exact .inl ⟨t, ht, hfr.symm.trans hf⟩

theorem Shrinks.iterating (h : Shrinks s s') (hi : Inv s' owned iters) : Iterating iters s s' := by
  intro p pl hpos hp
  obtain ⟨pl', hp'⟩ := hi.live_of_iter hpos
  obtain ⟨u, hu, hslots⟩ := h.payloads p pl' hp'
  cases hp.symm.trans hu
  exact ⟨pl', hp', hslots⟩

/-! ## Reach -/

/-- What a caller may use: what it owns, what an iteration hands to it, and what these
hold. -/
inductive Reach (s : Store) (owned iters : Nat → Nat) : Nat → Prop
  | owned {a : Nat} : 0 < owned a → Reach s owned iters a
  | iter {a p : Nat} {pl : Payload} : 0 < iters p → s.payloads p = some pl → a ∈ children pl.slots →
    Reach s owned iters a
  | slot {a b : Nat} {kind : Kind} {slots : List (Bytes × Val)} : Reach s owned iters b →
    s.view b = some (.container kind slots) → a ∈ children slots → Reach s owned iters a

/-- A value that the caller may pass without giving it up. -/
def Borrowed (s : Store) (owned iters : Nat → Nat) (v : Val) : Prop :=
  ∀ a, v = .thing a → Reach s owned iters a

theorem Reach.live (hr : Reach s owned iters a) (h : Inv s owned iters) : s.Live a := by
  cases hr with
  | owned ha => exact live_iff.mpr (h.live_of_owned ha)
  | iter hp hpl ha => exact live_iff.mpr (h.live_of_slot hpl ha)
  | slot hb hv ha => exact h.live_of_view hv ha

theorem Reach.mono {owned' : Nat → Nat} (hr : Reach s owned iters a) (ho : ∀ b, owned b ≤ owned' b) :
    Reach s owned' iters a := by
  induction hr with
  | owned ha => exact .owned (Nat.lt_of_lt_of_le ha (ho _))
  | iter hp hpl ha => exact .iter hp hpl ha
  | slot _ hv ha ih => exact .slot ih hv ha

/-- Where what is reached keeps its looks, it is reached as before. -/
theorem Reach.transfer (hr : Reach s owned iters a)
    (hview : ∀ b kind slots, Reach s' owned iters b → s.view b = some (.container kind slots) →
      s'.view b = some (.container kind slots))
    (hiter : Iterating iters s s') : Reach s' owned iters a := by
  induction hr with
  | owned ha => exact .owned ha
  | iter hp hpl ha =>
    obtain ⟨pl', hpl', hslots⟩ := hiter _ _ hp hpl
    exact .iter hp hpl' (hslots ▸ ha)
  | slot _ hv ha ih => exact .slot ih (hview _ _ _ ih hv) ha

theorem Reach.shrinks {owned' : Nat → Nat} (hr : Reach s owned iters a) (h : Shrinks s s')
    (hi : Inv s' owned' iters) (ho : ∀ b, owned b ≤ owned' b) : Reach s' owned iters a := by
  apply hr.transfer
  · intro b kind slots hb hv
    rw [h.view hi ((hb.mono ho).live hi), hv]
  · exact h.iterating hi

/-- What is reached without the things in `W` still is when only those change. -/
theorem Reach.keeps {owned' : Nat → Nat} (hr : Reach s owned iters a) (hk : Keeps W s s')
    (hiter : Iterating iters s s') (hi : Inv s' owned' iters) (ho : ∀ b, owned b ≤ owned' b)
    (hW : ∀ b, s.Live b → ¬ W b) : Reach s' owned iters a := by
  apply hr.transfer _ hiter
  intro b kind slots hb hv
  have hlive := live_of_view hv
  rw [hk.view b hlive ((hb.mono ho).live hi) (hW b hlive), hv]

/-! ## Quiet changes -/

/-- Everything stays and looks as it did; counts and payload addresses may differ. -/
structure Quiet (s s' : Store) : Prop where
  nextThing : s'.nextThing = s.nextThing
  things : ∀ a t, s.things a = some t → ∃ t', s'.things a = some t' ∧ t'.frozen = t.frozen
  live : ∀ a, s'.Live a → s.Live a
  view : ∀ a, s.Live a → s'.view a = s.view a
  payloads : ∀ p pl, s.payloads p = some pl → ∃ pl', s'.payloads p = some pl' ∧ pl'.slots = pl.slots
  held : ∀ a, s'.Held a → s.Held a

theorem Quiet.refl (s : Store) : Quiet s s :=
  ⟨rfl, fun _ t h => ⟨t, h, rfl⟩, fun _ h => h, fun _ _ => rfl, fun _ pl h => ⟨pl, h, rfl⟩, fun _ h => h⟩

theorem Quiet.stays (h : Quiet s s') (ha : s.Live a) : s'.Live a := by
  obtain ⟨t, ht⟩ := live_iff.mp ha
  obtain ⟨t', ht', _⟩ := h.things a t ht
  exact live_iff.mpr ⟨t', ht'⟩

theorem Quiet.allStays (h : Quiet s s') : Stays s s' := by
  refine ⟨fun a ha => h.stays ha, ?_⟩
  intro p hp
  obtain ⟨pl, hpl⟩ := Option.ne_none_iff_exists'.mp hp
  obtain ⟨pl', hpl', _⟩ := h.payloads p pl hpl
  exact Option.ne_none_iff_exists'.mpr ⟨pl', hpl'⟩

theorem Quiet.iterating (h : Quiet s s') : Iterating iters s s' := fun p pl _ hp => h.payloads p pl hp

theorem Quiet.trans (h : Quiet s s₁) (h' : Quiet s₁ s') : Quiet s s' := by
  constructor
  · exact h'.nextThing.trans h.nextThing
  · intro a t ht
    obtain ⟨t₁, ht₁, hf₁⟩ := h.things a t ht
    obtain ⟨t', ht', hf'⟩ := h'.things a t₁ ht₁
    exact ⟨t', ht', hf'.trans hf₁⟩
  · exact fun a ha => h.live a (h'.live a ha)
  · exact fun a ha => (h'.view a (h.stays ha)).trans (h.view a ha)
  · intro p pl hp
    obtain ⟨pl₁, hp₁, hs₁⟩ := h.payloads p pl hp
    obtain ⟨pl', hp', hs'⟩ := h'.payloads p pl₁ hp₁
    exact ⟨pl', hp', hs'.trans hs₁⟩
  · exact fun a ha => h.held a (h'.held a ha)

theorem Quiet.frozen_iff (h : Quiet s s') : s'.Frozen a ↔ s.Frozen a := by
  constructor
  · rintro ⟨t', ht', hf⟩
    obtain ⟨t, ht⟩ := live_iff.mp (h.live a (live_iff.mpr ⟨t', ht'⟩))
    obtain ⟨u, hu, huf⟩ := h.things a t ht
    cases ht'.symm.trans hu
    exact ⟨t, ht, huf.symm.trans hf⟩
  · rintro ⟨t, ht, hf⟩
    obtain ⟨t', ht', hf'⟩ := h.things a t ht
    exact ⟨t', ht', hf'.trans hf⟩

theorem Quiet.keeps (h : Quiet s s') : KeepsAll s s' := by
  constructor
  · exact Nat.le_of_eq h.nextThing.symm
  · exact fun a ha => .inl (h.live a ha)
  · exact fun a ha _ _ => h.view a ha
  · exact fun a hf _ => h.frozen_iff.mpr hf
  · intro a hl ha'
    obtain ⟨v, hv⟩ := hl.view
    have hview := (h.view a hl.live).trans hv
    obtain ⟨t', ht'⟩ := live_iff.mp ha'
    cases hb : t'.body with
    | leaf w => exact ⟨t', w, ht', hb⟩
    | container kind p =>
      simp only [Store.view, ht', hb] at hview
      cases hp : s'.payloads p with
      | none => simp [hp] at hview
      | some pl => simp [hp] at hview

theorem Quiet.noFreeze (h : Quiet s s') : NoFreeze s s' := fun _ ha => .inl (h.frozen_iff.mp ha)

theorem Reach.quiet (hr : Reach s owned iters a) (h : Quiet s s') : Reach s' owned iters a := by
  apply hr.transfer
  · intro b kind slots _ hv
    rw [h.view b (live_of_view hv), hv]
  · exact h.iterating

end Store

end SentryNative.Memory
