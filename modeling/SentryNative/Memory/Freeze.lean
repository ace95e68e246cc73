import SentryNative.Memory.Create

/-!
# Freeze

`thing_freeze` turns back at a thing that is frozen. That it still freezes everything
below rests on an invariant: a frozen container holds frozen things only.
-/

namespace SentryNative.Memory

open CLib ObjectMap

namespace Store

variable {s s' s₁ : Store} {owned owned' iters : Nat → Nat} {a b p q : Nat} {work : List Nat}
variable {W : Nat → Prop}

/-! ## The invariant -/

/-- What a frozen container holds is frozen, or is among the things still to freeze. -/
def FrozenUpTo (work : List Nat) (s : Store) : Prop :=
  ∀ a kind slots, s.Frozen a → s.view a = some (.container kind slots) →
    ∀ b ∈ children slots, s.Frozen b ∨ b ∈ work

def FrozenClosed (s : Store) : Prop :=
  ∀ a kind slots, s.Frozen a → s.view a = some (.container kind slots) → ∀ b ∈ children slots, s.Frozen b

/-- A change that leaves frozen things alone and freezes no container keeps the
invariant. -/
theorem FrozenClosed.keeps (h : FrozenClosed s) (hk : Keeps W s s') (hn : NoFreeze s s')
    (hi' : Inv s' owned' iters) (hW : ∀ a, s.Frozen a → ¬ W a) : FrozenClosed s' := by
  intro a kind slots hf hv b hb
  have hold : s.Frozen a := by
    apply (hn a hf).resolve_right
    intro hl
    obtain ⟨w, hw⟩ := hl.view
    rw [hv] at hw
    cases hw
  have hview := hk.view a hold.live hf.live (hW a hold)
  exact hk.frozen b (h a kind slots hold (hview.symm.trans hv) b hb) (hi'.live_of_view hv hb)

/-- Frozen things look the same as long as they live, and no container is frozen. -/
structure Evolves (s s' : Store) : Prop where
  keeps : Keeps (fun a => ¬ s.Frozen a) s s'
  noFreeze : NoFreeze s s'

theorem Evolves.of_keepsAll (hk : KeepsAll s s') (hn : NoFreeze s s') : Evolves s s' :=
  ⟨hk.mono fun _ _ hw => hw.elim, hn⟩

theorem Evolves.refl (s : Store) : Evolves s s := ⟨.refl s, .refl s⟩

/-- Frozen things look the same after two changes that leave them alone. -/
theorem Keeps.unfrozen_trans (h : Keeps (fun a => ¬ s.Frozen a) s s₁)
    (h' : Keeps (fun a => ¬ s₁.Frozen a) s₁ s') (hi : Inv s owned iters) :
    Keeps (fun a => ¬ s.Frozen a) s s' := by
  have hboth := h.trans h' hi
  refine ⟨hboth.next, hboth.old, ?_, hboth.frozen, hboth.leaf⟩
  intro a ha ha' hn
  have hf : s.Frozen a := not_not.mp hn
  have h₁ := h.live_between h' hi ha ha'
  rw [h'.view a h₁ ha' (not_not.mpr (h.frozen a hf h₁)), h.view a ha h₁ hn]

theorem Evolves.trans (h : Evolves s s₁) (h' : Evolves s₁ s') (hi : Inv s owned iters) : Evolves s s' :=
  ⟨h.keeps.unfrozen_trans h'.keeps hi, h.noFreeze.trans h'.noFreeze h'.keeps⟩

theorem FrozenClosed.evolves (h : FrozenClosed s) (he : Evolves s s') (hi' : Inv s' owned' iters) :
    FrozenClosed s' := h.keeps he.keeps he.noFreeze hi' fun _ hf => not_not.mpr hf

theorem Mutated.evolves {value : Val} {kind : Kind} {f : List (Bytes × Val) → List (Bytes × Val)} {rv : Nat}
    (h : Mutated s owned iters value kind f rv s') : Evolves s s' :=
  ⟨h.keeps.mono fun _ _ hw => hw.2, h.noFreeze⟩

/-! ## One thing is frozen -/

/-- Things are frozen, and nothing else happens. -/
structure Freezes (s s' : Store) : Prop where
  things : ∀ a t, s.things a = some t → ∃ t', s'.things a = some t' ∧ t'.body = t.body ∧
    (t.frozen = true → t'.frozen = true)
  live : ∀ a, s'.Live a → s.Live a
  payloads : s'.payloads = s.payloads
  nextThing : s'.nextThing = s.nextThing

theorem Freezes.refl (s : Store) : Freezes s s :=
  ⟨fun _ t ht => ⟨t, ht, rfl, id⟩, fun _ h => h, rfl, rfl⟩

theorem Freezes.trans (h : Freezes s s₁) (h' : Freezes s₁ s') : Freezes s s' := by
  constructor
  · intro a t ht
    obtain ⟨t₁, ht₁, hb₁, hf₁⟩ := h.things a t ht
    obtain ⟨t', ht', hb', hf'⟩ := h'.things a t₁ ht₁
    exact ⟨t', ht', hb'.trans hb₁, fun hf => hf' (hf₁ hf)⟩
  · exact fun a ha => h.live a (h'.live a ha)
  · exact h'.payloads.trans h.payloads
  · exact h'.nextThing.trans h.nextThing

theorem Freezes.stays (h : Freezes s s') (ha : s.Live a) : s'.Live a := by
  obtain ⟨t, ht⟩ := live_iff.mp ha
  obtain ⟨t', ht', _⟩ := h.things a t ht
  exact live_iff.mpr ⟨t', ht'⟩

theorem Freezes.frozen (h : Freezes s s') (hf : s.Frozen a) : s'.Frozen a := by
  obtain ⟨t, ht, hft⟩ := hf
  obtain ⟨t', ht', _, himp⟩ := h.things a t ht
  exact ⟨t', ht', himp hft⟩

theorem Freezes.view (h : Freezes s s') (a : Nat) : s'.view a = s.view a := by
  cases ht : s.things a with
  | none =>
    have hnone : s'.things a = none := by
      by_contra hlive
      exact h.live a hlive ht
    simp only [Store.view, ht, hnone]
  | some t =>
    obtain ⟨t', ht', hb, _⟩ := h.things a t ht
    simp only [Store.view, ht, ht', hb, h.payloads]

theorem Freezes.keeps (h : Freezes s s') : KeepsAll s s' := by
  constructor
  · exact Nat.le_of_eq h.nextThing.symm
  · exact fun a ha => .inl (h.live a ha)
  · exact fun a _ _ _ => h.view a
  · exact fun a hf _ => h.frozen hf
  · intro a hl _
    obtain ⟨w, hw⟩ := hl.view
    exact isLeaf_of_view ((h.view a).trans hw)

theorem Freezes.putThing {t : Thing} (ht : s.things a = some t) :
    Freezes s (s.putThing a (some { t with frozen := true })) := by
  constructor
  · intro b u hu
    by_cases hba : b = a
    · subst b
      cases ht.symm.trans hu
      exact ⟨_, putThing_self .., rfl, fun _ => rfl⟩
    · exact ⟨u, (putThing_of_ne s _ hba).trans hu, rfl, id⟩
  · intro b hb
    by_cases hba : b = a
    · subst b
      exact live_iff.mpr ⟨t, ht⟩
    · unfold Live at hb
      rwa [putThing_of_ne s _ hba] at hb
  · rfl
  · rfl

theorem Inv.putFrozen {t : Thing} (h : Inv s owned iters) (ht : s.things a = some t) :
    Inv (s.putThing a (some { t with frozen := true })) owned iters := by
  apply h.putCount ht (h.thingPos a t ht)
  intro b
  have hb := h.things b
  by_cases hba : b = a
  · subst b
    rw [rc_eq, ht] at hb
    simp only [if_true]
    exact hb
  · simp only [if_neg hba]
    exact hb

/-- A thing is taken from the work when it is frozen. -/
theorem FrozenUpTo.tail (h : FrozenUpTo (a :: work) s) (ha : s.Frozen a) : FrozenUpTo work s := by
  intro b kind slots hf hv c hc
  rcases h b kind slots hf hv c hc with hfc | hmem
  · exact .inl hfc
  · rcases List.mem_cons.mp hmem with rfl | hmem
    · exact .inl ha
    · exact .inr hmem

/-- The children of a thing come to the work when it is frozen. -/
theorem FrozenUpTo.freeze {t : Thing} {next : List Nat} (h : FrozenUpTo (a :: work) s)
    (ht : s.things a = some t)
    (hnext : ∀ kind slots, s.view a = some (.container kind slots) → ∀ b ∈ children slots, b ∈ next) :
    FrozenUpTo (next ++ work) (s.putThing a (some { t with frozen := true })) := by
  have hfr := Freezes.putThing ht
  intro b kind slots hf hv c hc
  rw [hfr.view b] at hv
  by_cases hba : b = a
  · subst b
    exact .inr (List.mem_append_left _ (hnext kind slots hv c hc))
  · have hfb : s.Frozen b := by
      obtain ⟨u, hu, huf⟩ := hf
      rw [putThing_of_ne s _ hba] at hu
      exact ⟨u, hu, huf⟩
    rcases h b kind slots hfb hv c hc with hfc | hmem
    · exact .inl (hfr.frozen hfc)
    · rcases List.mem_cons.mp hmem with rfl | hmem
      · exact .inl ⟨_, putThing_self .., rfl⟩
      · exact .inr (List.mem_append_right _ hmem)

/-! ## All of it -/

theorem freezeFuel_putThing {t : Thing} (t' : Thing) (ht : s.things a = some t) (ha : a < s.nextThing) :
    (s.putThing a (some t')).freezeFuel + s.unfrozenSlots (some t) =
      s.freezeFuel + s.unfrozenSlots (some t') := by
  have hsum := Counting.sum_range_update s.unfrozenSlots s.things ha (some t')
  rw [ht] at hsum
  exact hsum

theorem unfrozenSlots_frozen {t : Thing} : s.unfrozenSlots (some { t with frozen := true }) = 0 := by
  obtain ⟨body, frozen, refcount⟩ := t
  cases body <;> rfl

theorem Inv.freezeAll (fuel : Nat) (h : Inv s owned iters) (hup : FrozenUpTo work s)
    (hlive : ∀ b ∈ work, s.Live b) (hfuel : work.length + s.freezeFuel ≤ fuel) :
    ∃ s', freezeAll fuel work s = .ok s' ∧ Inv s' owned iters ∧ FrozenClosed s' ∧ Freezes s s' ∧
      ∀ b ∈ work, s'.Frozen b := by
  induction fuel generalizing s work with
  | zero =>
    cases work with
    | nil =>
      exact ⟨s, rfl, h, fun a k sl hf hv b hb => (hup a k sl hf hv b hb).resolve_right nofun, .refl s, nofun⟩
    | cons a work =>
      simp only [List.length_cons] at hfuel
      omega
  | succ fuel ih =>
    cases work with
    | nil =>
      exact ⟨s, rfl, h, fun a k sl hf hv b hb => (hup a k sl hf hv b hb).resolve_right nofun, .refl s, nofun⟩
    | cons a work =>
      simp only [List.length_cons] at hfuel
      obtain ⟨t, ht⟩ := live_iff.mp (hlive a List.mem_cons_self)
      have hrest : ∀ b ∈ work, s.Live b := fun b hb => hlive b (List.mem_cons_of_mem a hb)
      -- with the thing frozen and its children in the work, the rest is done
      have hgo : ∀ next : List Nat, next.length = s.unfrozenSlots (some t) →
          (∀ kind slots, s.view a = some (.container kind slots) → ∀ b ∈ children slots, b ∈ next) →
          (∀ b ∈ next, s.Live b) →
          Store.freezeAll (fuel + 1) (a :: work) s =
            Store.freezeAll fuel (next ++ work) (s.putThing a (some { t with frozen := true })) →
          ∃ s', Store.freezeAll (fuel + 1) (a :: work) s = .ok s' ∧ Inv s' owned iters ∧ FrozenClosed s' ∧
            Freezes s s' ∧ ∀ b ∈ a :: work, s'.Frozen b := by
        intro next hlen hnext hnlive heq
        have hfr := Freezes.putThing ht
        have hsum := freezeFuel_putThing { t with frozen := true } ht (h.lt_nextThing ht)
        rw [unfrozenSlots_frozen] at hsum
        have hlive' : ∀ b ∈ next ++ work, (s.putThing a (some { t with frozen := true })).Live b := by
          intro b hb
          rcases List.mem_append.mp hb with hb | hb
          · exact hfr.stays (hnlive b hb)
          · exact hfr.stays (hrest b hb)
        obtain ⟨s', hrun, hi, hc, hfr', hall⟩ := ih (h.putFrozen ht) (hup.freeze ht hnext) hlive' (by
          rw [List.length_append]
          omega)
        refine ⟨s', heq.trans hrun, hi, hc, hfr.trans hfr', ?_⟩
        intro b hb
        rcases List.mem_cons.mp hb with rfl | hb
        · exact hfr'.frozen ⟨_, putThing_self .., rfl⟩
        · exact hall b (List.mem_append_right _ hb)
      cases hf : t.frozen with
      | true =>
        have ha : s.Frozen a := ⟨t, ht, hf⟩
        obtain ⟨s', hrun, hi, hc, hfr, hall⟩ := ih h (hup.tail ha) hrest (by omega)
        refine ⟨s', ?_, hi, hc, hfr, ?_⟩
        · simp only [Store.freezeAll, ht, hf, if_true]
          exact hrun
        · intro b hb
          rcases List.mem_cons.mp hb with rfl | hb
          · exact hfr.frozen ha
          · exact hall b hb
      | false =>
        cases hb : t.body with
        | leaf w =>
          apply hgo []
          · obtain ⟨body, frozen, refcount⟩ := t
            cases hb
            rfl
          · intro kind slots hv
            rw [view_leaf ht hb] at hv
            cases hv
          · exact nofun
          · simp only [Store.freezeAll, ht, hf, hb, Bool.false_eq_true, if_false, List.nil_append]
        | container kind p =>
          obtain ⟨pl, hp⟩ := h.live_payload ht hb
          apply hgo (children pl.slots)
          · obtain ⟨body, frozen, refcount⟩ := t
            cases hb
            cases hf
            simp only [unfrozenSlots, hp]
          · intro k slots hv c hc
            rw [view_container ht hb hp] at hv
            cases hv
            rwa [children_clonePairs] at hc
          · exact fun c hc => live_iff.mpr (h.live_of_slot hp hc)
          · simp only [Store.freezeAll, ht, hf, hb, hp, Bool.false_eq_true, if_false]

/-- `sentry_value_freeze` ends, and the value is frozen with all it holds. -/
theorem Inv.freeze {v : Val} (h : Inv s owned iters) (hc : FrozenClosed s)
    (hlive : ∀ a, v = .thing a → s.Live a) :
    ∃ s', s.freeze v = .ok s' ∧ Inv s' owned iters ∧ FrozenClosed s' ∧ Freezes s s' ∧
      ∀ a, v = .thing a → s'.Frozen a := by
  cases v with
  | thing a =>
    have hup : FrozenUpTo [a] s := fun b k sl hf hv c hc' => .inl (hc b k sl hf hv c hc')
    obtain ⟨s', hrun, hi, hcl, hfr, hall⟩ := h.freezeAll (s.freezeFuel + 1) hup
      (fun b hb => hlive b (congrArg Val.thing (List.mem_singleton.mp hb).symm)) (by simp [Nat.add_comm])
    refine ⟨s', hrun, hi, hcl, hfr, ?_⟩
    rintro b ⟨⟩
    exact hall a List.mem_cons_self
  | null => exact ⟨s, rfl, h, hc, .refl s, nofun⟩
  | bool b => exact ⟨s, rfl, h, hc, .refl s, nofun⟩
  | int32 i => exact ⟨s, rfl, h, hc, .refl s, nofun⟩

end Store

end SentryNative.Memory
