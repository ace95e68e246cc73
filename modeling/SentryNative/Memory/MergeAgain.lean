import SentryNative.Memory.DeepMerge

/-!
# After a deep merge

A second merge of the same source finds something at every key path, and puts a null
over a null at most. The objects that were put in are those of the source: what is
written there afterwards is written to the source as well.
-/

namespace SentryNative.ObjectMap

open CLib

variable {V : Type}

theorem setPairs_same (null : V) {ps : List (Bytes × V)} {k : Bytes} (h : Keyed ps) (hk : k ∈ ps.map Prod.fst) :
    setPairs k (getPairs null k ps) ps = ps := by
  induction ps with
  | nil => cases hk
  | cons p ps ih =>
    obtain ⟨stored, w⟩ := p
    by_cases heq : sliceEqs k stored = true
    · obtain rfl : k = stored := (sliceEqs_iff h.head.1).mp heq
      simp only [setPairs, getPairs, heq, if_true]
    · have hne : k ≠ stored := fun he => heq ((sliceEqs_iff h.head.1).mpr he)
      simp only [setPairs, getPairs, heq, Bool.false_eq_true, if_false,
        ih h.tail ((List.mem_cons.mp hk).resolve_left hne)]

end SentryNative.ObjectMap

namespace SentryNative.Memory

open CLib ObjectMap

namespace Store

variable {s s₁ s' : Store} {owned iters : Nat → Nat} {a b p i fuel rv : Nat} {v w x : Val} {k : Bytes}
  {D : List (Bytes × Val)} {ps qs : List (Bytes × Value)} {tree : Value}

/-! ## Nothing new -/

/-- The slots of every payload look as they did. -/
def Steady (s s' : Store) : Prop :=
  ∀ p pl, s.payloads p = some pl → ∃ pl', s'.payloads p = some pl' ∧ clonePairs pl'.slots = clonePairs pl.slots

theorem Steady.refl (s : Store) : Steady s s := fun _ pl hp => ⟨pl, hp, rfl⟩

theorem Steady.trans (h : Steady s s₁) (h' : Steady s₁ s') : Steady s s' := by
  intro p pl hp
  obtain ⟨pl₁, hp₁, hs₁⟩ := h p pl hp
  obtain ⟨pl', hp', hs'⟩ := h' p pl₁ hp₁
  exact ⟨pl', hp', hs'.trans hs₁⟩

theorem Quiet.steady (h : Quiet s s') : Steady s s' := by
  intro p pl hp
  obtain ⟨pl', hp', hs⟩ := h.payloads p pl hp
  exact ⟨pl', hp', by rw [hs]⟩

/-- A payload is written with what it has. -/
theorem Steady.write {pl : Payload} {slots : List (Bytes × Val)} (hp : s.payloads p = some pl)
    (hslots : clonePairs slots = clonePairs pl.slots) (h : s.write p slots = .ok s') : Steady s s' := by
  rw [write_eq hp] at h
  cases h
  intro q ql hq
  by_cases hqp : q = p
  · subst q
    cases hp.symm.trans hq
    exact ⟨{ pl with slots := slots }, by rw [setSlots_eq hp, putPayload_self], hslots⟩
  · exact ⟨ql, (setSlots_of_ne slots hqp).trans hq, rfl⟩

/-- A key that has null is set to null. -/
theorem Inv.setNull_steady (h : Inv s owned iters) (hva : s.view a = some (.container .object D)) (hD : Keyed D)
    (hk : k ∈ D.map Prod.fst) (hnull : getPairs .null k D = .null)
    (hrun : s.setByKey (.thing a) (some k) .null = .ok (rv, s')) : Steady s s' := by
  have hfail : ∀ {s₀ : Store}, s₀.fail .null = .ok (rv, s') → s' = s₀ := by
    intro s₀ hf
    cases hf
    rfl
  simp only [Store.setByKey] at hrun
  split at hrun
  · rename_i s₀ hm
    obtain rfl : { s with mallocs := s.mallocs + 1 } = s₀ := congrArg Prod.snd hm
    rw [hfail hrun]
    exact Quiet.steady (.withMallocs s _)
  rename_i s₀ hm
  obtain rfl : { s with mallocs := s.mallocs + 1 } = s₀ := congrArg Prod.snd hm
  have hlive := Store.live_of_view hva
  obtain ⟨⟨r, s₁⟩, hw, hrun⟩ := bind_ok hrun
  have hlive₀ : ∀ b, Val.thing a = .thing b → s.Live b := by
    rintro b ⟨⟩
    exact hlive
  obtain ⟨r', s₁', hw', _, hquiet, howns, _⟩ := (h.withMallocs (s.mallocs + 1)).writable .object hlive₀
  cases hw.symm.trans hw'
  have hsteady : Steady s s₁ := hquiet.steady
  cases r with
  | none =>
    rw [hfail hrun]
    exact hsteady
  | some p =>
    obtain ⟨a', pl, ha', _, ho, _⟩ := howns p rfl
    cases ha'
    have hview : D = clonePairs pl.slots := by
      have hv : s.view a = some (.container .object (clonePairs pl.slots)) := (hquiet.view a hlive).symm.trans ho.view
      cases hva.symm.trans hv
      rfl
    have hsame : clonePairs (setPairs k .null pl.slots) = clonePairs pl.slots := by
      have hset := setPairs_same Val.null hD hk
      rw [hnull, hview] at hset
      rw [← clonePairs_setPairs, hset, clonePairs_clonePairs]
    simp only [readPayload_eq ho.payload, bind, Except.bind] at hrun
    split at hrun
    · rename_i old hfind
      have hold : old = .null := by
        rw [← getPairs_of_findPair hfind, ← getPairs_clonePairs, ← hview]
        exact hnull
      subst hold
      obtain ⟨s₂, hwrite, hrun⟩ := bind_ok hrun
      cases hrun
      exact hsteady.trans (.write ho.payload hsame hwrite)
    · split at hrun
      · rw [hfail hrun]
        exact hsteady.trans (Quiet.steady (.withMallocs s₁ _))
      · obtain ⟨s₂, hwrite, hrun⟩ := bind_ok hrun
        cases hrun
        exact hsteady.trans ((Quiet.steady (.withMallocs s₁ _)).trans (.write (s := s₁.malloc.2) ho.payload hsame hwrite))

/-- Nothing looks different after a merge. -/
structure Same (s : Store) (owned iters : Nat → Nat) (s' : Store) : Prop where
  merged : Store.Merged s owned iters s'
  keeps : KeepsAll s s'
  steady : Steady s s'

theorem Same.refl (h : Inv s owned iters) : Same s owned iters s := ⟨.refl h, .refl s, .refl s⟩

theorem Same.trans (h : Same s owned iters s₁) (h' : Same s₁ owned iters s') (hi : Inv s owned iters) :
    Same s owned iters s' :=
  ⟨h.merged.trans h'.merged hi, h.keeps.trans_same h'.keeps hi, h.steady.trans h'.steady⟩

theorem Same.view (h : Same s owned iters s') (ha : s.Live a) : s'.view a = s.view a :=
  h.keeps.view a ha (h.merged.stays.things a ha) id

theorem Same.reads (h : Same s owned iters s') (hi : Inv s owned iters) (hv : ∀ a, v = .thing a → s.Live a)
    (hr : Reads s v tree) : Reads s' v tree := hr.congr fun b hb => h.view (hb.live hi hv b rfl)

theorem Inv.refill (h : Inv s owned iters) (hva : s.view a = some (.container .object D)) (hD : Keyed D)
    (hk : k ∈ D.map Prod.fst) (hnull : getPairs .null k D = .null) :
    ∃ rv s', s.setByKey (.thing a) (some k) .null = .ok (rv, s') ∧ Same s owned iters s' := by
  have hlook : s.lookup (.thing a) (some k) = .null := (lookup_eq hva k).trans hnull
  have hnot : ∀ x, s.lookup (.thing a) (some k) ≠ .thing x := by
    intro x hx
    rw [hlook] at hx
    cases hx
  obtain ⟨rv, s', hset, hmut, hadds⟩ := Inv.setByKey_spec (v := .null) (.thing a) (some k) h (by
    rintro b ⟨⟩
    exact Store.live_of_view hva) fun x hx => absurd hx (hnot x)
  have hadd := hadds k rfl hnot
  refine ⟨rv, s', hset, ⟨hmut.inv, hmut.evolves, hadd.stays nofun, hmut.iterating⟩, ?_,
    h.setNull_steady hva hD hk hnull hset⟩
  by_cases hrv : rv = 0
  · obtain ⟨a', slots, ha', _, hv, hv'⟩ := hmut.done hrv
    cases ha'
    cases hva.symm.trans hv
    -- what was written is what was there
    have hsame : keyed (some k) .null D = D := by
      have hset := setPairs_same Val.null hD hk
      rw [hnull] at hset
      simp only [keyed, hset, clonePairs_eq hD]
    rw [hsame] at hv'
    refine ⟨hmut.keeps.next, hmut.keeps.old, ?_, hmut.keeps.frozen, hmut.keeps.leaf⟩
    intro b hb hb' _
    by_cases hba : b = a
    · subst b
      exact hv'.trans hva.symm
    · exact hmut.keeps.view b hb hb' fun hw => hba (Val.thing.inj hw.1).symm
  · exact hmut.failed hrv

/-- Merging what is covered already. -/
def AgainOk (fuel : Nat) : Prop :=
  ∀ (s : Store) (owned iters : Nat → Nat) (a x : Nat) (ps qs : List (Bytes × Value)), Inv s owned iters →
    Reads s (.thing a) (.object ps) → Reads s (.thing x) (.object qs) → Value.Tidy (.object ps) →
    Value.Tidy (.object qs) → Value.Covers (.object ps) (.object qs) → sizeOf qs < fuel →
    ∃ rv s', mergeObjects true fuel s (.thing a) (.thing x) = .ok (rv, s') ∧ Same s owned iters s'

def AgainLoopOk (fuel : Nat) : Prop :=
  ∀ (s : Store) (owned iters : Nat → Nat) (a p i : Nat) (pl : Payload) (D : List (Bytes × Val))
    (ps qs : List (Bytes × Value)), Inv s owned iters → s.view a = some (.container .object D) →
    Matches (Reads s) D ps → s.payloads p = some pl → Matches (Reads s) ((clonePairs pl.slots).drop i) qs →
    Value.Tidy (.object ps) → Value.Tidy (.object qs) →
    (∀ q ∈ qs, q.1 ∈ ps.map Prod.fst ∧ Value.Covers (getPairs .null q.1 ps) q.2) → sizeOf qs ≤ fuel →
    ∃ rv s', mergeFrom true fuel s (.thing a) p i = .ok (rv, s') ∧ Same s owned iters s'

theorem AgainOk.succ (hloop : AgainLoopOk fuel) : AgainOk (fuel + 1) := by
  intro s owned iters a x ps qs h hra hrx hta htx hcov hfuel
  obtain ⟨a', D, ha', hva, hD⟩ := hra.object
  cases ha'
  obtain ⟨x', X, hx', hvx, hX⟩ := hrx.object
  cases hx'
  have hlive : ∀ v b, (v = Val.thing a ∨ v = Val.thing x) → v = .thing b → s.Live b := by
    rintro v b (rfl | rfl) ⟨⟩
    · exact live_of_view hva
    · exact live_of_view hvx
  obtain ⟨r, hr, _, hsome⟩ := h.payloadOf .object (hlive (.thing x) · (.inr rfl))
  obtain ⟨_, _, p, pl, rfl, _, _, _, hp, hslots⟩ := hsome X (shown_eq_some.mpr ⟨x, rfl, hvx⟩)
  have hobj : s.isObject (.thing a) = .ok true := by
    rw [h.isObject (hlive (.thing a) · (.inl rfl)), hra.shown_isSome.mpr ⟨ps, rfl⟩]
  obtain ⟨fr, hfr⟩ := isFrozen_ok (hlive (.thing a) · (.inl rfl))
  cases fr with
  | true =>
    refine ⟨1, s, ?_, .refl h⟩
    simp only [mergeObjects, hobj, hr, hfr, reduceCtorEq, bind, Except.bind, if_false, if_true, Bool.not_true,
      Bool.false_eq_true]
    rfl
  | false =>
    have heq : mergeObjects true (fuel + 1) s (.thing a) (.thing x) = mergeFrom true fuel s (.thing a) p 0 := by
      simp only [mergeObjects, hobj, hr, hfr, reduceCtorEq, bind, Except.bind, if_false, Bool.not_true,
        Bool.false_eq_true]
    rw [heq]
    apply hloop s owned iters a p 0 pl D ps qs h hva hD hp (hslots ▸ hX) hta htx _ (Nat.le_of_lt_succ hfuel)
    cases hcov with
    | kept _ hnot => exact absurd ⟨⟨ps, rfl⟩, qs, rfl⟩ hnot
    | object hkeys hitems => exact fun q hq => ⟨hkeys q hq, hitems q hq⟩

/-- The next slot of a payload, with its key as it looks. -/
theorem next_slot {pl : Payload} {q : Bytes × Value} (h : Matches (Reads s) ((clonePairs pl.slots).drop i) (q :: qs)) :
    ∃ v key, pl.slots[i]? = some (key, v) ∧ cstr key = q.1 ∧ Reads s v q.2 ∧
      Matches (Reads s) ((clonePairs pl.slots).drop (i + 1)) qs := by
  generalize hrest : (clonePairs pl.slots).drop i = rest at h
  cases h with
  | @cons slot _ rest' _ hslot hmore =>
    have hget : (clonePairs pl.slots)[i]? = some slot := by
      rw [← List.head?_drop, hrest]
      rfl
    rw [clonePairs, List.getElem?_map, Option.map_eq_some_iff] at hget
    obtain ⟨⟨key, v⟩, hkey, rfl⟩ := hget
    refine ⟨v, key, hkey, hslot.1, hslot.2, ?_⟩
    rw [← List.drop_drop, hrest]
    exact hmore

theorem AgainLoopOk.nil {pl : Payload} (h : Inv s owned iters) (hp : s.payloads p = some pl)
    (hleft : Matches (Reads s) ((clonePairs pl.slots).drop i) []) :
    ∃ rv s', mergeFrom true (fuel + 1) s (.thing a) p i = .ok (rv, s') ∧ Same s owned iters s' := by
  have hend : pl.slots[i]? = none := by
    have hdrop : (clonePairs pl.slots).drop i = [] := List.forall₂_nil_right_iff.mp hleft
    rw [List.drop_eq_nil_iff] at hdrop
    rw [List.getElem?_eq_none_iff]
    exact Nat.le_trans (Nat.le_of_eq (List.length_map ..).symm) hdrop
  refine ⟨0, s, ?_, .refl h⟩
  simp only [mergeFrom, readPayload_eq hp, hend, bind, Except.bind]
  rfl

theorem AgainLoopOk.succ (hagain : AgainOk fuel) (hloop : AgainLoopOk fuel) : AgainLoopOk (fuel + 1) := by
  intro s owned iters a p i pl D ps qs h hva hD hp hleft hta htx hcov hfuel
  cases qs with
  | nil => exact AgainLoopOk.nil h hp hleft
  | cons q qs =>
    obtain ⟨v, key, hslot, hkey, hrv, hmore⟩ := next_slot hleft
    have hkeyed : Keyed D := hta.keyed.of_keys hD.keys
    have hrd : Reads s (getPairs .null q.1 D) (getPairs .null q.1 ps) := hD.get reads_null q.1
    obtain ⟨hmem, hq⟩ := hcov q List.mem_cons_self
    have hlt := sizeOf_slot_lt q qs
    have hliveSlot : ∀ slot ∈ D, ∀ b, slot.2 = .thing b → s.Live b := by
      intro slot hs b hb
      exact h.live_of_view hva (List.mem_filterMap.mpr ⟨slot, hs, by rw [hb]⟩)
    have hstep := mergeFrom_next fuel h hva hp hslot
    rw [hkey] at hstep
    -- the rest of the loop, from a state that looks the same
    have hrest : ∀ s₁, Same s owned iters s₁ →
        ∃ rv s', mergeFrom true fuel s₁ (.thing a) p (i + 1) = .ok (rv, s') ∧ Same s owned iters s' := by
      intro s₁ hsame
      obtain ⟨pl₁, hp₁, hslots₁⟩ := hsame.steady p pl hp
      have hliveRest : ∀ slot ∈ (clonePairs pl.slots).drop (i + 1), ∀ b, slot.2 = .thing b → s.Live b := by
        intro slot hs b hb
        apply live_iff.mpr (h.live_of_slot hp _)
        rw [← children_clonePairs]
        exact List.mem_filterMap.mpr ⟨slot, List.mem_of_mem_drop hs, by rw [hb]⟩
      obtain ⟨rv, s', hrun, hsame'⟩ := hloop s₁ owned iters a p (i + 1) pl₁ D ps qs hsame.merged.inv
        ((hsame.view (live_of_view hva)).trans hva)
        (hD.imp fun slot hs _ hr => hsame.reads h (hliveSlot slot hs) hr) hp₁
        (hslots₁ ▸ hmore.imp fun slot hs _ hr => hsame.reads h (hliveRest slot hs) hr) hta htx.tail
        (fun q' hq' => hcov q' (List.mem_cons_of_mem _ hq')) (by omega)
      exact ⟨rv, s', hrun, hsame.trans hsame' h⟩
    by_cases hboth : (getPairs .null q.1 ps).IsObject ∧ q.2.IsObject
    · have hobj : ((s.shown (getPairs .null q.1 D) .object).isSome && (s.shown v .object).isSome) = true := by
        rw [hrd.shown_isSome.mpr hboth.1, hrv.shown_isSome.mpr hboth.2]
        rfl
      have htd := hta.get q.1
      have htv : Value.Tidy q.2 := htx.item List.mem_cons_self
      obtain ⟨⟨as, has⟩, bs, hbs⟩ := hboth
      rw [has] at hrd hq htd
      rw [hbs] at hrv hq htv hlt
      obtain ⟨c, _, hc, _⟩ := hrd.object
      obtain ⟨b, _, rfl, _⟩ := hrv.object
      rw [hc] at hrd
      rw [Value.object.sizeOf_spec] at hlt
      obtain ⟨rv₁, s₁, hrun₁, hsame₁⟩ := hagain s owned iters c b as bs h hrd hrv htd htv hq (by omega)
      rw [hstep, if_pos hobj, hc]
      by_cases hrv₁ : rv₁ = 0
      · obtain ⟨rv, s', hrun, hsame⟩ := hrest s₁ hsame₁
        refine ⟨rv, s', ?_, hsame⟩
        simp only [hrun₁, hrv₁, bind, Except.bind, ne_eq, not_true_eq_false, if_false]
        exact hrun
      · refine ⟨1, s₁, ?_, hsame₁⟩
        simp only [hrun₁, bind, Except.bind, ne_eq, hrv₁, not_false_eq_true, if_true]
        rfl
    · have hobj : ¬ ((s.shown (getPairs .null q.1 D) .object).isSome && (s.shown v .object).isSome) = true := by
        rw [Bool.and_eq_true, hrd.shown_isSome, hrv.shown_isSome]
        exact hboth
      rw [hstep, if_neg hobj]
      by_cases hnull : getPairs .null q.1 ps = .null
      · -- a null over a null
        rw [hnull] at hrd hq
        have hnullD := hrd.eq_null
        have htree : q.2 = .null := hq.of_null
        rw [htree] at hrv
        obtain rfl := hrv.eq_null
        obtain ⟨rv₁, s₁, hset, hsame₁⟩ := h.refill hva hkeyed (hD.keys ▸ hmem) hnullD
        have hinc : s.incref .null = .ok s := rfl
        rw [if_pos hnullD]
        by_cases hrv₁ : rv₁ = 0
        · obtain ⟨rv, s', hrun, hsame⟩ := hrest s₁ hsame₁
          refine ⟨rv, s', ?_, hsame⟩
          simp only [hinc, hset, hrv₁, bind, Except.bind, ne_eq, not_true_eq_false, if_false]
          exact hrun
        · refine ⟨1, s₁, ?_, hsame₁⟩
          simp only [hinc, hset, bind, Except.bind, ne_eq, hrv₁, not_false_eq_true, if_true]
          rfl
      · have hnullD : getPairs .null q.1 D ≠ .null := by
          intro hd
          rw [hd] at hrd
          exact hnull hrd.tree_null
        rw [if_neg hnullD]
        exact hrest s (.refl h)

theorem againOk (fuel : Nat) : AgainOk fuel ∧ AgainLoopOk fuel := by
  induction fuel with
  | zero =>
    constructor
    · intro s owned iters a x ps qs _ _ _ _ _ _ hfuel
      exact absurd hfuel (Nat.not_lt_zero _)
    · intro s owned iters a p i pl D ps qs _ _ _ _ _ _ _ _ hfuel
      cases qs <;> simp at hfuel
  | succ fuel ih => exact ⟨.succ ih.2, .succ ih.1 ih.2⟩

end Store

end SentryNative.Memory
