import SentryNative.Memory.Reading

/-!
# Deep merges

What `sentry__value_merge_objects` makes of two trees. The loop writes one object and
goes into those that are found at the keys that are left; none of them is found from the
source, so that the source stays as it is while it is read.
-/

namespace SentryNative.Memory

open CLib ObjectMap

namespace Store

variable {s s₁ s' : Store} {owned iters : Nat → Nat} {a b c p x : Nat} {v w value : Val} {k : Bytes}
  {D X : List (Bytes × Val)} {ps qs rs : List (Bytes × Value)} {W W' : Nat → Prop}

/-! ## Bodies -/

/-- The things keep their payloads, but for those in `W`. -/
def KeepsBodies (W : Nat → Prop) (s s' : Store) : Prop :=
  ∀ b t, ¬ W b → s.things b = some t → ∃ t', s'.things b = some t' ∧ t'.body = t.body

theorem KeepsBodies.trans (h : KeepsBodies W s s₁) (h' : KeepsBodies W s₁ s') : KeepsBodies W s s' := by
  intro b t hb ht
  obtain ⟨t₁, ht₁, hbody₁⟩ := h b t hb ht
  obtain ⟨t', ht', hbody'⟩ := h' b t₁ hb ht₁
  exact ⟨t', ht', hbody'.trans hbody₁⟩

theorem KeepsBodies.of_things (h : s'.things = s.things) : KeepsBodies W s s' :=
  fun _ t _ ht => ⟨t, h ▸ ht, rfl⟩

theorem Apart.keepsBodies (h : Apart a s s') (hq : Quiet s s') : KeepsBodies (· = a) s s' := by
  intro b t hne ht
  obtain ⟨t', ht', _⟩ := hq.things b t ht
  exact ⟨t', ht', h.body b t t' hne ht ht'⟩

theorem write_things {slots : List (Bytes × Val)} (h : s.write p slots = .ok s') : s'.things = s.things := by
  obtain ⟨pl, _, h⟩ := bind_ok h
  cases h
  rfl

/-- Where nothing is replaced, no other thing gets another payload. -/
theorem Inv.setByKey_bodies (h : Inv s (owned + refOf v) iters) (ha : s.Live a)
    (hnull : s.lookup (.thing a) (some k) = .null) (hrun : s.setByKey (.thing a) (some k) v = .ok (0, s')) :
    KeepsBodies (· = a) s s' := by
  simp only [Store.setByKey] at hrun
  split at hrun
  · exact absurd rfl (not_fail hrun)
  rename_i s₀ hm
  obtain rfl : { s with mallocs := s.mallocs + 1 } = s₀ := congrArg Prod.snd hm
  have h₀ := h.withMallocs (s.mallocs + 1)
  obtain ⟨⟨r, s₁⟩, hw, hrun⟩ := bind_ok hrun
  have hlive : ∀ b, Val.thing a = .thing b → s.Live b := by
    rintro b ⟨⟩
    exact ha
  obtain ⟨r', s₁', hw', _, hquiet, howns, _⟩ := h₀.writable .object hlive
  cases hw.symm.trans hw'
  cases r with
  | none => exact absurd rfl (not_fail hrun)
  | some p =>
    obtain ⟨a', pl, ha', _, ho, hapart, _⟩ := howns p rfl
    cases ha'
    have hbodies : KeepsBodies (· = a) s s₁ := hapart.keepsBodies hquiet
    simp only [readPayload_eq ho.payload, bind, Except.bind] at hrun
    split at hrun
    · rename_i old hfind
      -- what the pair held is the null that was found
      have hview : s.view a = some (.container .object (clonePairs pl.slots)) :=
        (hquiet.view a ha).symm.trans ho.view
      have hold : old = .null := by
        rw [← hnull]
        simp only [lookup, shown_eq_some.mpr ⟨a, rfl, hview⟩, getPairs_clonePairs]
        exact (getPairs_of_findPair hfind).symm
      subst hold
      obtain ⟨s₂, hwrite, hrun⟩ := bind_ok hrun
      cases hrun
      exact hbodies.trans (.of_things (write_things hwrite))
    · split at hrun
      · exact absurd rfl (not_fail hrun)
      · obtain ⟨s₂, hwrite, hrun⟩ := bind_ok hrun
        cases hrun
        have hthings : s'.things = s₁.things := (write_things hwrite).trans rfl
        exact hbodies.trans (.of_things hthings)

theorem Recounted.keepsBodies (h : Recounted s s') : KeepsBodies W s s' := by
  intro b t _ ht
  obtain ⟨t', ht', hbody, _⟩ := h.back.things b t ht
  exact ⟨t', ht', hbody.symm⟩

/-! ## What was written -/

/-- A merge, or a part of one, that wrote things in `W` only. -/
structure Wrote (W : Nat → Prop) (s : Store) (owned iters : Nat → Nat) (s' : Store) : Prop where
  merged : Store.Merged s owned iters s'
  keeps : Keeps W s s'
  bodies : KeepsBodies W s s'
  fails : s'.fails = s.fails

theorem Wrote.refl (h : Inv s owned iters) : Wrote W s owned iters s :=
  ⟨.refl h, .refl s, .of_things rfl, rfl⟩

theorem Wrote.mono (h : Wrote W s owned iters s') (hW : ∀ b, s.Live b → W b → W' b) : Wrote W' s owned iters s' := by
  refine ⟨h.merged, h.keeps.mono hW, ?_, h.fails⟩
  exact fun b t hb ht => h.bodies b t (fun hw => hb (hW b (live_iff.mpr ⟨t, ht⟩) hw)) ht

theorem Wrote.trans (h : Wrote W s owned iters s₁) (h' : Wrote W s₁ owned iters s') (hi : Inv s owned iters) :
    Wrote W s owned iters s' :=
  ⟨h.merged.trans h'.merged hi, h.keeps.trans_same h'.keeps hi, h.bodies.trans h'.bodies,
    h'.fails.trans h.fails⟩

theorem Wrote.view (h : Wrote W s owned iters s') (ha : s.Live a) (hW : ¬ W a) : s'.view a = s.view a :=
  h.keeps.view a ha (h.merged.stays.things a ha) hW

/-- What is found from a value looks as it did. -/
theorem Wrote.within_view (h : Wrote W s owned iters s') (hi : Inv s owned iters)
    (hlive : ∀ a, v = .thing a → s.Live a) (hW : ∀ a, Within s v (.thing a) → ¬ W a) :
    ∀ a, Within s v (.thing a) → s'.view a = s.view a :=
  fun a ha => h.view (ha.live hi hlive a rfl) (hW a ha)

theorem Wrote.unfrozen (h : Wrote W s owned iters s') {kind : Kind} (hv : s'.view a = some (.container kind D))
    (hf : ¬ s.Frozen a) : ¬ s'.Frozen a := by
  intro hf'
  rcases h.merged.evolves.noFreeze a hf' with hold | hleaf
  · exact hf hold
  · obtain ⟨w, hw⟩ := hleaf.view
    cases hv.symm.trans hw

theorem ready_of_fails (hfails : s.fails = fun _ => false) (n : Nat) : Ready n s :=
  fun i _ => congrFun hfails _

/-- The value of the source goes where there was none. -/
theorem Inv.fill (h : Inv s owned iters) (hfails : s.fails = fun _ => false)
    (hva : s.view a = some (.container .object D)) (hf : ¬ s.Frozen a) (hD : Keyed D) (hk : 0 ∉ k)
    (hheld : ∀ x, v = .thing x → s.Held x) (hnull : getPairs .null k D = .null) :
    ∃ s₁ s', s.incref v = .ok s₁ ∧ s₁.setByKey (.thing a) (some k) v = .ok (0, s') ∧
      Wrote (· = a) s owned iters s' ∧ s'.view a = some (.container .object (setPairs k v D)) := by
  have hlive := Store.live_of_view hva
  have hlook : s.lookup (.thing a) (some k) = .null := by
    simp only [lookup, shown_eq_some.mpr ⟨a, rfl, hva⟩]
    exact hnull
  obtain ⟨s₁, hinc, h₁, hsame⟩ := h.incref (v := v) fun x hx => by
    obtain ⟨p, pl, hp, hmem⟩ := hheld x hx
    exact live_iff.mpr (h.live_of_slot hp hmem)
  have hquiet := hsame.quiet h₁
  have hlive₁ : ∀ b, Val.thing a = .thing b → s₁.Live b := by
    rintro b ⟨⟩
    exact hquiet.stays hlive
  have hlook₁ : s₁.lookup (.thing a) (some k) = .null := by
    rw [lookup_quiet hquiet _ (some k), hlook]
    rintro b ⟨⟩
    exact hlive
  have hnot : ∀ x, s₁.lookup (.thing a) (some k) ≠ .thing x := by
    intro x hx
    rw [hlook₁] at hx
    cases hx
  obtain ⟨rv, s', hset, hmut, hadds⟩ := h₁.setByKey_spec (.thing a) (some k) hlive₁ fun x hx => absurd hx (hnot x)
  have hadd := hadds k rfl hnot
  have hins := hadd.inserted a D rfl (fun hf₁ => hf (hquiet.frozen_iff.mp hf₁))
    ((hquiet.view a hlive).trans hva) (ready_of_fails (hsame.fails.trans hfails) _)
  obtain rfl := hins.done
  obtain ⟨b, slots, hb, _, hvb, hvb'⟩ := hmut.done rfl
  cases hb
  cases ((hquiet.view a hlive).trans hva).symm.trans hvb
  refine ⟨s₁, s', hinc, hset, ⟨⟨hmut.inv, ?_, ?_, ?_⟩, ?_, ?_, hins.fails.trans hsame.fails⟩, ?_⟩
  · exact (Evolves.of_keepsAll hquiet.keeps hquiet.noFreeze).trans hmut.evolves h
  · exact hquiet.allStays.trans (hadd.stays fun x hx => (hheld x hx).quiet hquiet)
  · exact hquiet.iterating.trans hmut.iterating
  · apply (hquiet.keeps.trans hmut.keeps h).mono
    rintro b _ (hw | ⟨hb, _⟩)
    · exact hw.elim
    · exact (Val.thing.inj hb).symm
  · exact hsame.keepsBodies.trans (h₁.setByKey_bodies (hquiet.stays hlive) hlook₁ hset)
  · rw [hvb']
    simp only [keyed, clonePairs_eq (hD.set hk v)]

/-! ## The loop -/

/-- What the loop may write: the object it is called on, and the objects that are found at
the keys that are left. -/
def Touches (s : Store) (a : Nat) (D : List (Bytes × Val)) (keys : List Bytes) (b : Nat) : Prop :=
  b = a ∨ ∃ k ∈ keys, s.Objects (getPairs .null k D) b

/-- What the loop relies on for the keys that are left. -/
structure Going (s : Store) (a x : Nat) (D : List (Bytes × Val)) (keys : List Bytes) : Prop where
  free : ¬ s.Frozen a
  source : ¬ s.Within (.thing x) (.thing a)
  once : ∀ k ∈ keys, s.Mergeable (getPairs .null k D)
  clear : ∀ k ∈ keys, s.Clear (getPairs .null k D) (.thing x)
  others : ∀ k ∈ keys, ∀ slot ∈ D, slot.1 ≠ k → s.Clear (getPairs .null k D) slot.2

/-- The state at an index of the payload that the source had when the loop began. -/
structure Loop (s : Store) (owned iters : Nat → Nat) (a x p i : Nat) (D X : List (Bytes × Val))
    (ps qs : List (Bytes × Value)) : Prop where
  inv : Inv s owned iters
  fails : s.fails = fun _ => false
  view : s.view a = some (.container .object D)
  reads : Matches (Reads s) D ps
  body : ∃ t, s.things x = some t ∧ t.body = .container .object p
  source : s.view x = some (.container .object X)
  left : Matches (Reads s) (X.drop i) qs
  tidy : Value.Tidy (.object ps)
  tidyLeft : Value.Tidy (.object qs)
  going : Going s a x D (qs.map Prod.fst)

variable {i : Nat} {keys : List Bytes} {slot : Bytes × Val} {item : Value}

theorem not_within_null : ¬ Within s .null (.thing b) := fun h => by cases h.of_scalar nofun

theorem clear_null : Clear s v .null := fun _ _ => not_within_null

/-- What stands at a key is null or a slot of the key. -/
theorem getPairs_slot (hD : Keyed D) (k : Bytes) :
    getPairs .null k D = .null ∨ ∃ slot ∈ D, slot.1 = k ∧ slot.2 = getPairs .null k D := by
  by_cases hnull : getPairs .null k D = .null
  · exact .inl hnull
  · obtain ⟨slot, hslot, hk, hv⟩ := getPairs_mem rfl hnull
    exact .inr ⟨slot, hslot, (hk.trans (cstr_of_not_mem (hD.nulFree slot hslot))).symm, hv⟩

namespace Loop

variable {ps qs : List (Bytes × Value)}

theorem keyed (h : Loop s owned iters a x p i D X ps qs) : Keyed D := h.tidy.keyed.of_keys h.reads.keys

theorem readsRoot (h : Loop s owned iters a x p i D X ps qs) : Reads s (.thing a) (.object ps) :=
  .of_matches h.view h.reads

theorem live_slot (h : Loop s owned iters a x p i D X ps qs) (hslot : slot ∈ D) : ∀ b, slot.2 = .thing b → s.Live b := by
  intro b hb
  apply h.inv.live_of_view h.view
  exact List.mem_filterMap.mpr ⟨slot, hslot, by rw [hb]⟩

theorem live_get (h : Loop s owned iters a x p i D X ps qs) (k : Bytes) :
    ∀ b, getPairs .null k D = .thing b → s.Live b := by
  intro b hb
  rcases getPairs_slot h.keyed k with hnull | ⟨slot, hslot, _, hv⟩
  · cases hnull.symm.trans hb
  · exact h.live_slot hslot b (hv.trans hb)

theorem live_source (h : Loop s owned iters a x p i D X ps qs) : ∀ b, Val.thing x = .thing b → s.Live b := by
  rintro b ⟨⟩
  exact live_of_view h.source

/-- The object is not found from its slots. -/
theorem acyclic (h : Loop s owned iters a x p i D X ps qs) (hslot : slot ∈ D) : ¬ Within s slot.2 (.thing a) :=
  h.readsRoot.denotes.acyclic a _ _ .refl h.view slot hslot

theorem acyclic_get (h : Loop s owned iters a x p i D X ps qs) (k : Bytes) :
    ¬ Within s (getPairs .null k D) (.thing a) := by
  rcases getPairs_slot h.keyed k with hnull | ⟨slot, hslot, _, hv⟩
  · rw [hnull]
    exact not_within_null
  · rw [← hv]
    exact h.acyclic hslot

/-- The slot that is next. -/
theorem next {q : Bytes × Value} (h : Loop s owned iters a x p i D X ps (q :: qs)) :
    ∃ v pl key, s.payloads p = some pl ∧ pl.slots[i]? = some (key, v) ∧ cstr key = q.1 ∧ (q.1, v) ∈ X ∧
      Reads s v q.2 ∧ Matches (Reads s) (X.drop (i + 1)) qs := by
  obtain ⟨t, ht, hbody⟩ := h.body
  obtain ⟨pl, hpl⟩ := h.inv.live_payload ht hbody
  have hX : X = clonePairs pl.slots := by
    have hv := view_container ht hbody hpl
    cases h.source.symm.trans hv
    rfl
  generalize hrest : X.drop i = rest at *
  have hleft := h.left
  rw [hrest] at hleft
  cases hleft with
  | @cons slot _ rest' _ hslot hmore =>
    have hget : X[i]? = some slot := by
      rw [← List.head?_drop, hrest]
      rfl
    have hget' := hget
    rw [hX, clonePairs, List.getElem?_map, Option.map_eq_some_iff] at hget'
    obtain ⟨⟨key, v⟩, hkey, rfl⟩ := hget'
    refine ⟨v, pl, key, hpl, hkey, hslot.1, ?_, hslot.2, ?_⟩
    · rw [← hslot.1]
      exact List.mem_of_getElem? hget
    · rw [← List.drop_drop, hrest]
      exact hmore

/-- What is found from the source is found from its slots. -/
theorem of_source {v : Val} (h : Loop s owned iters a x p i D X ps qs) (hv : (k, v) ∈ X) (hw : Within s v w) :
    Within s (.thing x) w := .of_slot h.source hv hw

theorem live_of_source {v : Val} (h : Loop s owned iters a x p i D X ps qs) (hv : (k, v) ∈ X) :
    ∀ b, v = .thing b → s.Live b := by
  intro b hb
  apply h.inv.live_of_view h.source
  exact List.mem_filterMap.mpr ⟨(k, v), hv, by rw [hb]⟩

/-- The source keeps its payload and what is left of it is read as before. -/
theorem source_after {q : Bytes × Value} (h : Loop s owned iters a x p i D X ps (q :: qs))
    (hw : Wrote W s owned iters s₁) (hW : ∀ b, Within s (.thing x) (.thing b) → ¬ W b) :
    (∃ t, s₁.things x = some t ∧ t.body = .container .object p) ∧ s₁.view x = some (.container .object X) ∧
      Matches (Reads s₁) (X.drop (i + 1)) qs := by
  have hsame := hw.within_view h.inv h.live_source hW
  obtain ⟨t, ht, hbody⟩ := h.body
  obtain ⟨t₁, ht₁, hbody₁⟩ := hw.bodies x t (hW x .refl) ht
  refine ⟨⟨t₁, ht₁, hbody₁.trans hbody⟩, (hsame x .refl).trans h.source, ?_⟩
  obtain ⟨_, _, _, _, _, _, _, _, hmore⟩ := h.next
  apply hmore.imp
  intro slot hslot tree hr
  apply hr.congr
  exact fun b hb => hsame b (.of_slot h.source (List.mem_of_mem_drop hslot) hb)

/-- The loop goes on after the object at a key was merged. -/
theorem join {q : Bytes × Value} {rs : List (Bytes × Value)} (h : Loop s owned iters a x p i D X ps (q :: qs))
    (hmem : q.1 ∈ D.map Prod.fst) (hw : Wrote (s.Objects (getPairs .null q.1 D)) s owned iters s₁)
    (hgrow : ∀ b, Within s₁ (getPairs .null q.1 D) (.thing b) →
      Within s (getPairs .null q.1 D) (.thing b) ∨ Within s (.thing x) (.thing b))
    (hreads : Reads s₁ (getPairs .null q.1 D) (.object rs)) (htidy : Value.Tidy (.object rs)) :
    Loop s₁ owned iters a x p (i + 1) D X (setPairs q.1 (.object rs) ps) qs ∧
      ∀ v, (∀ b, v = .thing b → s.Live b) → s.Clear (getPairs .null q.1 D) v →
        ∀ b, Within s v (.thing b) → s₁.view b = s.view b := by
  set d := getPairs .null q.1 D with hd
  have hsame : ∀ v, (∀ b, v = .thing b → s.Live b) → s.Clear d v → ∀ b, Within s v (.thing b) → s₁.view b = s.view b :=
    fun v hlive hclear => hw.within_view h.inv hlive fun b hb hW => hclear b hW hb
  have hself := List.mem_cons_self (a := q.1) (l := qs.map Prod.fst)
  have hnotin : q.1 ∉ qs.map Prod.fst := (List.nodup_cons.mp h.tidyLeft.keyed.nodup).1
  have hne : ∀ k ∈ qs.map Prod.fst, k ≠ q.1 := fun k hk he => hnotin (he ▸ hk)
  have hview : s₁.view a = some (.container .object D) :=
    (hw.view (live_of_view h.view) fun hW => h.acyclic_get q.1 hW.1).trans h.view
  have hclearx := h.going.clear q.1 hself
  have hsamex := hsame (.thing x) h.live_source hclearx
  -- the other slots are left alone
  have hclear : ∀ k, k ≠ q.1 → s.Clear d (getPairs .null k D) := by
    intro k hk
    rcases getPairs_slot h.keyed k with hnull | ⟨slot, hslot, hkey, hv⟩
    · rw [hnull]
      exact clear_null
    · rw [← hv]
      exact h.going.others q.1 hself slot hslot (hkey ▸ hk)
  have hsameget := fun k hk => hsame (getPairs .null k D) (h.live_get k) (hclear k hk)
  obtain ⟨hbody, hsource, hleft⟩ := h.source_after hw fun b hb hW => hclearx b hW hb
  refine ⟨⟨hw.merged.inv, hw.fails.trans h.fails, hview, ?_, hbody, hsource, hleft, ?_, h.tidyLeft.tail, ?_⟩, hsame⟩
  · apply Matches.set_right h.reads h.keyed hmem hreads
    intro slot hslot hk tree hr
    exact hr.congr (hsame slot.2 (h.live_slot hslot) (h.going.others q.1 hself slot hslot hk))
  · exact h.tidy.set (h.tidyLeft.keyed.nulFree q List.mem_cons_self) htidy
  · constructor
    · exact hw.unfrozen hview h.going.free
    · exact fun hx => h.going.source ((within_iff hsamex).mp hx)
    · intro k hk
      apply (h.going.once k (List.mem_cons_of_mem _ hk)).congr (hsameget k (hne k hk))
      rintro b ⟨hb, slots, hv⟩ hf
      exact hw.unfrozen ((hsameget k (hne k hk) b hb).trans hv) hf
    · intro k hk
      exact (h.going.clear k (List.mem_cons_of_mem _ hk)).congr (hsameget k (hne k hk)) hsamex
    · intro k hk slot hslot hsk
      have hold := h.going.others k (List.mem_cons_of_mem _ hk) slot hslot hsk
      by_cases hsq : slot.1 = q.1
      · -- what was merged has grown by what is found from the source
        have hslotd : slot.2 = d := by
          rw [hd, ← hsq]
          exact (getPairs_of_mem .null h.keyed hslot).symm
        intro b hb hwb
        have hb' := (Objects.congr (hsameget k (hne k hk))).mp hb
        rw [hslotd] at hwb hold
        rcases hgrow b hwb with hin | hin
        · exact hold b hb' hin
        · exact h.going.clear k (List.mem_cons_of_mem _ hk) b hb' hin
      · apply hold.congr (hsameget k (hne k hk))
        exact hsame slot.2 (h.live_slot hslot) (h.going.others q.1 hself slot hslot hsq)

/-- The loop goes on after a value of the source was put in. -/
theorem fill {q : Bytes × Value} {v : Val} (h : Loop s owned iters a x p i D X ps (q :: qs)) (hv : (q.1, v) ∈ X)
    (hr : Reads s v q.2) (hw : Wrote (· = a) s owned iters s₁)
    (hview : s₁.view a = some (.container .object (setPairs q.1 v D))) :
    Loop s₁ owned iters a x p (i + 1) (setPairs q.1 v D) X (setPairs q.1 q.2 ps) qs ∧
      ∀ v, (∀ b, v = .thing b → s.Live b) → ¬ Within s v (.thing a) →
        ∀ b, Within s v (.thing b) → s₁.view b = s.view b := by
  have hsame : ∀ v, (∀ b, v = .thing b → s.Live b) → ¬ Within s v (.thing a) → ∀ b, Within s v (.thing b) →
      s₁.view b = s.view b := by
    intro v hlive hnot
    apply hw.within_view h.inv hlive
    rintro b hb rfl
    exact hnot hb
  have hnul : 0 ∉ q.1 := h.tidyLeft.keyed.nulFree q List.mem_cons_self
  have hnotin : q.1 ∉ qs.map Prod.fst := (List.nodup_cons.mp h.tidyLeft.keyed.nodup).1
  have hget : ∀ k ∈ qs.map Prod.fst, getPairs .null k (setPairs q.1 v D) = getPairs .null k D := by
    intro k hk
    apply getPairs_setPairs_of_ne Val.null hnul
    rintro rfl
    exact hnotin hk
  have hnotv : ¬ Within s v (.thing a) := fun hin => h.going.source (h.of_source hv hin)
  have hsamex := hsame (.thing x) h.live_source h.going.source
  have hsameget := fun k => hsame (getPairs .null k D) (h.live_get k) (h.acyclic_get k)
  have hsamev := hsame v (h.live_of_source hv) hnotv
  obtain ⟨hbody, hsource, hleft⟩ := h.source_after hw (by
    rintro b hb rfl
    exact h.going.source hb)
  refine ⟨⟨hw.merged.inv, hw.fails.trans h.fails, hview, ?_, hbody, hsource, hleft, ?_, h.tidyLeft.tail, ?_⟩, hsame⟩
  · apply Matches.set _ (hr.congr hsamev)
    apply h.reads.imp
    exact fun slot hslot tree hr => hr.congr (hsame slot.2 (h.live_slot hslot) (h.acyclic hslot))
  · exact h.tidy.set hnul (h.tidyLeft.item List.mem_cons_self)
  · constructor
    · exact hw.unfrozen hview h.going.free
    · exact fun hx => h.going.source ((within_iff hsamex).mp hx)
    · intro k hk
      rw [hget k hk]
      apply (h.going.once k (List.mem_cons_of_mem _ hk)).congr (hsameget k)
      rintro b ⟨hb, slots, hvb⟩ hf
      exact hw.unfrozen ((hsameget k b hb).trans hvb) hf
    · intro k hk
      rw [hget k hk]
      exact (h.going.clear k (List.mem_cons_of_mem _ hk)).congr (hsameget k) hsamex
    · intro k hk slot hslot hsk
      rw [hget k hk]
      rcases mem_setPairs hslot with hold | rfl
      · apply (h.going.others k (List.mem_cons_of_mem _ hk) slot hold hsk).congr (hsameget k)
        exact hsame slot.2 (h.live_slot hold) (h.acyclic hold)
      · have hclear : s.Clear (getPairs .null k D) v :=
          fun b hb hin => h.going.clear k (List.mem_cons_of_mem _ hk) b hb (h.of_source hv hin)
        exact hclear.congr (hsameget k) hsamev

/-- The loop goes on after a key was left alone. -/
theorem keep {q : Bytes × Value} (h : Loop s owned iters a x p i D X ps (q :: qs)) :
    Loop s owned iters a x p (i + 1) D X ps qs := by
  obtain ⟨_, _, _, _, _, _, _, _, hmore⟩ := h.next
  refine ⟨h.inv, h.fails, h.view, h.reads, h.body, h.source, hmore, h.tidy, h.tidyLeft.tail, ?_⟩
  exact ⟨h.going.free, h.going.source, fun k hk => h.going.once k (List.mem_cons_of_mem _ hk),
    fun k hk => h.going.clear k (List.mem_cons_of_mem _ hk),
    fun k hk => h.going.others k (List.mem_cons_of_mem _ hk)⟩

end Loop

/-! ## The run -/

/-- What a merge makes of two objects. -/
structure Makes (s : Store) (owned iters : Nat → Nat) (W : Nat → Prop) (a x : Nat) (ps qs : List (Bytes × Value))
    (rs : List (Bytes × Value)) (s' : Store) : Prop where
  wrote : Wrote W s owned iters s'
  merged : Value.MergedPairs ps qs rs
  reads : Reads s' (.thing a) (.object rs)
  grows : ∀ b, Within s' (.thing a) (.thing b) → Within s (.thing a) (.thing b) ∨ Within s (.thing x) (.thing b)

def JoinOk (fuel : Nat) : Prop :=
  ∀ (s : Store) (owned iters : Nat → Nat) (a x : Nat) (ps qs : List (Bytes × Value)), Inv s owned iters →
    s.fails = (fun _ => false) → Reads s (.thing a) (.object ps) → Reads s (.thing x) (.object qs) →
    Value.Tidy (.object ps) → Value.Tidy (.object qs) → s.Mergeable (.thing a) → s.Clear (.thing a) (.thing x) →
    sizeOf qs < fuel → ∃ rs s', mergeObjects true fuel s (.thing a) (.thing x) = .ok (0, s') ∧
      Makes s owned iters (s.Objects (.thing a)) a x ps qs rs s'

def LoopOk (fuel : Nat) : Prop :=
  ∀ (s : Store) (owned iters : Nat → Nat) (a x p i : Nat) (D X : List (Bytes × Val))
    (ps qs : List (Bytes × Value)), Loop s owned iters a x p i D X ps qs → sizeOf qs ≤ fuel →
    ∃ rs s', mergeFrom true fuel s (.thing a) p i = .ok (0, s') ∧
      Makes s owned iters (s.Touches a D (qs.map Prod.fst)) a x ps qs rs s'

theorem Reads.shown_isSome {tree : Value} (h : Reads s v tree) : (s.shown v .object).isSome = true ↔ tree.IsObject := by
  constructor
  · intro hs
    by_contra hnot
    rw [h.shown_none hnot] at hs
    cases hs
  · rintro ⟨ps, rfl⟩
    obtain ⟨a, D, rfl, hv, _⟩ := h.object
    rw [shown_eq_some.mpr ⟨a, rfl, hv⟩]
    rfl

theorem Inv.bothObjects_eq (h : Inv s owned iters) (hv : ∀ b, v = .thing b → s.Live b)
    (hw : ∀ b, w = .thing b → s.Live b) :
    s.bothObjects true v w = .ok ((s.shown v .object).isSome && (s.shown w .object).isSome) := by
  simp only [Store.bothObjects, h.isObject hv, h.isObject hw, bind, Except.bind]
  cases (s.shown v .object).isSome <;> rfl

theorem lookup_eq (hv : s.view a = some (.container .object D)) (k : Bytes) :
    s.lookup (.thing a) (some k) = getPairs .null k D := by
  simp only [lookup, shown_eq_some.mpr ⟨a, rfl, hv⟩]

/-- The loop from its next slot on. -/
theorem mergeFrom_next (fuel : Nat) {pl : Payload} {key : Bytes} (h : Inv s owned iters)
    (hview : s.view a = some (.container .object D)) (hpl : s.payloads p = some pl)
    (hslot : pl.slots[i]? = some (key, v)) :
    mergeFrom true (fuel + 1) s (.thing a) p i =
      if ((s.shown (getPairs .null (cstr key) D) .object).isSome && (s.shown v .object).isSome) = true then do
        let (rv, s) ← mergeObjects true fuel s (getPairs .null (cstr key) D) v
        if rv ≠ 0 then return (1, s) else mergeFrom true fuel s (.thing a) p (i + 1)
      else if getPairs .null (cstr key) D = .null then do
        let s ← s.incref v
        let (rv, s) ← s.setByKey (.thing a) (some (cstr key)) v
        if rv ≠ 0 then return (1, s) else mergeFrom true fuel s (.thing a) p (i + 1)
      else mergeFrom true fuel s (.thing a) p (i + 1) := by
  have hlive : ∀ b, Val.thing a = .thing b → s.Live b := by
    rintro b ⟨⟩
    exact live_of_view hview
  have hget := h.getByKey hlive (some (cstr key))
  have hliveget := h.live_lookup (v := .thing a) (some (cstr key))
  rw [lookup_eq hview] at hget hliveget
  have hboth := h.bothObjects_eq (v := getPairs .null (cstr key) D) (w := v) hliveget (by
    rintro b rfl
    exact live_iff.mpr (h.live_of_slot hpl (mem_children_of_getElem? hslot)))
  simp only [mergeFrom, readPayload_eq hpl, hslot, hget, hboth, bind, Except.bind]

theorem mergeable_null : Mergeable s .null :=
  ⟨fun _ hb => absurd hb.1 not_within_null, fun _ _ hb => absurd hb not_within_null⟩

/-- The loop begins. -/
theorem Going.start (hD : Keyed D) (hv : s.view a = some (.container .object D)) (hm : s.Mergeable (.thing a))
    (hclear : s.Clear (.thing a) (.thing x)) (keys : List Bytes) : Going s a x D keys := by
  refine ⟨hm.unfrozen a ⟨.refl, D, hv⟩, hclear a ⟨.refl, D, hv⟩, ?_, ?_, ?_⟩
  · intro k _
    rcases getPairs_slot hD k with hnull | ⟨slot, hslot, _, hd⟩
    · rw [hnull]
      exact mergeable_null
    · rw [← hd]
      exact hm.slot hv hslot
  · intro k _ b hb
    rcases getPairs_slot hD k with hnull | ⟨slot, hslot, _, hd⟩
    · rw [hnull] at hb
      exact absurd hb.1 not_within_null
    · rw [← hd] at hb
      exact hclear b (hb.slot hv hslot)
  · intro k _ slot hslot hne
    rcases getPairs_slot hD k with hnull | ⟨slot', hslot', hk, hd⟩
    · rw [hnull]
      exact fun _ hb => absurd hb.1 not_within_null
    · rw [← hd]
      exact hm.once a D .refl hv slot' hslot' slot hslot (hk ▸ hne.symm)

theorem Touches.objects (hD : Keyed D) (hv : s.view a = some (.container .object D))
    (h : s.Touches a D keys b) : s.Objects (.thing a) b := by
  rcases h with rfl | ⟨k, _, hb⟩
  · exact ⟨.refl, D, hv⟩
  · rcases getPairs_slot hD k with hnull | ⟨slot, hslot, _, hd⟩
    · rw [hnull] at hb
      exact absurd hb.1 not_within_null
    · rw [← hd] at hb
      exact hb.slot hv hslot

theorem JoinOk.succ {fuel : Nat} (hloop : LoopOk fuel) : JoinOk (fuel + 1) := by
  intro s owned iters a x ps qs h hfails hra hrx hta htx hm hclear hfuel
  obtain ⟨a', D, ha', hva, hD⟩ := hra.object
  cases ha'
  obtain ⟨x', X, hx', hvx, hX⟩ := hrx.object
  cases hx'
  have hlive : ∀ v b, (v = Val.thing a ∨ v = Val.thing x) → v = .thing b → s.Live b := by
    rintro v b (rfl | rfl) ⟨⟩
    · exact live_of_view hva
    · exact live_of_view hvx
  have hkeyed : Keyed D := hta.keyed.of_keys hD.keys
  obtain ⟨r, hr, _, hsome⟩ := h.payloadOf .object (hlive (.thing x) · (.inr rfl))
  obtain ⟨x', t, p, pl, rfl, hx', ht, hbody, _⟩ := hsome X (shown_eq_some.mpr ⟨x, rfl, hvx⟩)
  cases hx'
  obtain ⟨ta, hta'⟩ := live_iff.mp (live_of_view hva)
  have hfrozen : s.isFrozen (.thing a) = .ok false := by
    have hbit : ta.frozen = false := by
      apply Bool.eq_false_of_not_eq_true
      exact fun hf => hm.unfrozen a ⟨.refl, D, hva⟩ ⟨ta, hta', hf⟩
    simp only [Store.isFrozen, readThing, hta', hbit, bind, Except.bind]
    rfl
  have hobj : s.isObject (.thing a) = .ok true := by
    rw [h.isObject (hlive (.thing a) · (.inl rfl)), hra.shown_isSome.mpr ⟨ps, rfl⟩]
  have heq : mergeObjects true (fuel + 1) s (.thing a) (.thing x) = mergeFrom true fuel s (.thing a) p 0 := by
    simp only [mergeObjects, hobj, hr, hfrozen, reduceCtorEq, bind, Except.bind, if_false, Bool.not_true,
      Bool.false_eq_true]
  obtain ⟨rs, s', hrun, hmakes⟩ := hloop s owned iters a x p 0 D X ps qs
    ⟨h, hfails, hva, hD, ⟨t, ht, hbody⟩, hvx, hX, hta, htx, .start hkeyed hva hm hclear _⟩
    (Nat.le_of_lt_succ hfuel)
  refine ⟨rs, s', heq.trans hrun, ?_, hmakes.merged, hmakes.reads, hmakes.grows⟩
  exact hmakes.wrote.mono fun b _ hb => hb.objects hkeyed hva

theorem sizeOf_slot_lt (q : Bytes × Value) (qs : List (Bytes × Value)) :
    sizeOf q.2 + sizeOf qs < sizeOf (q :: qs) := by
  obtain ⟨k, v⟩ := q
  simp only [List.cons.sizeOf_spec, Prod.mk.sizeOf_spec]
  omega

/-- What is written after the first key is written by the whole. -/
theorem Touches.cons {D' : List (Bytes × Val)} {q : Bytes} (hget : ∀ k ∈ keys, getPairs .null k D' = getPairs .null k D)
    (hsame : ∀ k ∈ keys, ∀ b, Within s (getPairs .null k D) (.thing b) → s₁.view b = s.view b)
    (h : s₁.Touches a D' keys b) : s.Touches a D (q :: keys) b := by
  rcases h with rfl | ⟨k, hk, hb⟩
  · exact .inl rfl
  · rw [hget k hk] at hb
    exact .inr ⟨k, List.mem_cons_of_mem _ hk, (Objects.congr (hsame k hk)).mp hb⟩

namespace Makes

/-- The object at the first key is merged, and then the loop goes on. -/
theorem join {q : Bytes} {ys as bs cs : List (Bytes × Value)} (h : Loop s owned iters a x p i D X ps ((q, .object bs) :: qs))
    (hc : getPairs .null q D = .thing c) (hv : (q, .thing b) ∈ X) (has : getPairs .null q ps = .object as)
    (hin : Makes s owned iters (s.Objects (.thing c)) c b as bs cs s₁)
    (hgoes : Loop s₁ owned iters a x p (i + 1) D X (setPairs q (.object cs) ps) qs)
    (hsame : ∀ v, (∀ b, v = .thing b → s.Live b) → s.Clear (.thing c) v →
      ∀ b, Within s v (.thing b) → s₁.view b = s.view b)
    (hout : Makes s₁ owned iters (s₁.Touches a D (qs.map Prod.fst)) a x (setPairs q (.object cs) ps) qs ys s') :
    Makes s owned iters (s.Touches a D (((q, Value.object bs) :: qs).map Prod.fst)) a x ps
      ((q, .object bs) :: qs) ys s' := by
  have hself := List.mem_cons_self (a := q) (l := qs.map Prod.fst)
  have hclearx := h.going.clear q hself
  rw [hc] at hclearx
  have hsamex := hsame (.thing x) h.live_source hclearx
  have hnotin : q ∉ qs.map Prod.fst := (List.nodup_cons.mp h.tidyLeft.keyed.nodup).1
  have hothers : ∀ slot ∈ D, slot.1 ≠ q → ∀ b, Within s slot.2 (.thing b) → s₁.view b = s.view b := by
    intro slot hslot hne
    apply hsame slot.2 (h.live_slot hslot)
    rw [← hc]
    exact h.going.others q hself slot hslot hne
  refine ⟨?_, .join has hin.merged hout.merged, hout.reads, ?_⟩
  · apply (hin.wrote.mono _).trans (hout.wrote.mono _) h.inv
    · intro b _ hb
      exact .inr ⟨q, hself, hc ▸ hb⟩
    · intro b _ hb
      apply hb.cons (fun _ _ => rfl)
      intro k hk
      rcases getPairs_slot h.keyed k with hnull | ⟨slot, hslot, hkey, hd⟩
      · rw [hnull]
        exact fun b hb => absurd hb not_within_null
      · rw [← hd]
        apply hothers slot hslot
        rintro rfl
        exact hnotin (hkey ▸ hk)
  · intro b' hb'
    rcases hout.grows b' hb' with hin₁ | hin₁
    · rcases hin₁.head with heq | ⟨a', kind, slots, slot, ha', hva, hslot, hw⟩
      · exact .inl (heq ▸ .refl)
      · cases ha'
        cases hgoes.view.symm.trans hva
        by_cases hsq : slot.1 = q
        · have hslotc : slot.2 = .thing c := by
            rw [← hc, ← hsq]
            exact (getPairs_of_mem .null h.keyed hslot).symm
          rw [hslotc] at hw
          rcases hin.grows b' hw with hold | hold
          · exact .inl (.of_slot h.view hslot (hslotc ▸ hold))
          · exact .inr (h.of_source hv hold)
        · exact .inl (.of_slot h.view hslot ((within_iff (hothers slot hslot hsq)).mp hw))
    · exact .inr ((within_iff hsamex).mp hin₁)

/-- A value of the source is put in, and then the loop goes on. -/
theorem fill {q : Bytes × Value} {ys : List (Bytes × Value)} (h : Loop s owned iters a x p i D X ps (q :: qs))
    (hv : (q.1, v) ∈ X) (hnull : getPairs .null q.1 ps = .null) (hw : Wrote (· = a) s owned iters s₁)
    (hgoes : Loop s₁ owned iters a x p (i + 1) (setPairs q.1 v D) X (setPairs q.1 q.2 ps) qs)
    (hsame : ∀ v, (∀ b, v = .thing b → s.Live b) → ¬ Within s v (.thing a) →
      ∀ b, Within s v (.thing b) → s₁.view b = s.view b)
    (hout : Makes s₁ owned iters (s₁.Touches a (setPairs q.1 v D) (qs.map Prod.fst)) a x (setPairs q.1 q.2 ps) qs ys s') :
    Makes s owned iters (s.Touches a D ((q :: qs).map Prod.fst)) a x ps (q :: qs) ys s' := by
  have hnotin : q.1 ∉ qs.map Prod.fst := (List.nodup_cons.mp h.tidyLeft.keyed.nodup).1
  have hsamex := hsame (.thing x) h.live_source h.going.source
  refine ⟨?_, .fill hnull hout.merged, hout.reads, ?_⟩
  · apply (hw.mono fun b _ hb => Or.inl hb).trans (hout.wrote.mono _) h.inv
    intro b _ hb
    apply hb.cons
    · intro k hk
      apply getPairs_setPairs_of_ne Val.null (h.tidyLeft.keyed.nulFree q List.mem_cons_self)
      rintro rfl
      exact hnotin hk
    · exact fun k _ => hsame _ (h.live_get k) (h.acyclic_get k)
  · intro b hb
    rcases hout.grows b hb with hin₁ | hin₁
    · rcases hin₁.head with heq | ⟨a', kind, slots, slot, ha', hva, hslot, hwithin⟩
      · exact .inl (heq ▸ .refl)
      · cases ha'
        cases hgoes.view.symm.trans hva
        rcases mem_setPairs hslot with hold | rfl
        · have hview := hsame slot.2 (h.live_slot hold) (h.acyclic hold)
          exact .inl (.of_slot h.view hold ((within_iff hview).mp hwithin))
        · have hview := hsame v (h.live_of_source hv) fun hin => h.going.source (h.of_source hv hin)
          exact .inr (h.of_source hv ((within_iff hview).mp hwithin))
    · exact .inr ((within_iff hsamex).mp hin₁)

/-- A key is left alone, and then the loop goes on. -/
theorem keep {q : Bytes × Value} {ys : List (Bytes × Value)} (hnull : getPairs .null q.1 ps ≠ .null)
    (hnot : ¬ ((getPairs .null q.1 ps).IsObject ∧ q.2.IsObject))
    (hout : Makes s owned iters (s.Touches a D (qs.map Prod.fst)) a x ps qs ys s') :
    Makes s owned iters (s.Touches a D ((q :: qs).map Prod.fst)) a x ps (q :: qs) ys s' := by
  refine ⟨hout.wrote.mono ?_, .keep hnull hnot hout.merged, hout.reads, hout.grows⟩
  rintro b _ (rfl | ⟨k, hk, hb⟩)
  · exact .inl rfl
  · exact .inr ⟨k, List.mem_cons_of_mem _ hk, hb⟩

end Makes

theorem LoopOk.nil {fuel : Nat} (h : Loop s owned iters a x p i D X ps []) :
    ∃ rs s', mergeFrom true (fuel + 1) s (.thing a) p i = .ok (0, s') ∧
      Makes s owned iters (s.Touches a D []) a x ps [] rs s' := by
  obtain ⟨t, ht, hbody⟩ := h.body
  obtain ⟨pl, hpl⟩ := h.inv.live_payload ht hbody
  have hX : X = clonePairs pl.slots := by
    have hv := view_container ht hbody hpl
    cases h.source.symm.trans hv
    rfl
  have hend : pl.slots[i]? = none := by
    have hdrop : X.drop i = [] := List.forall₂_nil_right_iff.mp h.left
    rw [List.getElem?_eq_none_iff]
    rw [List.drop_eq_nil_iff, hX] at hdrop
    exact Nat.le_trans (Nat.le_of_eq (List.length_map ..).symm) hdrop
  refine ⟨ps, s, ?_, .refl h.inv, .done ps, h.readsRoot, fun _ => .inl⟩
  simp only [mergeFrom, readPayload_eq hpl, hend, bind, Except.bind]
  rfl

/-- Objects on both sides: the recursion. -/
theorem LoopOk.both {fuel : Nat} {q : Bytes} {as bs : List (Bytes × Value)} (hjoin : JoinOk fuel) (hloop : LoopOk fuel)
    (h : Loop s owned iters a x p i D X ps ((q, .object bs) :: qs)) (hv : (q, v) ∈ X)
    (hrv : Reads s v (.object bs)) (hrd : Reads s (getPairs .null q D) (.object as))
    (has : getPairs .null q ps = .object as) (hfuel : sizeOf bs + sizeOf qs < fuel) :
    ∃ s₁ rs s', mergeObjects true fuel s (getPairs .null q D) v = .ok (0, s₁) ∧
      mergeFrom true fuel s₁ (.thing a) p (i + 1) = .ok (0, s') ∧
      Makes s owned iters (s.Touches a D (((q, Value.object bs) :: qs).map Prod.fst)) a x ps
        ((q, .object bs) :: qs) rs s' := by
  have hself := List.mem_cons_self (a := q) (l := qs.map Prod.fst)
  obtain ⟨c, C, hc, hvc, _⟩ := hrd.object
  obtain ⟨b, B, rfl, hvb, _⟩ := hrv.object
  have hmem : q ∈ D.map Prod.fst := by
    rw [h.reads.keys]
    apply Value.mem_keys_of_getPairs h.tidy.keyed
    rw [has]
    nofun
  have hclear : s.Clear (.thing c) (.thing b) := by
    intro b' hb' hin
    have hx := h.going.clear q hself
    rw [hc] at hx
    exact hx b' hb' (h.of_source hv hin)
  have hmerge := h.going.once q hself
  rw [hc] at hrd hmerge
  obtain ⟨cs, s₁, hrun₁, hin⟩ := hjoin s owned iters c b as bs h.inv h.fails hrd hrv (has ▸ h.tidy.get q)
    (h.tidyLeft.item List.mem_cons_self) hmerge hclear (by omega)
  have htidy : Value.Tidy (.object cs) :=
    (hin.merged.joined (has ▸ h.tidy.get q) (h.tidyLeft.item List.mem_cons_self)).tidy
  obtain ⟨hgoes, hsame⟩ := h.join hmem (hc ▸ hin.wrote)
    (fun b' hb' => (hin.grows b' (hc ▸ hb')).imp (hc ▸ id) fun hx => h.of_source hv hx) (hc ▸ hin.reads) htidy
  obtain ⟨rs, s', hrun, hout⟩ := hloop _ _ _ _ _ _ _ _ _ _ _ hgoes (by omega)
  refine ⟨s₁, rs, s', hc ▸ hrun₁, hrun, Makes.join h hc hv has hin hgoes ?_ hout⟩
  exact fun w hlive hcl => hsame w hlive (hc ▸ hcl)

theorem LoopOk.succ {fuel : Nat} (hjoin : JoinOk fuel) (hloop : LoopOk fuel) : LoopOk (fuel + 1) := by
  intro s owned iters a x p i D X ps qs h hfuel
  cases qs with
  | nil => exact LoopOk.nil h
  | cons q qs =>
    obtain ⟨v, pl, key, hpl, hslot, hkey, hv, hrv, _⟩ := h.next
    have hrd : Reads s (getPairs .null q.1 D) (getPairs .null q.1 ps) := h.reads.get reads_null q.1
    have hlt := sizeOf_slot_lt q qs
    have hstep := mergeFrom_next fuel h.inv h.view hpl hslot
    rw [hkey] at hstep
    by_cases hboth : (getPairs .null q.1 ps).IsObject ∧ q.2.IsObject
    · obtain ⟨⟨as, has⟩, bs, hbs⟩ := hboth
      obtain ⟨k, _⟩ := q
      subst hbs
      rw [has] at hrd
      have hobj : ((s.shown (getPairs .null k D) .object).isSome && (s.shown v .object).isSome) = true := by
        rw [hrd.shown_isSome.mpr ⟨as, rfl⟩, hrv.shown_isSome.mpr ⟨bs, rfl⟩]
        rfl
      have hsize : sizeOf (Value.object bs) = 1 + sizeOf bs := Value.object.sizeOf_spec bs
      obtain ⟨s₁, rs, s', hrun₁, hrun, hmakes⟩ := LoopOk.both hjoin hloop h hv hrv hrd has (by
        simp only [hsize] at hlt
        omega)
      refine ⟨rs, s', ?_, hmakes⟩
      rw [hstep, if_pos hobj]
      simp only [hrun₁, bind, Except.bind, ne_eq, not_true_eq_false, if_false]
      exact hrun
    · have hobj : ¬ ((s.shown (getPairs .null q.1 D) .object).isSome && (s.shown v .object).isSome) = true := by
        rw [Bool.and_eq_true, hrd.shown_isSome, hrv.shown_isSome]
        exact hboth
      by_cases hnull : getPairs .null q.1 ps = .null
      · rw [hnull] at hrd
        have hnullD := hrd.eq_null
        have hheld : ∀ b, v = .thing b → s.Held b := by
          rintro b rfl
          exact ⟨p, pl, hpl, mem_children_of_getElem? hslot⟩
        obtain ⟨s₁, s₂, hinc, hset, hw, hview⟩ := h.inv.fill h.fails h.view h.going.free h.keyed
          (h.tidyLeft.keyed.nulFree q List.mem_cons_self) hheld hnullD
        obtain ⟨hgoes, hsame⟩ := h.fill hv hrv hw hview
        obtain ⟨rs, s', hrun, hout⟩ := hloop _ _ _ _ _ _ _ _ _ _ _ hgoes (by omega)
        refine ⟨rs, s', ?_, .fill h hv hnull hw hgoes hsame hout⟩
        rw [hstep, if_neg hobj, if_pos hnullD]
        simp only [hinc, hset, bind, Except.bind, ne_eq, not_true_eq_false, if_false]
        exact hrun
      · have hnullD : getPairs .null q.1 D ≠ .null := by
          intro hd
          rw [hd] at hrd
          exact hnull hrd.tree_null
        obtain ⟨rs, s', hrun, hout⟩ := hloop _ _ _ _ _ _ _ _ _ _ _ h.keep (by omega)
        refine ⟨rs, s', ?_, .keep hnull hboth hout⟩
        rw [hstep, if_neg hobj, if_neg hnullD]
        exact hrun

theorem joinOk (fuel : Nat) : JoinOk fuel ∧ LoopOk fuel := by
  induction fuel with
  | zero =>
    constructor
    · intro s owned iters a x ps qs _ _ _ _ _ _ _ _ hfuel
      exact absurd hfuel (Nat.not_lt_zero _)
    · intro s owned iters a x p i D X ps qs _ hfuel
      cases qs <;> simp at hfuel
  | succ fuel ih => exact ⟨.succ ih.2, .succ ih.1 ih.2⟩

end Store

end SentryNative.Memory
