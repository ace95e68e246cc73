import SentryNative.Memory.MergeAgain

/-!
# What a merge shares

The objects of the source that a merge puts in are not copied. The source changes with
them, and only when a mutator is called on something that is found from it.
-/

namespace SentryNative.Memory

open CLib ObjectMap

namespace Store

variable {s s₁ s' : Store} {owned iters : Nat → Nat} {a p i fuel rv : Nat} {v w dst src : Val} {deep : Bool}
  {key : Bytes}

/-! ## What a merge is called on -/

mutual

/-- The values on which a merge calls `sentry_value_set_by_key`. -/
def mergeTargets (deep : Bool) : Nat → Store → Val → Val → List Val
  | 0, _, _, _ => []
  | fuel + 1, s, dst, src =>
    match s.isObject dst, s.payloadOf src .object, s.isFrozen dst with
    | .ok true, .ok (some p), .ok false => targetsFrom deep fuel s dst p 0
    | _, _, _ => []

def targetsFrom (deep : Bool) : Nat → Store → Val → Nat → Nat → List Val
  | 0, _, _, _, _ => []
  | fuel + 1, s, dst, p, i =>
    match s.payloads p with
    | none => []
    | some pl =>
      match pl.slots[i]? with
      | none => []
      | some (key, srcVal) =>
        let rest := fun (r : Except Fault (Nat × Store)) =>
          match r with
          | .ok (0, s) => targetsFrom deep fuel s dst p (i + 1)
          | _ => []
        let dstVal := s.lookup dst (some (cstr key))
        match s.bothObjects deep dstVal srcVal with
        | .ok true => mergeTargets deep fuel s dstVal srcVal ++ rest (mergeObjects deep fuel s dstVal srcVal)
        | _ =>
          if dstVal = .null then dst :: rest (s.incref srcVal >>= fun s => s.setByKey dst (some (cstr key)) srcVal)
          else rest (.ok (0, s))

end

theorem insert_keeps (h : Inv s owned iters) (hdst : ∀ a, dst = .thing a → s.Live a)
    (hv : ∀ a, v = .thing a → s.Live a) (hnull : s.lookup dst (some (cstr key)) = .null)
    (hinc : s.incref v = .ok s₁) (hset : s₁.setByKey dst (some (cstr key)) v = .ok (rv, s')) :
    Keeps (fun a => dst = .thing a) s s' := by
  obtain ⟨s₁', hinc', h₁, hsame⟩ := h.incref hv
  cases hinc.symm.trans hinc'
  have hquiet := hsame.quiet h₁
  obtain ⟨rv', s'', hset', hmut, _⟩ := h₁.setByKey_spec dst (some (cstr key))
    (fun a ha => hquiet.stays (hdst a ha)) (by
      intro x hx
      rw [lookup_quiet hquiet hdst, hnull] at hx
      cases hx)
  cases hset.symm.trans hset'
  apply (hquiet.keeps.trans hmut.keeps h).mono
  rintro b _ (hw | hw)
  · exact hw.elim
  · exact hw.1

def TargetsOk (deep : Bool) (fuel : Nat) : Prop :=
  ∀ (s : Store) (owned iters : Nat → Nat) (dst src : Val) (rv : Nat) (s' : Store), Inv s owned iters →
    (∀ a, dst = .thing a → s.Live a) → (∀ a, src = .thing a → s.Live a) →
    mergeObjects deep fuel s dst src = .ok (rv, s') →
    Keeps (fun a => .thing a ∈ mergeTargets deep fuel s dst src) s s'

def TargetsLoopOk (deep : Bool) (fuel : Nat) : Prop :=
  ∀ (s : Store) (owned iters : Nat → Nat) (dst : Val) (p i rv : Nat) (s' : Store), Inv s owned iters →
    (∀ a, dst = .thing a → s.Live a) → s.payloads p ≠ none → mergeFrom deep fuel s dst p i = .ok (rv, s') →
    Keeps (fun a => .thing a ∈ targetsFrom deep fuel s dst p i) s s'

theorem TargetsOk.succ (hloop : TargetsLoopOk deep fuel) : TargetsOk deep (fuel + 1) := by
  intro s owned iters dst src rv s' h hdst hsrc hrun
  unfold mergeObjects at hrun
  split at hrun
  · cases hrun
    exact .refl s
  obtain ⟨obj, hobj, hrun⟩ := bind_ok hrun
  cases obj with
  | false =>
    cases hrun
    exact .refl s
  | true =>
    obtain ⟨r, hr, hrun⟩ := bind_ok hrun
    cases r with
    | none =>
      cases hrun
      exact .refl s
    | some p =>
      obtain ⟨fr, hfr, hrun⟩ := bind_ok hrun
      cases fr with
      | true =>
        cases hrun
        exact .refl s
      | false =>
        obtain ⟨r', hr', _, hsome⟩ := h.payloadOf .object hsrc
        cases hr.symm.trans hr'
        have hp : s.payloads p ≠ none := by
          cases hshown : s.shown src .object with
          | none =>
            obtain ⟨_, hr'', hnone, _⟩ := h.payloadOf .object hsrc
            cases hr.symm.trans hr''
            cases hnone hshown
          | some slots =>
            obtain ⟨_, _, _, pl, heq, _, _, _, hpl, _⟩ := hsome slots hshown
            cases heq
            exact Option.ne_none_iff_exists'.mpr ⟨pl, hpl⟩
        simp only [mergeTargets, hobj, hr, hfr]
        exact hloop s owned iters dst p 0 rv s' h hdst hp hrun

theorem TargetsLoopOk.succ (hmerge : TargetsOk deep fuel) (hloop : TargetsLoopOk deep fuel) :
    TargetsLoopOk deep (fuel + 1) := by
  intro s owned iters dst p i rv s' h hdst hp hrun
  obtain ⟨pl, hpl⟩ := Option.ne_none_iff_exists'.mp hp
  simp only [mergeFrom, readPayload_eq hpl, bind, Except.bind] at hrun
  simp only [targetsFrom, hpl]
  cases hslot : pl.slots[i]? with
  | none =>
    rw [hslot] at hrun
    cases hrun
    exact .refl s
  | some slot =>
    obtain ⟨key, srcVal⟩ := slot
    have hsrc : ∀ x, srcVal = .thing x → s.Live x := by
      rintro x rfl
      exact live_iff.mpr (h.live_of_slot hpl (mem_children_of_getElem? hslot))
    have hlive := h.live_lookup (v := dst) (some (cstr key))
    obtain ⟨both, hboth⟩ := h.bothObjects deep hlive hsrc
    simp only [hslot, h.getByKey hdst (some (cstr key)), hboth] at hrun ⊢
    -- the rest of the loop, from a state that has all cells
    have hrest : ∀ s₁ W, Store.Merged s owned iters s₁ → Keeps W s s₁ → mergeFrom deep fuel s₁ dst p (i + 1) = .ok (rv, s') →
        Keeps (fun a => W a ∨ .thing a ∈ targetsFrom deep fuel s₁ dst p (i + 1)) s s' := by
      intro s₁ W hm hk hrun₁
      exact hk.trans (hloop s₁ owned iters dst p (i + 1) rv s' hm.inv (fun a ha => hm.stays.things a (hdst a ha))
        (hm.stays.payloads p hp) hrun₁) h
    cases both with
    | true =>
      simp only [if_true] at hrun
      obtain ⟨⟨rv₁, s₁⟩, hrun₁, hrun⟩ := bind_ok (x := mergeObjects deep fuel s _ srcVal) hrun
      have hk := hmerge s owned iters _ srcVal rv₁ s₁ h hlive hsrc hrun₁
      rcases (mergeOk deep fuel).1 s owned iters _ srcVal h hlive hsrc with herr | ⟨_, _, hrun₁', hm⟩
      · cases hrun₁.symm.trans herr
      cases hrun₁.symm.trans hrun₁'
      simp only [hrun₁, List.mem_append]
      by_cases hrv : rv₁ = 0
      · subst hrv
        simp only [ne_eq, not_true_eq_false, if_false] at hrun
        exact hrest s₁ _ hm hk hrun
      · simp only [ne_eq, hrv, not_false_eq_true, if_true] at hrun
        cases hrun
        exact hk.mono fun _ _ => .inl
    | false =>
      simp only [Bool.false_eq_true, if_false] at hrun
      by_cases hnull : s.lookup dst (some (cstr key)) = .null
      · simp only [hnull, if_true] at hrun ⊢
        obtain ⟨s₁, rv₁, s₂, hinc, hset, hm⟩ := Merged.insert h hdst hpl hslot hnull
        have hk := insert_keeps h hdst hsrc hnull hinc hset
        simp only [hinc, hset, bind, Except.bind, List.mem_cons] at hrun ⊢
        by_cases hrv : rv₁ = 0
        · subst hrv
          simp only [ne_eq, not_true_eq_false, if_false] at hrun
          exact (hrest s₂ _ hm hk hrun).mono fun _ _ hw => hw.imp Eq.symm id
        · simp only [ne_eq, hrv, not_false_eq_true, if_true] at hrun
          cases hrun
          exact hk.mono fun _ _ hw => .inl hw.symm
      · simp only [hnull, if_false] at hrun ⊢
        exact (hrest s (fun _ => False) (.refl h) (.refl s) hrun).mono fun _ _ hw => hw.resolve_left id

/-- A merge changes nothing but what it calls `sentry_value_set_by_key` on. -/
theorem targetsOk (deep : Bool) (fuel : Nat) : TargetsOk deep fuel ∧ TargetsLoopOk deep fuel := by
  induction fuel with
  | zero =>
    constructor
    · intro s _ _ dst src rv s' _ _ _ hrun
      unfold mergeObjects at hrun
      cases hrun
    · intro s _ _ dst p i rv s' _ _ _ hrun
      unfold mergeFrom at hrun
      cases hrun
  | succ fuel ih => exact ⟨.succ ih.2, .succ ih.1 ih.2⟩

end Store

namespace Caller

open Store

variable {c c' c₁ c₂ : Caller} {lost : Nat → Nat} {v w dst src : Val}

/-! ## What leaves a value alone -/

/-- A call after which a value denotes what it did: a mutator on something that is not
found from the value, a merge that calls `sentry_value_set_by_key` on nothing that is
found from it, or a call that is not for changing a value. -/
inductive Beside (w : Val) : Caller → Caller → Prop
  | change {c : Caller} {value : Val} {ch : Change} {rv : Nat} {s' : Store} : c.MayUse value → c.Owns ch.given →
    ¬ c.store.Within w value → ch.run c.store value = .ok (rv, s') → Beside w c (c.gives ch.given s')
  | merge {c : Caller} {deep : Bool} {fuel : Nat} {dst other : Val} {rv : Nat} {s' : Store} : c.MayUse dst →
    c.MayUse other → (∀ v ∈ mergeTargets deep fuel c.store dst other, ¬ c.store.Within w v) →
    mergeObjects deep fuel c.store dst other = .ok (rv, s') → Beside w c (c.goes s')
  | aside {c c' : Caller} : Aside c c' → Beside w c c'

theorem Sound.merged {deep : Bool} {fuel rv : Nat} {s' : Store} (hs : Sound c lost) (hdst : c.MayUse dst)
    (hsrc : c.MayUse src) (hrun : Store.mergeObjects deep fuel c.store dst src = .ok (rv, s')) :
    Sound (c.goes s') lost ∧ Keeps (fun a => .thing a ∈ mergeTargets deep fuel c.store dst src) c.store s' := by
  rcases (mergeOk deep fuel).1 _ _ _ _ _ hs.inv (hs.live hdst) (hs.live hsrc) with herr | ⟨_, _, hrun', hm⟩
  · cases hrun.symm.trans herr
  cases hrun.symm.trans hrun'
  refine ⟨⟨hm.inv, hs.closed.evolves hm.evolves hm.inv⟩, ?_⟩
  exact (targetsOk deep fuel).1 _ _ _ _ _ _ _ hs.inv (hs.live hdst) (hs.live hsrc) hrun

theorem Beside.unmoved (h : Beside w c c') (hs : Sound c lost) (hw : ∀ a, w = .thing a → a < c.store.nextThing) :
    Sound c' lost ∧ Unmoved c c' w ∧ ∀ a, w = .thing a → a < c'.store.nextThing := by
  cases h with
  | change hval hv hnot hrun =>
    obtain ⟨hm, hs'⟩ := hs.mutated hval hv hrun
    refine ⟨hs', .of_keeps hs hs' hm.keeps hw ?_, fun a ha => Nat.lt_of_lt_of_le (hw a ha) hm.keeps.next⟩
    rintro a ha ⟨rfl, _⟩
    exact hnot ha
  | merge hdst hsrc hnot hrun =>
    obtain ⟨hs', hk⟩ := hs.merged hdst hsrc hrun
    exact ⟨hs', .of_keeps hs hs' hk hw fun a ha hmem => hnot _ hmem ha,
      fun a ha => Nat.lt_of_lt_of_le (hw a ha) hk.next⟩
  | aside h =>
    obtain ⟨hs', hk, _⟩ := h.calm hs
    exact ⟨hs', .of_keeps hs hs' hk hw fun _ _ => id, fun a ha => Nat.lt_of_lt_of_le (hw a ha) hk.next⟩

theorem Beside.run (h : Relation.ReflTransGen (Beside w) c c') (hs : Sound c lost)
    (hw : ∀ a, w = .thing a → a < c.store.nextThing) :
    Sound c' lost ∧ Unmoved c c' w ∧ ∀ a, w = .thing a → a < c'.store.nextThing := by
  induction h with
  | refl => exact ⟨hs, fun hlive => ⟨hlive, fun _ => Iff.rfl⟩, hw⟩
  | tail _ hstep ih =>
    obtain ⟨hs₁, hun₁, hw₁⟩ := ih
    obtain ⟨hs', hun', hw'⟩ := hstep.unmoved hs₁ hw₁
    exact ⟨hs', hun₁.trans hun', hw'⟩

/-! ## Deep merges -/

/-- In every state that a caller can come to, with no allocation that fails, for two
objects with distinct keys and no object that is found from the first one frozen, found
in two places or found from the second: the merge returns 0; the first object then
denotes the merged tree and the second what it did; to merge the second again changes no
tree; and the second denotes what it did for as long as no mutator is called on what is
found from it. -/
theorem deep_merge (fails : Nat → Bool) (c : Caller) (hrun : Run fails c) (hmem : c.store.fails = fun _ => false)
    (dst src : Val) (ps qs : List (Bytes × Value)) (hdst : c.MayUse dst) (hsrc : c.MayUse src)
    (hps : c.store.Reads dst (.object ps)) (hqs : c.store.Reads src (.object qs)) (htps : Value.Tidy (.object ps))
    (htqs : Value.Tidy (.object qs)) (hm : c.store.Mergeable dst) (hclear : c.store.Clear dst src) (fuel : Nat)
    (hfuel : sizeOf qs < fuel) :
    ∃ tree s₁, mergeObjects true fuel c.store dst src = .ok (0, s₁) ∧
      Value.Merged (.object ps) (.object qs) tree ∧ s₁.Denotes dst tree ∧
      (∀ t, s₁.Denotes src t ↔ c.store.Denotes src t) ∧
      (∃ rv s₂, mergeObjects true fuel s₁ dst src = .ok (rv, s₂) ∧
        ∀ v, (c.goes s₁).Alive v → ∀ t, s₂.Denotes v t ↔ s₁.Denotes v t) ∧
      ∀ c₂, Relation.ReflTransGen (Beside src) (c.goes s₁) c₂ → c₂.Alive src →
        ∀ t, c₂.store.Denotes src t ↔ c.store.Denotes src t := by
  obtain ⟨lost, hs⟩ := hrun.sound
  have hlive := hs.live hsrc
  obtain ⟨a, D, rfl, _⟩ := hps.object
  obtain ⟨x, X, rfl, _⟩ := hqs.object
  obtain ⟨rs, s₁, hmerge, hmakes⟩ := (joinOk fuel).1 _ _ _ a x ps qs hs.inv hmem hps hqs htps htqs hm hclear hfuel
  have hjoined := hmakes.merged.joined htps htqs
  have hs₁ : Sound (c.goes s₁) lost := (hs.merged hdst hsrc hmerge).1
  have hview := hmakes.wrote.within_view hs.inv hlive fun b hb hobj => hclear b hobj hb
  have hsame : ∀ t, s₁.Denotes (.thing x) t ↔ c.store.Denotes (.thing x) t := fun t => denotes_iff hview
  refine ⟨.object rs, s₁, hmerge, hjoined.merged, hmakes.reads.denotes, hsame, ?_, ?_⟩
  · obtain ⟨rv, s₂, hagain, hstill⟩ := (againOk fuel).1 s₁ _ _ a x rs qs hs₁.inv hmakes.reads (hqs.congr hview)
      hjoined.tidy htqs (hjoined.merged.covers htqs) hfuel
    refine ⟨rv, s₂, hagain, ?_⟩
    intro v hv t
    apply denotes_iff
    exact fun b hb => hstill.view (hb.live hs₁.inv hv b rfl)
  · intro c₂ hsteps hlive₂ t
    obtain ⟨_, hun, _⟩ := Beside.run hsteps hs₁ fun b hb =>
      Nat.lt_of_lt_of_le (hs.inv.live_lt (hlive b hb)) hmakes.wrote.keeps.next
    exact ((hun hlive₂).2 t).trans (hsame t)

/-! ## Small states -/

/-- Whether the caller owns what a call takes and changes; only the calls by which objects
are made and filled are looked at. -/
def checks (c : Caller) : Call → Bool
  | .newContainer _ => true
  | .incref (.thing a) => 0 < c.owned a
  | .change (.thing a) (.setByKey _ (.thing b)) => 0 < c.owned a && 0 < c.owned b
  | .change (.thing a) (.setByKey _ .null) => 0 < c.owned a
  | .change (.thing a) (.setByKey _ (.int32 _)) => 0 < c.owned a
  | _ => false

/-- The state after some calls. -/
def after (c : Caller) : List Call → Option Caller
  | [] => some c
  | k :: ks =>
    if c.checks k then
      match c.call k with
      | .ok c' => c'.after ks
      | .error _ => none
    else none

theorem follows_of_checks {k : Call} (h : c.checks k = true) : c.Follows k := by
  unfold checks at h
  split at h
  · trivial
  · exact mayUse_of_owned (of_decide_eq_true h)
  · simp only [Bool.and_eq_true, decide_eq_true_eq] at h
    refine ⟨mayUse_of_owned h.1, ?_⟩
    rintro b ⟨⟩
    exact h.2
  · exact ⟨mayUse_of_owned (of_decide_eq_true h), nofun⟩
  · exact ⟨mayUse_of_owned (of_decide_eq_true h), nofun⟩
  · cases h

theorem Run.after {fails : Nat → Bool} {ks : List Call} (h : Run fails c) (hrun : c.after ks = some c') :
    Run fails c' := by
  induction ks generalizing c with
  | nil =>
    cases hrun
    exact h
  | cons k ks ih =>
    unfold Caller.after at hrun
    split at hrun
    · rename_i hk
      split at hrun
      · rename_i c₁ hcall
        exact ih (.step h (follows_of_checks hk) hcall) hrun
      · cases hrun
    · cases hrun

def aKey : Bytes := [97]
def bKey : Bytes := [98]
def xKey : Bytes := [120]

def put (a : Nat) (k : Bytes) (v : Val) : Call := .change (.thing a) (.setByKey (some k) v)

/-- The state after some calls, when they can be made. -/
def reached (fails : Nat → Bool) (ks : List Call) : Caller := ((start fails).after ks).getD (start fails)

theorem reached_run (fails : Nat → Bool) (ks : List Call) : Run fails (reached fails ks) := by
  unfold reached
  cases h : (start fails).after ks with
  | none => exact .start
  | some c => exact Run.after .start h

/-- An empty object; an object with an empty one; and an object with one that has a
number. -/
def threeObjects : Caller :=
  reached (fun _ => false) (List.replicate 5 (.newContainer .object) ++
    [put 1 aKey (.thing 2), put 4 xKey (.int32 1), put 3 aKey (.thing 4)])

section

variable {s : Store} {a b : Nat} {k : Bytes} {t : Value} {kind : Kind}

theorem within_empty (hv : s.view a = some (.container kind [])) (h : s.Within (.thing a) w) : w = .thing a := by
  rcases h.head with rfl | ⟨_, _, slots, slot, heq, hv', hslot, _⟩
  · rfl
  · cases heq
    cases hv.symm.trans hv'
    cases hslot

/-- From an object that has one empty object only, the two are found. -/
theorem within_flat {D : List (Bytes × Val)} (hv : s.view a = some (.container kind D))
    (hD : ∀ slot ∈ D, slot.2 = .thing b) (hb : s.view b = some (.container .object []))
    (h : s.Within (.thing a) w) : w = .thing a ∨ w = .thing b := by
  rcases h.head with rfl | ⟨_, _, slots, slot, heq, hv', hslot, hin⟩
  · exact .inl rfl
  · cases heq
    cases hv.symm.trans hv'
    rw [hD slot hslot] at hin
    exact .inr (within_empty hb hin)

/-- The two are not frozen. -/
theorem unfrozen_flat {D : List (Bytes × Val)} (hv : s.view a = some (.container kind D))
    (hD : ∀ slot ∈ D, slot.2 = .thing b) (hb : s.view b = some (.container .object []))
    (ha : s.isFrozen (.thing a) = .ok false) (hfb : s.isFrozen (.thing b) = .ok false) :
    ∀ c, s.Objects (.thing a) c → ¬ s.Frozen c := by
  rintro c ⟨hc, _⟩ hf
  rcases within_flat hv hD hb hc with heq | heq
  · cases heq
    cases ha.symm.trans hf.isFrozen
  · cases heq
    cases hfb.symm.trans hf.isFrozen

theorem denotes_empty (hv : s.view a = some (.container .object [])) : s.Denotes (.thing a) (.object []) :=
  .object hv rfl nofun

theorem denotes_pair {u v : Val} {k₁ k₂ : Bytes} {t₁ t₂ : Value}
    (hv : s.view a = some (.container .object [(k₁, u), (k₂, v)])) (h₁ : s.Denotes u t₁) (h₂ : s.Denotes v t₂) :
    s.Denotes (.thing a) (.object [(k₁, t₁), (k₂, t₂)]) := by
  refine .object hv rfl ?_
  intro i slot pair hslot hpair
  match i with
  | 0 =>
    cases hslot
    cases hpair
    exact h₁
  | 1 =>
    cases hslot
    cases hpair
    exact h₂
  | i + 2 => cases hslot

theorem denotes_one (hv : s.view a = some (.container .object [(k, v)])) (h : s.Denotes v t) :
    s.Denotes (.thing a) (.object [(k, t)]) := by
  refine .object hv rfl ?_
  intro i slot pair hslot hpair
  match i with
  | 0 =>
    cases hslot
    cases hpair
    exact h
  | i + 1 => cases hslot

/-- What has a slot denotes no empty object. -/
theorem not_denotes_empty {D : List (Bytes × Val)} {slot : Bytes × Val}
    (hv : s.view a = some (.container .object (slot :: D))) : ¬ s.Denotes (.thing a) (.object []) := by
  intro h
  cases h with
  | leaf hv' => cases hv.symm.trans hv'
  | object hv' hkeys =>
    cases hv.symm.trans hv'
    cases hkeys

theorem denotes_at {D : List (Bytes × Val)} {ps : List (Bytes × Value)} {i : Nat} {slot : Bytes × Val}
    {pair : Bytes × Value} (hv : s.view a = some (.container .object D)) (h : s.Denotes (.thing a) (.object ps))
    (hslot : D[i]? = some slot) (hpair : ps[i]? = some pair) : s.Denotes slot.2 pair.2 := by
  cases h with
  | leaf hv' => cases hv.symm.trans hv'
  | object hv' _ hslots =>
    cases hv.symm.trans hv'
    exact hslots i slot pair hslot hpair

end

theorem deep_merge_empty : ∃ tree s₁,
    mergeObjects true (sizeOf [(aKey, Value.object [])] + 1) threeObjects.store (.thing 0) (.thing 1) = .ok (0, s₁) ∧
      Value.Merged (.object []) (.object [(aKey, .object [])]) tree ∧ s₁.Denotes (.thing 0) tree := by
  have hsrc : threeObjects.store.Within (.thing 1) (.thing 0) → False := by
    intro h
    rcases within_flat (D := [(aKey, .thing 2)]) (b := 2) rfl (by decide) rfl h with heq | heq
    · cases heq
    · cases heq
  have hinner : threeObjects.store.Reads (.thing 2) (.object []) := .of_matches rfl .nil
  have hempty : Value.Tidy (.object []) := .object .nil nofun
  obtain ⟨tree, s₁, hrun, hmerged, hdst, _⟩ := deep_merge _ threeObjects (reached_run _ _) rfl (.thing 0) (.thing 1) []
    [(aKey, .object [])] (mayUse_of_owned (by decide)) (mayUse_of_owned (by decide)) (.of_matches rfl .nil)
    (.of_matches rfl (.cons ⟨rfl, hinner⟩ .nil)) hempty
    (.object ⟨by decide, by decide⟩ (by
      intro p hp
      cases List.mem_singleton.mp hp
      exact hempty))
    ⟨(by
      rintro a ⟨ha, _⟩
      cases within_empty (s := threeObjects.store) rfl ha
      rintro ⟨_, ht, hf⟩
      cases ht
      cases hf), (by
      intro b slots hb hv slot hslot
      cases within_empty (s := threeObjects.store) rfl hb
      cases hv
      cases hslot)⟩
    (by
      rintro a ⟨ha, _⟩
      cases within_empty (s := threeObjects.store) rfl ha
      exact hsrc) _ (Nat.lt_succ_self _)
  exact ⟨tree, s₁, hrun, hmerged, hdst⟩

/-- An object that has an empty one at two keys, and one that has a number below the first
of these. -/
def twoPlaces : Caller :=
  reached (fun _ => false) (List.replicate 4 (.newContainer .object) ++
    [.incref (.thing 1), put 0 aKey (.thing 1), put 0 bKey (.thing 1), put 3 xKey (.int32 1), put 2 aKey (.thing 3)])

/-- An object that has an empty one, which the other object has at another key. -/
def twoOwners : Caller :=
  reached (fun _ => false) (List.replicate 4 (.newContainer .object) ++
    [.incref (.thing 1), put 0 aKey (.thing 1), put 3 xKey (.int32 1), put 2 aKey (.thing 3), put 2 bKey (.thing 1)])

/-- An empty object and one with a number, and no more memory. -/
def noMemory : Caller :=
  reached (fun n => decide (6 ≤ n)) (List.replicate 2 (.newContainer .object) ++ [put 1 xKey (.int32 1)])

/-- Where no object that is found is frozen: what was put in is shared, so that a later
merge changes the source; an object in two places, or one that the source has too, is
merged there as well; and without memory the merge fails. -/
theorem deep_merge_shares :
    (¬ ∀ c, Run (fun _ => false) c → ∀ dst src other fuel s₁ rv s₂, c.MayUse dst → c.MayUse src → c.MayUse other →
      (∀ a, c.store.Objects dst a → ¬ c.store.Frozen a) → mergeObjects true fuel c.store dst src = .ok (0, s₁) →
      mergeObjects true fuel s₁ dst other = .ok (rv, s₂) → ∀ t, s₂.Denotes src t ↔ c.store.Denotes src t) ∧
    (¬ ∀ c, Run (fun _ => false) c → ∀ dst src ps qs fuel s₁, c.MayUse dst → c.MayUse src →
      (∀ a, c.store.Objects dst a → ¬ c.store.Frozen a) → c.store.Denotes dst (.object ps) →
      c.store.Denotes src (.object qs) → mergeObjects true fuel c.store dst src = .ok (0, s₁) →
      ∃ tree, Value.Merged (.object ps) (.object qs) tree ∧ s₁.Denotes dst tree) ∧
    (¬ ∀ c, Run (fun _ => false) c → ∀ dst src fuel s₁, c.MayUse dst → c.MayUse src →
      (∀ a, c.store.Objects dst a → ¬ c.store.Frozen a) → mergeObjects true fuel c.store dst src = .ok (0, s₁) →
      ∀ t, s₁.Denotes src t ↔ c.store.Denotes src t) ∧
    ¬ ∀ fails c, Run fails c → ∀ dst src fuel rv s₁, c.MayUse dst → c.MayUse src →
      (∀ a, c.store.Objects dst a → ¬ c.store.Frozen a) → mergeObjects true fuel c.store dst src = .ok (rv, s₁) →
      rv = 0 := by
  refine ⟨?_, ?_, ?_, ?_⟩
  · intro h
    have hsame := h threeObjects (reached_run _ _) (.thing 0) (.thing 1) (.thing 3) 9 _ _ _
      (mayUse_of_owned (by decide)) (mayUse_of_owned (by decide)) (mayUse_of_owned (by decide)) (by
        rintro a ⟨ha, _⟩ ⟨_, ht, hf⟩
        cases within_empty (s := threeObjects.store) rfl ha
        cases ht
        cases hf) rfl rfl (.object [(aKey, .object [])])
    have hafter := hsame.mpr (denotes_one (v := .thing 2) rfl (denotes_empty rfl))
    exact not_denotes_empty rfl (denotes_at (i := 0) rfl hafter rfl rfl)
  · intro h
    obtain ⟨tree, hmerged, hafter⟩ := h twoPlaces (reached_run _ _) (.thing 0) (.thing 2)
      [(aKey, .object []), (bKey, .object [])] [(aKey, .object [(xKey, .int32 1)])] 9 _ (mayUse_of_owned (by decide))
      (mayUse_of_owned (by decide))
      (unfrozen_flat (D := [(aKey, .thing 1), (bKey, .thing 1)]) (b := 1) rfl (by decide) rfl rfl rfl)
      (denotes_pair (u := .thing 1) (v := .thing 1) rfl (denotes_empty rfl) (denotes_empty rfl))
      (denotes_one (v := .thing 3) rfl (denotes_one (v := .int32 1) rfl .int32)) rfl
    cases hmerged with
    | kept _ hnot => exact hnot ⟨⟨_, rfl⟩, _, rfl⟩
    | @joined _ _ rs hkeys _ hrest =>
      -- the second key of what was merged is left alone
      have hkeys' : rs.map Prod.fst = [aKey, bKey] := hkeys.trans rfl
      obtain ⟨r₁, r₂, rfl⟩ : ∃ r₁ r₂, rs = [(aKey, r₁), (bKey, r₂)] := by
        match rs, hkeys' with
        | [(_, r₁), (_, r₂)], hkeys' =>
          cases hkeys'
          exact ⟨r₁, r₂, rfl⟩
      have hempty : r₂ = .object [] := hrest bKey (by decide)
      subst hempty
      exact not_denotes_empty rfl (denotes_at (i := 1) rfl hafter rfl rfl)
  · intro h
    have hsame := h twoOwners (reached_run _ _) (.thing 0) (.thing 2) 9 _ (mayUse_of_owned (by decide))
      (mayUse_of_owned (by decide))
      (unfrozen_flat (D := [(aKey, .thing 1)]) (b := 1) rfl (by decide) rfl rfl rfl) rfl
      (.object [(aKey, .object [(xKey, .int32 1)]), (bKey, .object [])])
    have hafter := hsame.mpr (denotes_pair (u := .thing 3) (v := .thing 1) rfl
      (denotes_one (v := .int32 1) rfl .int32) (denotes_empty rfl))
    exact not_denotes_empty rfl (denotes_at (i := 1) rfl hafter rfl rfl)
  · intro h
    have hrv := h _ noMemory (reached_run _ _) (.thing 0) (.thing 1) 9 1 _ (mayUse_of_owned (by decide))
      (mayUse_of_owned (by decide)) (by
        rintro a ⟨ha, _⟩ ⟨_, ht, hf⟩
        cases within_empty (s := noMemory.store) rfl ha
        cases ht
        cases hf) rfl
    cases hrv

end Caller

end SentryNative.Memory
