import SentryNative.Memory.Allocation
import SentryNative.Memory.Frozen

/-!
# Clones are copies

`sentry__value_clone` shares payloads, leaves and counts, but no container that could
change: the clone has containers of its own, and a mutator writes to a payload only once
the container it is called on has it for itself. Seen from outside, the clone is a deep
copy.
-/

namespace SentryNative.Memory

open CLib ObjectMap

theorem mem_of_mem_removePairs {V : Type} {k : Bytes} {ps : List (Bytes × V)} {p : Bytes × V}
    (h : p ∈ (removePairs k ps).getD ps) : p ∈ ps := by
  induction ps with
  | nil => exact h
  | cons first ps ih =>
    obtain ⟨stored, w⟩ := first
    simp only [removePairs] at h
    split at h
    · exact List.mem_cons_of_mem _ h
    · cases hrem : removePairs k ps with
      | none =>
        rw [hrem] at h
        exact h
      | some rest =>
        rw [hrem] at h ih
        rcases List.mem_cons.mp h with rfl | hmem
        · exact List.mem_cons_self
        · exact List.mem_cons_of_mem _ (ih hmem)

namespace Store

variable {s s' : Store} {owned owned' iters iters' : Nat → Nat} {a m n : Nat} {v w c x : Val} {tree : Value}

/-! ## What may change -/

/-- A container that a mutator can change. -/
def Mutable (s : Store) (a : Nat) : Prop := ¬ s.Frozen a ∧ ∃ kind slots, s.view a = some (.container kind slots)

/-- No container that can change is found from both values. -/
def Separate (s : Store) (v w : Val) : Prop :=
  ∀ a, s.Within v (.thing a) → s.Within w (.thing a) → ¬ s.Mutable a

theorem Separate.symm (h : Separate s v w) : Separate s w v := fun a ha ha' => h a ha' ha

/-- Of what looks the same, no more can change than before. -/
theorem Keeps.mutable {W : Nat → Prop} (hk : Keeps W s s') (hview : s'.view a = s.view a) (h : s'.Mutable a) :
    s.Mutable a := by
  obtain ⟨hf, kind, slots, hv⟩ := h
  refine ⟨fun hfr => hf (hk.frozen a hfr (live_of_view hv)), kind, slots, ?_⟩
  exact hview.symm.trans hv

/-- A mutator changes nothing but a container that can change. -/
theorem Mutated.keepsMutable {kind : Kind} {f : List (Bytes × Val) → List (Bytes × Val)} {rv : Nat}
    (h : Mutated s owned iters v kind f rv s') : Keeps (fun a => v = .thing a ∧ s.Mutable a) s s' := by
  by_cases hrv : rv = 0
  · obtain ⟨a, slots, hval, hf, hv, _⟩ := h.done hrv
    apply h.keeps.mono
    rintro b _ ⟨hb, _⟩
    cases hval.symm.trans hb
    exact ⟨hval, hf, kind, slots, hv⟩
  · exact (h.failed hrv).mono fun _ _ hw => hw.elim

/-! ## Copies denote the same -/

/-- Two values that differ in the addresses of their containers only. -/
inductive Alike (s : Store) : Val → Val → Prop
  | same {v : Val} : (∀ a kind slots, v = .thing a → s.view a ≠ some (.container kind slots)) → Alike s v v
  | container {a b : Nat} {kind : Kind} {xs ys : List (Bytes × Val)} :
    s.view a = some (.container kind xs) → s.view b = some (.container kind ys) →
    xs.map Prod.fst = ys.map Prod.fst →
    (∀ (i : Nat) (x y : Bytes × Val), xs[i]? = some x → ys[i]? = some y → Alike s x.2 y.2) →
    Alike s (.thing a) (.thing b)

theorem Copy.alike (h : Copy s m n v c) : Alike s v c := by
  induction h with
  | scalar hv => exact .same fun a _ _ ha => absurd ha (hv a)
  | leaf _ hv =>
    apply Alike.same
    rintro a kind slots ⟨⟩ hc
    cases hv.symm.trans hc
  | container _ _ hva hvb hkeys _ ih => exact .container hva hvb hkeys ih

theorem Alike.symm (h : Alike s v w) : Alike s w v := by
  induction h with
  | same hv => exact .same hv
  | container hva hvb hkeys _ ih => exact .container hvb hva hkeys.symm fun i y x hy hx => ih i x y hx hy

theorem getElem?_of_map_eq {α β : Type} {f : α → β} {xs ys : List α} {i : Nat} {y : α}
    (h : xs.map f = ys.map f) (hy : ys[i]? = some y) : ∃ x, xs[i]? = some x := by
  have hlen := congrArg List.length h
  rw [List.length_map, List.length_map] at hlen
  have hlt := (List.getElem?_eq_some_iff.mp hy).1
  exact ⟨_, List.getElem?_eq_getElem (hlen ▸ hlt)⟩

theorem Alike.denotes (h : Alike s v w) (hd : Denotes s v tree) : Denotes s w tree := by
  induction h generalizing tree with
  | same => exact hd
  | container hva hvb hkeys _ ih =>
    cases hd with
    | leaf hv => cases hva.symm.trans hv
    | list hv hlen hitems =>
      cases hva.symm.trans hv
      have hlen' := congrArg List.length hkeys
      rw [List.length_map, List.length_map] at hlen'
      apply Denotes.list hvb (hlen'.symm.trans hlen)
      intro i slot item hslot hitem
      obtain ⟨orig, horig⟩ := getElem?_of_map_eq hkeys hslot
      exact ih i orig slot horig hslot (hitems i orig item horig hitem)
    | object hv hkeys' hpairs =>
      cases hva.symm.trans hv
      apply Denotes.object hvb (hkeys.symm.trans hkeys')
      intro i slot pair hslot hpair
      obtain ⟨orig, horig⟩ := getElem?_of_map_eq hkeys hslot
      exact ih i orig slot horig hslot (hpairs i orig pair horig hpair)

theorem Copy.denotes_iff (h : Copy s m n v c) : Denotes s c tree ↔ Denotes s v tree :=
  ⟨h.alike.symm.denotes, h.alike.denotes⟩

/-- All that is found from a copy is a copy. -/
theorem Copy.within (h : Copy s m n v c) (hw : Within s c w) : ∃ u, Copy s m n u w := by
  induction hw with
  | refl => exact ⟨v, h⟩
  | slot _ hview hmem ih =>
    obtain ⟨u, hu⟩ := ih
    cases hu with
    | scalar hv => exact absurd rfl (hv _)
    | leaf _ hv => cases hview.symm.trans hv
    | container _ _ _ hvb hkeys hslots =>
      cases hview.symm.trans hvb
      obtain ⟨i, hi⟩ := List.getElem?_of_mem hmem
      obtain ⟨orig, horig⟩ := getElem?_of_map_eq hkeys hi
      exact ⟨_, hslots i orig _ horig hi⟩

/-- What can change of a copy is new. -/
theorem Copy.new (h : Copy s m n v c) (hw : Within s c (.thing a)) (hm : s.Mutable a) : n ≤ a := by
  obtain ⟨u, hu⟩ := h.within hw
  obtain ⟨_, kind, slots, hv⟩ := hm
  cases hu with
  | scalar hs => exact absurd rfl (hs a)
  | leaf _ hl => cases hl.symm.trans hv
  | container _ hb => exact hb

/-! ## What stays apart -/

theorem Within.lt (h : Within s v (.thing a)) (hi : Inv s owned iters) (hv : ∀ b, v = .thing b → b < s.nextThing) :
    a < s.nextThing := by
  cases h with
  | refl => exact hv a rfl
  | slot _ hview hmem => exact hi.live_lt (hi.live_of_view hview (List.mem_filterMap.mpr ⟨_, hmem, rfl⟩))

theorem Within.of_scalar (h : Within s v w) (hv : ∀ a, v ≠ .thing a) : w = v := by
  induction h with
  | refl => rfl
  | slot _ _ _ ih => exact absurd ih.symm (hv _)

/-- Only from a live value is a live thing found. -/
theorem Within.root_live (h : Within s v w) (hw : ∀ a, w = .thing a → s.Live a) : ∀ a, v = .thing a → s.Live a := by
  induction h with
  | refl => exact hw
  | slot _ hview _ ih =>
    apply ih
    rintro b ⟨⟩
    exact live_of_view hview

/-- The slots of what changes: what was there, and what is given. -/
def Feeds (s s' : Store) (W : Nat → Prop) (given : Val) : Prop :=
  ∀ a kind slots', W a → s'.view a = some (.container kind slots') → ∀ key b, (key, Val.thing b) ∈ slots' →
    (∃ key' kind slots, s.view a = some (.container kind slots) ∧ (key', Val.thing b) ∈ slots) ∨ given = .thing b

/-- What is found after a change was found before, or was given. -/
theorem Keeps.within_before {W : Nat → Prop} (hk : Keeps W s s') (hi : Inv s owned iters) (hfeed : Feeds s s' W x)
    (hv : ∀ b, v = .thing b → b < s.nextThing) (hx : ∀ b, x = .thing b → b < s.nextThing) (h : Within s' v w) :
    ∀ a, w = .thing a → Within s v (.thing a) ∨ Within s x (.thing a) := by
  induction h with
  | refl =>
    rintro a rfl
    exact .inl .refl
  | @slot b kind slots key w hb hview hmem ih =>
    rintro a rfl
    have hbefore := ih b rfl
    have hlt : b < s.nextThing := hbefore.elim (fun h => h.lt hi hv) fun h => h.lt hi hx
    have hlive : s.Live b := (hk.old b (live_of_view hview)).resolve_right (Nat.not_le.mpr hlt)
    by_cases hW : W b
    · rcases hfeed b kind slots hW hview key a hmem with ⟨key', kind', slots', hold, hmem'⟩ | rfl
      · exact hbefore.imp (fun h => h.slot hold hmem') fun h => h.slot hold hmem'
      · exact .inr .refl
    · have hold := (hk.view b hlive (live_of_view hview) hW).symm.trans hview
      exact hbefore.imp (fun h => h.slot hold hmem) fun h => h.slot hold hmem

/-- A change on one side that is given nothing of the other keeps the two apart. -/
theorem Separate.keeps {W : Nat → Prop} (h : Separate s v w) (hx : Separate s x w) (hk : Keeps W s s')
    (hi : Inv s owned iters) (hi' : Inv s' owned' iters') (hfeed : Feeds s s' W x)
    (hv : ∀ b, v = .thing b → b < s.nextThing) (hxb : ∀ b, x = .thing b → b < s.nextThing)
    (hw : ∀ b, w = .thing b → b < s.nextThing) (hW : ∀ a, Within s w (.thing a) → ¬ W a) : Separate s' v w := by
  intro a hva hwa hm
  obtain ⟨_, kind, slots, hview⟩ := hm
  have hlive' := hwa.root_live fun b hb => Val.thing.inj hb ▸ live_of_view hview
  have hlive : ∀ b, w = .thing b → s.Live b := fun b hb =>
    (hk.old b (hlive' b hb)).resolve_right (Nat.not_le.mpr (hw b hb))
  have hsame := hk.within_view hi hi' hlive hlive' hW
  have hwa' := (within_iff hsame).mp hwa
  have hm' := hk.mutable (hsame a hwa') ⟨‹_›, kind, slots, hview⟩
  rcases hk.within_before hi hfeed hv hxb hva a rfl with hold | hgiven
  · exact h a hold hwa' hm'
  · exact hx a hgiven hwa' hm'

theorem feeds_nothing : Feeds s s' (fun _ => False) x := fun _ _ _ hW => hW.elim

end Store

theorem Change.mem_effect {ch : Change} {slots : List (Bytes × Val)} {key : Bytes} {b : Nat}
    (h : (key, Val.thing b) ∈ ch.effect slots) : (∃ key', (key', Val.thing b) ∈ slots) ∨ ch.given = .thing b := by
  cases ch with
  | setByKey k v =>
    cases k with
    | none => exact .inl ⟨key, h⟩
    | some k =>
      obtain ⟨slot, hmem, heq⟩ := List.mem_map.mp h
      obtain ⟨_, hval⟩ := Prod.mk.inj heq
      rcases mem_setPairs hmem with hold | hnew
      · exact .inl ⟨slot.1, hval ▸ hold⟩
      · right
        rw [hnew] at hval
        exact hval
  | removeByKey k =>
    cases k with
    | none => exact .inl ⟨key, h⟩
    | some k => exact .inl ⟨key, mem_of_mem_removePairs h⟩
  | append v =>
    rcases List.mem_append.mp h with hold | hnew
    · exact .inl ⟨key, hold⟩
    · cases List.mem_singleton.mp hnew
      exact .inr rfl
  | setByIndex i v =>
    rcases List.mem_or_eq_of_mem_set h with hold | hnew
    · rcases List.mem_append.mp hold with hold | hpad
      · exact .inl ⟨key, hold⟩
      · cases (List.mem_replicate.mp hpad).2
    · cases hnew
      exact .inr rfl
  | removeByIndex i => exact .inl ⟨key, List.mem_of_mem_eraseIdx h⟩

theorem Store.Mutated.feeds {s s' : Store} {owned iters : Nat → Nat} {value : Val} {ch : Change} {rv : Nat}
    (h : Mutated s owned iters value ch.kind ch.effect rv s') :
    Feeds s s' (fun a => value = .thing a ∧ s.Mutable a) ch.given := by
  rintro a kind slots' ⟨hval, _, kind₀, slots₀, hview⟩ hview' key b hmem
  by_cases hrv : rv = 0
  · obtain ⟨a', slots, hval', _, hv, hv'⟩ := h.done hrv
    cases hval.symm.trans hval'
    cases hview'.symm.trans hv'
    exact (Change.mem_effect hmem).imp (fun ⟨key', hold⟩ => ⟨key', _, slots, hv, hold⟩) id
  · have hsame := (h.failed hrv).view a (live_of_view hview) (live_of_view hview') id
    exact .inl ⟨key, kind, slots', hsame.symm.trans hview', hmem⟩

namespace Caller

variable {c c' c₁ : Caller} {lost : Nat → Nat} {v w value : Val} {ch : Change} {s' : Store}

/-! ## Steps -/

/-- A mutator is called on a container that is found from a value; `ok` says which values
it may be given. -/
inductive Through (v : Val) (ok : Store → Val → Prop) : Caller → Caller → Prop
  | mk {c : Caller} {value : Val} {ch : Change} {rv : Nat} {s' : Store} : c.MayUse value → c.Owns ch.given →
    c.store.Within v value → ok c.store ch.given → ch.run c.store value = .ok (rv, s') →
    Through v ok c (c.gives ch.given s')

/-- A call that is not for changing a value: a getter, a clone, a freeze, an iteration
that begins or ends, a handle that is taken or released. -/
inductive Aside : Caller → Caller → Prop
  | mk {c c' : Caller} {k : Call} : k.Calm → c.Follows k → c.call k = .ok c' → Aside c c'

/-- Mutators on what is found from the first value, given nothing that can change of the
second. -/
def Past (v w : Val) (c c' : Caller) : Prop := Through v (fun s given => s.Separate given w) c c' ∨ Aside c c'

/-- The same on either side. -/
def Between (v w : Val) (c c' : Caller) : Prop := Past v w c c' ∨ Past w v c c'

def Alive (c : Caller) (v : Val) : Prop := ∀ a, v = .thing a → c.store.Live a

structure Parted (c : Caller) (v w : Val) : Prop where
  separate : c.store.Separate v w
  left : ∀ a, v = .thing a → a < c.store.nextThing
  right : ∀ a, w = .thing a → a < c.store.nextThing

theorem Parted.symm (h : Parted c v w) : Parted c w v := ⟨h.separate.symm, h.right, h.left⟩

/-- A value that is still there denotes the tree that it did. -/
def Unmoved (c c' : Caller) (w : Val) : Prop :=
  c'.Alive w → c.Alive w ∧ ∀ tree, c'.store.Denotes w tree ↔ c.store.Denotes w tree

theorem Unmoved.trans (h : Unmoved c c₁ w) (h' : Unmoved c₁ c' w) : Unmoved c c' w := by
  intro hlive
  obtain ⟨hlive₁, htree'⟩ := h' hlive
  obtain ⟨hlive₀, htree⟩ := h hlive₁
  exact ⟨hlive₀, fun tree => (htree' tree).trans (htree tree)⟩

/-- A step that changes nothing that is found from a value. -/
theorem Unmoved.of_keeps {W : Nat → Prop} {lost' : Nat → Nat} (hs : Sound c lost) (hs' : Sound c' lost')
    (hk : Store.Keeps W c.store c'.store) (hw : ∀ a, w = .thing a → a < c.store.nextThing)
    (hW : ∀ a, c.store.Within w (.thing a) → ¬ W a) : Unmoved c c' w := by
  intro hlive'
  have hlive : c.Alive w := fun a ha =>
    (hk.old a (hlive' a ha)).resolve_right (Nat.not_le.mpr (hw a ha))
  exact ⟨hlive, fun tree => Store.denotes_iff (hk.within_view hs.inv hs'.inv hlive hlive' hW)⟩

theorem Sound.mutated (hs : Sound c lost) {rv : Nat} (hval : c.MayUse value) (hv : c.Owns ch.given)
    (hrun : ch.run c.store value = .ok (rv, s')) :
    Store.Mutated c.store (c.owned - refOf ch.given + lost) c.iters value ch.kind ch.effect rv s' ∧
      Sound (c.gives ch.given s') lost := by
  rcases Change.mutated (hs.split hv) (hs.splitBorrowed hv hval) with ⟨herr, _⟩ | ⟨rv', s₁, hrun', hm⟩
  · cases hrun.symm.trans herr
  · cases hrun.symm.trans hrun'
    exact ⟨hm, hm.inv, hs.closed.evolves hm.evolves hm.inv⟩

theorem Sound.owns_lt (hs : Sound c lost) (hv : c.Owns v) : ∀ a, v = .thing a → a < c.store.nextThing := by
  intro a ha
  apply hs.inv.live_lt
  exact Store.live_iff.mpr (hs.inv.live_of_owned (Nat.lt_of_lt_of_le (hv a ha) (Nat.le_add_right _ _)))

/-- A mutator on one side. -/
theorem Parted.through (hs : Sound c lost) (hp : Parted c v w)
    (h : Through v (fun s given => s.Separate given w) c c') :
    Sound c' lost ∧ Parted c' v w ∧ Unmoved c c' w := by
  cases h with
  | mk hval hv hwithin hsep hrun =>
    obtain ⟨hm, hs'⟩ := hs.mutated hval hv hrun
    have hW : ∀ a, c.store.Within w (.thing a) → ¬ (_ = Val.thing a ∧ c.store.Mutable a) :=
      fun a ha hmut => hp.separate a (hmut.1 ▸ hwithin) ha hmut.2
    refine ⟨hs', ⟨?_, ?_, ?_⟩, .of_keeps hs hs' hm.keepsMutable hp.right hW⟩
    · exact hp.separate.keeps hsep hm.keepsMutable hs.inv hs'.inv hm.feeds hp.left (hs.owns_lt hv) hp.right hW
    · exact fun a ha => Nat.lt_of_lt_of_le (hp.left a ha) hm.keeps.next
    · exact fun a ha => Nat.lt_of_lt_of_le (hp.right a ha) hm.keeps.next

theorem Aside.calm (h : Aside c c') (hs : Sound c lost) :
    Sound c' lost ∧ c.store.KeepsAll c'.store ∧ Store.Iterating c'.iters c.store c'.store := by
  cases h with
  | mk hk hf hrun =>
    have hout := hs.calm hk hf
    rw [hrun] at hout
    cases hout with
    | done hs' hkeep hit => exact ⟨hs', hkeep, hit⟩

theorem Parted.aside (hs : Sound c lost) (hp : Parted c v w) (h : Aside c c') :
    Sound c' lost ∧ Parted c' v w ∧ Unmoved c c' w := by
  obtain ⟨hs', hk, _⟩ := h.calm hs
  refine ⟨hs', ⟨?_, ?_, ?_⟩, .of_keeps hs hs' hk hp.right fun _ _ => id⟩
  · exact hp.separate.keeps hp.separate hk hs.inv hs'.inv Store.feeds_nothing hp.left hp.left hp.right
      fun _ _ => id
  · exact fun a ha => Nat.lt_of_lt_of_le (hp.left a ha) hk.next
  · exact fun a ha => Nat.lt_of_lt_of_le (hp.right a ha) hk.next

theorem Parted.past (hs : Sound c lost) (hp : Parted c v w) (h : Past v w c c') :
    Sound c' lost ∧ Parted c' v w ∧ Unmoved c c' w := h.elim (hp.through hs) (hp.aside hs)

/-! ## Runs -/

theorem Parted.run_past (hs : Sound c lost) (hp : Parted c v w) (h : Relation.ReflTransGen (Past v w) c c') :
    Sound c' lost ∧ Parted c' v w ∧ Unmoved c c' w := by
  induction h with
  | refl => exact ⟨hs, hp, fun hlive => ⟨hlive, fun _ => Iff.rfl⟩⟩
  | tail _ hstep ih =>
    obtain ⟨hs₁, hp₁, hun⟩ := ih
    obtain ⟨hs', hp', hun'⟩ := hp₁.past hs₁ hstep
    exact ⟨hs', hp', hun.trans hun'⟩

theorem Parted.run_between (hs : Sound c lost) (hp : Parted c v w)
    (h : Relation.ReflTransGen (Between v w) c c') : Sound c' lost ∧ Parted c' v w := by
  induction h with
  | refl => exact ⟨hs, hp⟩
  | tail _ hstep ih =>
    obtain ⟨hs₁, hp₁⟩ := ih
    rcases hstep with hstep | hstep
    · obtain ⟨hs', hp', _⟩ := hp₁.past hs₁ hstep
      exact ⟨hs', hp'⟩
    · obtain ⟨hs', hp', _⟩ := hp₁.symm.past hs₁ hstep
      exact ⟨hs', hp'.symm⟩

/-- A clone has nothing that can change in common with any value that was there. -/
theorem Parted.clone {fuel : Nat} (hs : Sound c lost) (hv : c.MayUse v)
    (hrun : Store.clone fuel c.store v = .ok (w, s')) (hok : w = .null → v = .null) :
    (∀ tree, s'.Denotes w tree ↔ s'.Denotes v tree) ∧ (∀ tree, s'.Denotes v tree ↔ c.store.Denotes v tree) ∧
      ∀ u, c.MayUse u → Sound (c.gets w s') lost ∧ Parted (c.gets w s') u w := by
  rcases (Store.cloneOk fuel).1 _ _ _ v hs.inv (hs.live hv) with herr | ⟨w', s₁, hrun', hcl⟩
  · cases hrun.symm.trans herr
  cases hrun.symm.trans hrun'
  obtain ⟨hgrows, hcopy⟩ := hcl.done hok
  obtain ⟨hcopy, _⟩ := hcopy _ (hs.inv.base (hs.live hv))
  have hi := hcl.inv
  rw [add_right_comm] at hi
  have hs' : Sound (c.gets w s') lost := by
    refine ⟨hi, ?_⟩
    exact hs.closed.evolves (.of_keepsAll hcl.keeps hcl.noFreeze) hi
  refine ⟨fun tree => hcopy.denotes_iff, ?_, ?_⟩
  · intro tree
    apply Store.denotes_iff
    exact fun a ha => hgrows.view a (ha.live hs.inv (hs.live hv) a rfl)
  · intro u hu
    have hbound : ∀ a, u = .thing a → a < c.store.nextThing := fun a ha => hs.inv.live_lt (hs.live hu a ha)
    refine ⟨hs', ?_, fun a ha => Nat.lt_of_lt_of_le (hbound a ha) hgrows.next, ?_⟩
    · intro a hua hwa hm
      have hold := hcl.keeps.within_before hs.inv Store.feeds_nothing hbound hbound hua a rfl
      exact Nat.not_lt.mpr (hcopy.new hwa hm) ((hold.elim id id).lt hs.inv hbound)
    · rintro a rfl
      exact hs'.inv.live_lt (Store.live_iff.mpr (hs'.inv.live_of_owned (by simp [gets])))

/-! ## Clones, iterations and failures -/

/-- A clone denotes the tree of its original. In whatever order the clone and any value
that was there are changed, what is done to one of the two does not show in the other. -/
def ClonesApart (c : Caller) : Prop :=
  ∀ fuel v w s', c.MayUse v → Store.clone fuel c.store v = .ok (w, s') → (w = .null → v = .null) →
    (∀ tree, s'.Denotes w tree ↔ s'.Denotes v tree) ∧ (∀ tree, s'.Denotes v tree ↔ c.store.Denotes v tree) ∧
    ∀ u, c.MayUse u → ∀ c₁, Relation.ReflTransGen (Between u w) (c.gets w s') c₁ →
      (∀ c₂, Relation.ReflTransGen (Past u w) c₁ c₂ → c₂.Alive w →
        ∀ tree, c₂.store.Denotes w tree ↔ c₁.store.Denotes w tree) ∧
      ∀ c₂, Relation.ReflTransGen (Past w u) c₁ c₂ → c₂.Alive u →
        ∀ tree, c₂.store.Denotes u tree ↔ c₁.store.Denotes u tree

/-- Any mutator or call aside, while an iteration runs. -/
def During (p : Nat) (c c' : Caller) : Prop :=
  ((∃ v, Through v (fun _ _ => True) c c') ∨ Aside c c') ∧ 0 < c'.iters p

/-- An iteration visits the entries that were there when it began. -/
def IteratesOver (c : Caller) : Prop :=
  ∀ value kind p s', c.MayUse value → c.store.foreachBegin value kind = .ok (some p, s') →
    ∃ slots, c.store.shown value kind = some slots ∧
      ∀ c', Relation.ReflTransGen (During p) (c.begins (some p) s') c' →
        ∃ pl, c'.store.payloads p = some pl ∧ clonePairs pl.slots = slots

/-- A mutator for which an allocation fails returns non-zero, and no tree changes. -/
def FailsQuietly (c : Caller) : Prop :=
  ∀ (value : Val) (ch : Change) (rv : Nat) (s' : Store), c.MayUse value → c.Owns ch.given → ch.run c.store value = .ok (rv, s') →
    (∃ i, c.store.mallocs ≤ i ∧ i < s'.mallocs ∧ c.store.fails i = true) →
    rv ≠ 0 ∧ ∀ w, c.Alive w → (c.gives ch.given s').Alive w →
      ∀ tree, s'.Denotes w tree ↔ c.store.Denotes w tree

theorem Sound.clonesApart (hs : Sound c lost) : ClonesApart c := by
  intro fuel v w s' hv hrun hok
  obtain ⟨hcopy, hsame, hparted⟩ := Parted.clone hs hv hrun hok
  refine ⟨hcopy, hsame, ?_⟩
  intro u hu c₁ hmixed
  obtain ⟨hs', hp'⟩ := hparted u hu
  obtain ⟨hs₁, hp₁⟩ := hp'.run_between hs' hmixed
  constructor
  · intro c₂ hpast hlive
    obtain ⟨_, _, hun⟩ := hp₁.run_past hs₁ hpast
    exact (hun hlive).2
  · intro c₂ hpast hlive
    obtain ⟨_, _, hun⟩ := hp₁.symm.run_past hs₁ hpast
    exact (hun hlive).2

theorem Through.iterating {ok : Store → Val → Prop} (h : Through v ok c c') (hs : Sound c lost) :
    Sound c' lost ∧ Store.Iterating c'.iters c.store c'.store := by
  cases h with
  | mk hval hv _ _ hrun =>
    obtain ⟨hm, hs'⟩ := hs.mutated hval hv hrun
    exact ⟨hs', hm.iterating⟩

theorem During.iterating {p : Nat} (h : During p c c') (hs : Sound c lost) :
    Sound c' lost ∧ Store.Iterating c'.iters c.store c'.store := by
  rcases h.1 with ⟨v, hthrough⟩ | haside
  · exact hthrough.iterating hs
  · obtain ⟨hs', _, hit⟩ := haside.calm hs
    exact ⟨hs', hit⟩

theorem Sound.iteratesOver (hs : Sound c lost) : IteratesOver c := by
  intro value kind p s' hval hrun
  obtain ⟨r, s₁, hrun', hquiet, _, hsome⟩ := hs.inv.foreachBegin kind (hs.borrowed hval)
  cases hrun.symm.trans hrun'
  obtain ⟨hi, pl, hpl, hshown⟩ := hsome p rfl
  refine ⟨_, hshown, ?_⟩
  intro c' hrun
  have hstart : Sound (c.begins (some p) s') lost :=
    ⟨hi, hs.closed.evolves (.of_keepsAll hquiet.keeps hquiet.noFreeze) hi⟩
  -- along the run the payload keeps its slots
  have hall : Sound c' lost ∧ ∃ pl', c'.store.payloads p = some pl' ∧ pl'.slots = pl.slots := by
    induction hrun with
    | refl => exact ⟨hstart, pl, hpl, rfl⟩
    | tail _ hstep ih =>
      obtain ⟨hs₁, pl₁, hpl₁, hslots⟩ := ih
      obtain ⟨hs', hit⟩ := hstep.iterating hs₁
      obtain ⟨pl', hpl', hslots'⟩ := hit p pl₁ hstep.2 hpl₁
      exact ⟨hs', pl', hpl', hslots'.trans hslots⟩
  obtain ⟨_, pl', hpl', hslots⟩ := hall
  exact ⟨pl', hpl', by rw [hslots]⟩

theorem Sound.failsQuietly (hs : Sound c lost) : FailsQuietly c := by
  rintro value ch rv s' hval hv hrun ⟨i, hle, hlt, hfail⟩
  obtain ⟨hm, hs'⟩ := hs.mutated hval hv hrun
  have hrv : rv ≠ 0 := by
    rintro rfl
    rw [(Change.fed hrun).ok i hle hlt] at hfail
    cases hfail
  refine ⟨hrv, ?_⟩
  intro w hlive hlive' tree
  exact Store.denotes_iff ((hm.failed hrv).within_view hs.inv hs'.inv hlive hlive' fun _ _ => id)

/-- In every state that a caller can come to, a clone is as good as a deep copy. -/
theorem clones_are_copies (fails : Nat → Bool) (c : Caller) (h : Run fails c) :
    ClonesApart c ∧ IteratesOver c ∧ FailsQuietly c := by
  obtain ⟨lost, hs⟩ := h.sound
  exact ⟨hs.clonesApart, hs.iteratesOver, hs.failsQuietly⟩

/-- A list. -/
def oneList : Caller := (start fun _ => false).gets (.thing 0) ((start fun _ => false).store.newContainer .list).2

/-- The list and its clone. -/
def twoLists : Caller :=
  match Store.clone 2 oneList.store (.thing 0) with
  | .ok (w, s) => oneList.gets w s
  | .error _ => oneList

/-- The clone is in the list. -/
def nested : Caller :=
  match twoLists.store.append (.thing 0) (.thing 1) with
  | .ok (_, s) => twoLists.gives (.thing 1) s
  | .error _ => twoLists

theorem oneList_run : Run (fun _ => false) oneList := .step (k := .newContainer .list) .start trivial rfl

theorem oneList_clone : Store.clone 2 oneList.store (.thing 0) = .ok (.thing 1, twoLists.store) := rfl

theorem mayUse_of_owned (h : 0 < c.owned a) : c.MayUse (.thing a) := by
  rintro b ⟨⟩
  exact .owned h

/-- The clone of a list stays empty when something is appended to the list. -/
theorem clones_are_copies_append : ∃ s', twoLists.store.append (.thing 0) .null = .ok (0, s') ∧
    ¬ s'.Denotes (.thing 0) (.list []) ∧ s'.Denotes (.thing 1) (.list []) := by
  obtain ⟨hapart, _, _⟩ := clones_are_copies _ _ oneList_run
  have huse : oneList.MayUse (.thing 0) := mayUse_of_owned (by decide)
  obtain ⟨_, _, hruns⟩ := hapart 2 (.thing 0) (.thing 1) _ huse oneList_clone nofun
  obtain ⟨hleft, _⟩ := hruns (.thing 0) huse _ .refl
  refine ⟨_, rfl, ?_, ?_⟩
  · intro hd
    cases hd with
    | leaf hv => cases hv
    | list hv hlen =>
      cases hv
      cases hlen
  · refine (hleft _ (.single (.inl (@Through.mk _ _ twoLists (.thing 0) (.append .null) _ _
      (mayUse_of_owned (by decide)) nofun .refl ?_ rfl))) ?_ _).mpr ?_
    · intro a ha
      cases ha.of_scalar nofun
    · rintro a ⟨⟩
      exact nofun
    · exact @Store.Denotes.list _ 1 [] [] rfl rfl nofun

/-- The clone is put into the original and is reached through it. -/
theorem clone_in_original : ¬ ∀ (fails : Nat → Bool) (c : Caller), Run fails c → ∀ fuel v w s', c.MayUse v →
    Store.clone fuel c.store v = .ok (w, s') → (w = .null → v = .null) →
    ∀ c₂, Relation.ReflTransGen (Through v fun _ _ => True) (c.gets w s') c₂ → c₂.Alive w →
      ∀ tree, c₂.store.Denotes w tree ↔ s'.Denotes w tree := by
  intro h
  have hput : Through (.thing 0) (fun _ _ => True) twoLists nested :=
    @Through.mk _ _ _ (.thing 0) (.append (.thing 1)) _ _ (mayUse_of_owned (by decide))
      (by
        rintro a ⟨⟩
        decide)
      .refl trivial rfl
  have hview : nested.store.view 0 = some (.container .list [([], .thing 1)]) := rfl
  have hreach : Through (.thing 0) (fun _ _ => True) nested _ :=
    @Through.mk _ _ _ (.thing 1) (.append .null) _ _
      (by
        rintro a ⟨⟩
        exact .slot (.owned (a := 0) (by decide)) hview (by decide))
      nofun
      (.slot .refl hview List.mem_cons_self) trivial rfl
  have hsame := h _ _ oneList_run 2 (.thing 0) (.thing 1) _ (mayUse_of_owned (by decide)) oneList_clone nofun _
    (.tail (.single hput) hreach)
    (by
      rintro a ⟨⟩
      exact nofun)
    (.list [])
  have hempty := hsame.mpr (@Store.Denotes.list _ 1 [] [] rfl rfl nofun)
  cases hempty with
  | leaf hv => cases hv
  | list hv hlen =>
    cases hv
    cases hlen

end Caller

end SentryNative.Memory
