import SentryNative.Memory.Copies
import SentryNative.Value.Merging

/-!
# Reading objects

What a merge sees of a value: the tree it denotes, with strings and numbers for leaves,
and the objects that are found from it.
-/

namespace SentryNative.ObjectMap

open CLib

variable {V W : Type} {R R' : V → W → Prop} {xs : List (Bytes × V)} {ys : List (Bytes × W)} {k : Bytes}

/-! ## Pairs with the same keys -/

def Matches (R : V → W → Prop) : List (Bytes × V) → List (Bytes × W) → Prop :=
  List.Forall₂ fun x y => x.1 = y.1 ∧ R x.2 y.2

theorem Matches.keys (h : Matches R xs ys) : xs.map Prod.fst = ys.map Prod.fst := by
  induction h with
  | nil => rfl
  | cons hxy _ ih => rw [List.map_cons, List.map_cons, hxy.1, ih]

theorem Keyed.of_keys (h : Keyed ys)
    (hkeys : xs.map Prod.fst = ys.map Prod.fst) : Keyed xs := by
  constructor
  · intro x hx
    have hmem : x.1 ∈ ys.map Prod.fst := hkeys ▸ List.mem_map_of_mem hx
    obtain ⟨y, hy, heq⟩ := List.mem_map.mp hmem
    exact heq ▸ h.nulFree y hy
  · rw [hkeys]
    exact h.nodup

theorem Matches.get {m : V} {n : W} (h : Matches R xs ys) (hnull : R m n) (k : Bytes) :
    R (getPairs m k xs) (getPairs n k ys) := by
  induction h with
  | nil => exact hnull
  | @cons x y _ _ hxy _ ih =>
    obtain ⟨k₁, v⟩ := x
    obtain ⟨k₂, w⟩ := y
    obtain ⟨rfl, hvw⟩ := hxy
    simp only [getPairs]
    split
    · exact hvw
    · exact ih

theorem Matches.set {v : V} {w : W} (h : Matches R xs ys) (hvw : R v w) (k : Bytes) :
    Matches R (setPairs k v xs) (setPairs k w ys) := by
  induction h with
  | nil => exact .cons ⟨rfl, hvw⟩ .nil
  | @cons x y _ _ hxy hrest ih =>
    obtain ⟨k₁, v₁⟩ := x
    obtain ⟨k₂, w₂⟩ := y
    obtain ⟨rfl, hold⟩ := hxy
    simp only [setPairs]
    split
    · exact .cons ⟨rfl, hvw⟩ hrest
    · exact .cons ⟨rfl, hold⟩ ih

theorem Matches.imp (h : Matches R xs ys) (himp : ∀ x ∈ xs, ∀ w, R x.2 w → R' x.2 w) : Matches R' xs ys := by
  induction h with
  | nil => exact .nil
  | cons hxy _ ih =>
    exact .cons ⟨hxy.1, himp _ List.mem_cons_self _ hxy.2⟩
      (ih fun x hx => himp x (List.mem_cons_of_mem _ hx))

theorem Matches.mem {x : Bytes × V} (h : Matches R xs ys) (hx : x ∈ xs) : ∃ y ∈ ys, x.1 = y.1 ∧ R x.2 y.2 := by
  induction h with
  | nil => cases hx
  | cons hxy _ ih =>
    rcases List.mem_cons.mp hx with rfl | hx
    · exact ⟨_, List.mem_cons_self, hxy⟩
    · obtain ⟨y, hy, hrel⟩ := ih hx
      exact ⟨y, List.mem_cons_of_mem _ hy, hrel⟩

theorem Matches.drop (h : Matches R xs ys) (n : Nat) : Matches R (xs.drop n) (ys.drop n) := List.forall₂_drop n h

theorem getPairs_mem {null v : V} (h : getPairs null k xs = v) (hv : v ≠ null) : ∃ x ∈ xs, k = cstr x.1 ∧ x.2 = v := by
  induction xs with
  | nil => exact absurd h.symm hv
  | cons x xs ih =>
    obtain ⟨stored, w⟩ := x
    simp only [getPairs] at h
    split at h
    · rename_i heq
      exact ⟨_, List.mem_cons_self, of_decide_eq_true heq, h⟩
    · obtain ⟨x, hx, hk⟩ := ih h
      exact ⟨x, List.mem_cons_of_mem _ hx, hk⟩

/-- What stands at one key has another value on the right, and nothing else has. -/
theorem Matches.set_right {null : V} {w : W} (h : Matches R xs ys) (hk : Keyed xs) (hmem : k ∈ xs.map Prod.fst)
    (hset : R' (getPairs null k xs) w) (himp : ∀ x ∈ xs, x.1 ≠ k → ∀ w, R x.2 w → R' x.2 w) :
    Matches R' xs (setPairs k w ys) := by
  induction h with
  | nil => cases hmem
  | @cons x y xs ys hxy hrest ih =>
    obtain ⟨k₁, v₁⟩ := x
    obtain ⟨k₂, w₂⟩ := y
    obtain ⟨rfl, hold⟩ := hxy
    by_cases heq : sliceEqs k k₁ = true
    · have hkk : k = k₁ := (sliceEqs_iff hk.head.1).mp heq
      subst k₁
      simp only [getPairs, heq, if_true] at hset
      simp only [setPairs, heq, if_true]
      refine .cons ⟨rfl, hset⟩ (Matches.imp hrest fun x hx => himp x (List.mem_cons_of_mem _ hx) ?_)
      rintro rfl
      exact hk.head.2 (List.mem_map_of_mem hx)
    · have hkk : k₁ ≠ k := fun he => heq ((sliceEqs_iff hk.head.1).mpr he.symm)
      simp only [getPairs, heq, Bool.false_eq_true, if_false] at hset
      simp only [setPairs, heq, Bool.false_eq_true, if_false]
      exact .cons ⟨rfl, himp _ List.mem_cons_self hkk _ hold⟩
        (ih hk.tail ((List.mem_cons.mp hmem).resolve_left (Ne.symm hkk)) hset
          fun x hx => himp x (List.mem_cons_of_mem _ hx))

end SentryNative.ObjectMap

namespace SentryNative.Memory

open CLib ObjectMap

namespace Store

variable {s s' : Store} {owned iters : Nat → Nat} {a b : Nat} {v w x : Val} {tree : Value} {k : Bytes}
  {D : List (Bytes × Val)} {ps : List (Bytes × Value)}

/-! ## From the root -/

theorem Within.head (h : Within s v w) : w = v ∨ ∃ a kind slots slot, v = .thing a ∧
    s.view a = some (.container kind slots) ∧ slot ∈ slots ∧ Within s slot.2 w := by
  induction h with
  | refl => exact .inl rfl
  | slot _ hv hmem ih =>
    right
    rcases ih with rfl | ⟨a, kind, slots, slot, rfl, hva, hslot, hw⟩
    · exact ⟨_, _, _, _, rfl, hv, hmem, .refl⟩
    · exact ⟨a, kind, slots, slot, rfl, hva, hslot, hw.slot hv hmem⟩

theorem Within.of_slot {kind : Kind} {slot : Bytes × Val} (hv : s.view a = some (.container kind D))
    (hslot : slot ∈ D) (h : Within s slot.2 w) : Within s (.thing a) w :=
  (Within.refl.slot hv hslot).trans h

theorem getElem?_of_fst_eq {V W : Type} {xs : List (Bytes × V)} {ys : List (Bytes × W)} {i : Nat} {x : Bytes × V}
    (h : xs.map Prod.fst = ys.map Prod.fst) (hx : xs[i]? = some x) : ∃ y, ys[i]? = some y := by
  have hlen := congrArg List.length h
  rw [List.length_map, List.length_map] at hlen
  exact ⟨_, List.getElem?_eq_getElem (hlen ▸ (List.getElem?_eq_some_iff.mp hx).1)⟩

/-- No container is found from its own slots in what denotes a tree. -/
theorem Denotes.acyclic (h : Denotes s v tree) : ∀ a kind slots, Within s v (.thing a) →
    s.view a = some (.container kind slots) → ∀ slot ∈ slots, ¬ Within s slot.2 (.thing a) := by
  -- what is found below a container is found from one of its slots
  have hbelow : ∀ b kind₀ slots₀, s.view b = some (.container kind₀ slots₀) →
      (∀ slot₀ ∈ slots₀, ∀ a kind slots, Within s slot₀.2 (.thing a) → s.view a = some (.container kind slots) →
        ∀ slot ∈ slots, ¬ Within s slot.2 (.thing a)) →
      ∀ a kind slots, Within s (.thing b) (.thing a) → s.view a = some (.container kind slots) →
        ∀ slot ∈ slots, ¬ Within s slot.2 (.thing a) := by
    intro b kind₀ slots₀ hvb hslots a kind slots hw hva slot hslot
    rcases hw.head with heq | ⟨b', _, _, slot₀, hb', hvb', hslot₀, hw₀⟩
    · cases heq
      cases hvb.symm.trans hva
      exact fun hback => hslots slot hslot _ _ _ hback hva slot hslot hback
    · cases hb'
      cases hvb.symm.trans hvb'
      exact hslots slot₀ hslot₀ a kind slots hw₀ hva slot hslot
  induction h with
  | null =>
    intro a _ _ hw
    cases hw.of_scalar nofun
  | bool =>
    intro a _ _ hw
    cases hw.of_scalar nofun
  | int32 =>
    intro a _ _ hw
    cases hw.of_scalar nofun
  | leaf hvb =>
    intro a kind slots hw hva
    rcases hw.head with heq | ⟨_, _, _, _, heq, hvb', _⟩
    · cases heq
      cases hvb.symm.trans hva
    · cases heq
      cases hvb.symm.trans hvb'
  | @list b slots items hvb hlen _ ih =>
    apply hbelow b _ slots hvb
    intro slot hslot
    obtain ⟨i, hi, rfl⟩ := List.getElem_of_mem hslot
    exact ih i _ _ (List.getElem?_eq_getElem hi) (List.getElem?_eq_getElem (hlen ▸ hi))
  | @object b slots pairs hvb hkeys _ ih =>
    apply hbelow b _ slots hvb
    intro slot hslot
    obtain ⟨i, hi⟩ := List.getElem?_of_mem hslot
    obtain ⟨pair, hpair⟩ := getElem?_of_fst_eq hkeys hi
    exact ih i slot pair hi hpair

/-! ## What is read -/

structure Reads (s : Store) (v : Val) (tree : Value) : Prop where
  denotes : s.Denotes v tree
  leaves : ∀ a w, s.Within v (.thing a) → s.view a = some (.leaf w) → w.IsLeaf

theorem Reads.congr (h : Reads s v tree) (hview : ∀ a, Within s v (.thing a) → s'.view a = s.view a) :
    Reads s' v tree := by
  refine ⟨h.denotes.congr hview, ?_⟩
  intro a w hw hv
  have hold := (within_iff hview).mp hw
  exact h.leaves a w hold ((hview a hold).symm.trans hv)

theorem Reads.slot {kind : Kind} {slot : Bytes × Val} {item : Value} (h : Reads s (.thing a) tree)
    (hv : s.view a = some (.container kind D)) (hslot : slot ∈ D) (hd : s.Denotes slot.2 item) :
    Reads s slot.2 item := ⟨hd, fun b w hw => h.leaves b w (.of_slot hv hslot hw)⟩

theorem matches_of_index (hkeys : D.map Prod.fst = ps.map Prod.fst)
    (h : ∀ (i : Nat) (slot : Bytes × Val) (pair : Bytes × Value), D[i]? = some slot → ps[i]? = some pair →
      Reads s slot.2 pair.2) : Matches (Reads s) D ps := by
  induction D generalizing ps with
  | nil =>
    cases ps with
    | nil => exact .nil
    | cons => cases hkeys
  | cons slot D ih =>
    cases ps with
    | nil => cases hkeys
    | cons pair ps =>
      obtain ⟨hfirst, hrest⟩ := List.cons.inj hkeys
      exact .cons ⟨hfirst, h 0 slot pair rfl rfl⟩ (ih hrest fun i => h (i + 1))

theorem index_of_matches (h : Matches (Reads s) D ps) (i : Nat) {slot : Bytes × Val} {pair : Bytes × Value}
    (hslot : D[i]? = some slot) (hpair : ps[i]? = some pair) : Reads s slot.2 pair.2 := by
  induction h generalizing i with
  | nil => cases hslot
  | cons hxy _ ih =>
    cases i with
    | zero =>
      cases hslot
      cases hpair
      exact hxy.2
    | succ i => exact ih i hslot hpair

theorem Reads.object (h : Reads s v (.object ps)) :
    ∃ a D, v = .thing a ∧ s.view a = some (.container .object D) ∧ Matches (Reads s) D ps := by
  obtain ⟨hd, hleaves⟩ := h
  cases hd with
  | @leaf a _ hv => exact absurd (hleaves a _ .refl hv) id
  | @object a D _ hv hkeys hslots =>
    refine ⟨a, D, rfl, hv, matches_of_index hkeys ?_⟩
    intro i slot pair hslot hpair
    refine ⟨hslots i slot pair hslot hpair, ?_⟩
    exact fun b w hw => hleaves b w (.of_slot hv (List.mem_of_getElem? hslot) hw)

theorem Reads.of_matches (hv : s.view a = some (.container .object D)) (h : Matches (Reads s) D ps) :
    Reads s (.thing a) (.object ps) := by
  constructor
  · exact .object hv h.keys fun i slot pair hslot hpair => (index_of_matches h i hslot hpair).denotes
  · intro b w hw hvb
    rcases hw.head with heq | ⟨a', kind, slots, slot, ha', hva, hslot, hw'⟩
    · cases heq
      cases hv.symm.trans hvb
    · cases ha'
      cases hv.symm.trans hva
      obtain ⟨_, _, _, hr⟩ := Matches.mem h hslot
      exact hr.leaves b w hw' hvb

theorem reads_null : Reads s .null .null := ⟨.null, fun a _ hw => by cases hw.of_scalar nofun⟩

theorem Reads.eq_null (h : Reads s v .null) : v = .null := by
  obtain ⟨hd, hleaves⟩ := h
  cases hd with
  | null => rfl
  | @leaf a _ hv => exact absurd (hleaves a _ .refl hv) id

theorem Reads.tree_null (h : Reads s .null tree) : tree = .null := by
  obtain ⟨hd, _⟩ := h
  cases hd
  rfl

theorem Reads.shown_none (h : Reads s v tree) (hnot : ¬ tree.IsObject) : s.shown v .object = none := by
  cases hshown : s.shown v .object with
  | none => rfl
  | some slots =>
    obtain ⟨a, rfl, hv⟩ := shown_eq_some.mp hshown
    cases h.denotes with
    | leaf hv' => cases hv.symm.trans hv'
    | list hv' => cases hv.symm.trans hv'
    | object => exact absurd ⟨_, rfl⟩ hnot

/-! ## Objects that are found -/

/-- An object that is found from a value. -/
def Objects (s : Store) (v : Val) (a : Nat) : Prop :=
  s.Within v (.thing a) ∧ ∃ slots, s.view a = some (.container .object slots)

/-- No object that is found from the first value is found from the second. -/
def Clear (s : Store) (v w : Val) : Prop := ∀ a, s.Objects v a → ¬ s.Within w (.thing a)

/-- No object that is found from a value is frozen, or is found in two places. -/
structure Mergeable (s : Store) (v : Val) : Prop where
  unfrozen : ∀ a, s.Objects v a → ¬ s.Frozen a
  once : ∀ b slots, s.Within v (.thing b) → s.view b = some (.container .object slots) →
    ∀ slot ∈ slots, ∀ slot' ∈ slots, slot.1 ≠ slot'.1 → s.Clear slot.2 slot'.2

theorem Objects.congr (hview : ∀ a, Within s v (.thing a) → s'.view a = s.view a) :
    s'.Objects v a ↔ s.Objects v a := by
  constructor
  · rintro ⟨hw, slots, hv⟩
    have hold := (within_iff hview).mp hw
    exact ⟨hold, slots, (hview a hold).symm.trans hv⟩
  · rintro ⟨hw, slots, hv⟩
    exact ⟨hw.congr hview, slots, (hview a hw).trans hv⟩

theorem Clear.congr (h : Clear s v w) (hview : ∀ a, Within s v (.thing a) → s'.view a = s.view a)
    (hview' : ∀ a, Within s w (.thing a) → s'.view a = s.view a) : Clear s' v w :=
  fun a ha hw => h a ((Objects.congr hview).mp ha) ((within_iff hview').mp hw)

theorem Objects.slot {kind : Kind} {slot : Bytes × Val} (hv : s.view a = some (.container kind D))
    (hslot : slot ∈ D) (h : s.Objects slot.2 b) : s.Objects (.thing a) b := ⟨.of_slot hv hslot h.1, h.2⟩

theorem Mergeable.slot {kind : Kind} {slot : Bytes × Val} (h : Mergeable s (.thing a))
    (hv : s.view a = some (.container kind D)) (hslot : slot ∈ D) : Mergeable s slot.2 :=
  ⟨fun b hb => h.unfrozen b (hb.slot hv hslot), fun b slots hw => h.once b slots (.of_slot hv hslot hw)⟩

theorem Mergeable.congr (h : Mergeable s v) (hview : ∀ a, Within s v (.thing a) → s'.view a = s.view a)
    (hfrozen : ∀ a, s.Objects v a → ¬ s.Frozen a → ¬ s'.Frozen a) : Mergeable s' v := by
  constructor
  · intro a ha
    have hold := (Objects.congr hview).mp ha
    exact hfrozen a hold (h.unfrozen a hold)
  · intro b slots hw hv slot hslot slot' hslot' hne
    have hold := (within_iff hview).mp hw
    have hvold := (hview b hold).symm.trans hv
    apply (h.once b slots hold hvold slot hslot slot' hslot' hne).congr
    · exact fun a ha => hview a (hold.trans (.of_slot hvold hslot ha))
    · exact fun a ha => hview a (hold.trans (.of_slot hvold hslot' ha))

end Store

end SentryNative.Memory
