import SentryNative.Memory.Reach

/-!
# The trees that values denote

A value denotes the tree that a reader finds who goes down from it. A value that holds
itself denotes none.
-/

namespace SentryNative.Memory

open CLib ObjectMap

namespace Store

variable {s s' : Store} {v w x : Val} {tree : Value}

/-- What is found from a value on. -/
inductive Within (s : Store) (v : Val) : Val → Prop
  | refl : Within s v v
  | slot {b : Nat} {kind : Kind} {slots : List (Bytes × Val)} {key : Bytes} {w : Val} :
    Within s v (.thing b) → s.view b = some (.container kind slots) → (key, w) ∈ slots → Within s v w

inductive Denotes (s : Store) : Val → Value → Prop
  | null : Denotes s .null .null
  | bool {b : Bool} : Denotes s (.bool b) (.bool b)
  | int32 {i : Int32} : Denotes s (.int32 i) (.int32 i)
  | leaf {a : Nat} {w : Value} : s.view a = some (.leaf w) → Denotes s (.thing a) w
  | list {a : Nat} {slots : List (Bytes × Val)} {items : List Value} :
    s.view a = some (.container .list slots) → slots.length = items.length →
    (∀ (i : Nat) (slot : Bytes × Val) (item : Value), slots[i]? = some slot → items[i]? = some item →
      Denotes s slot.2 item) →
    Denotes s (.thing a) (.list items)
  | object {a : Nat} {slots : List (Bytes × Val)} {pairs : List (Bytes × Value)} :
    s.view a = some (.container .object slots) → slots.map Prod.fst = pairs.map Prod.fst →
    (∀ (i : Nat) (slot : Bytes × Val) (pair : Bytes × Value), slots[i]? = some slot → pairs[i]? = some pair →
      Denotes s slot.2 pair.2) →
    Denotes s (.thing a) (.object pairs)

theorem Within.trans (h : Within s v w) (h' : Within s w x) : Within s v x := by
  induction h' with
  | refl => exact h
  | slot _ hv hmem ih => exact .slot ih hv hmem

theorem Within.child {a : Nat} {kind : Kind} {slots : List (Bytes × Val)} {i : Nat} {slot : Bytes × Val}
    (hv : s.view a = some (.container kind slots)) (hi : slots[i]? = some slot) :
    Within s (.thing a) slot.2 := .slot .refl hv (List.mem_of_getElem? hi)

/-- A value denotes the same tree where all that is found from it looks the same. -/
theorem Denotes.congr (h : Denotes s v tree) (hview : ∀ a, Within s v (.thing a) → s'.view a = s.view a) :
    Denotes s' v tree := by
  induction h with
  | null => exact .null
  | bool => exact .bool
  | int32 => exact .int32
  | leaf hv => exact .leaf ((hview _ .refl).trans hv)
  | list hv hlen _ ih =>
    apply Denotes.list ((hview _ .refl).trans hv) hlen
    intro i slot item hslot hitem
    exact ih i slot item hslot hitem fun a ha => hview a ((Within.child hv hslot).trans ha)
  | object hv hkeys _ ih =>
    apply Denotes.object ((hview _ .refl).trans hv) hkeys
    intro i slot pair hslot hpair
    exact ih i slot pair hslot hpair fun a ha => hview a ((Within.child hv hslot).trans ha)

theorem Within.congr (h : Within s v w) (hview : ∀ a, Within s v (.thing a) → s'.view a = s.view a) :
    Within s' v w := by
  induction h with
  | refl => exact .refl
  | slot hb hv hmem ih => exact .slot ih ((hview _ hb).trans hv) hmem

/-- The same in both directions. -/
theorem within_iff (hview : ∀ a, Within s v (.thing a) → s'.view a = s.view a) :
    Within s' v w ↔ Within s v w := by
  constructor
  · intro h
    induction h with
    | refl => exact .refl
    | slot _ hv hmem ih => exact .slot ih ((hview _ ih).symm.trans hv) hmem
  · exact fun h => h.congr hview

theorem denotes_iff (hview : ∀ a, Within s v (.thing a) → s'.view a = s.view a) :
    Denotes s' v tree ↔ Denotes s v tree := by
  constructor
  · intro h
    apply h.congr
    exact fun a ha => (hview a ((within_iff hview).mp ha)).symm
  · exact fun h => h.congr hview

/-- What is found from a live value is live. -/
theorem Within.live {owned iters : Nat → Nat} (h : Within s v w) (hi : Inv s owned iters)
    (hv : ∀ a, v = .thing a → s.Live a) : ∀ a, w = .thing a → s.Live a := by
  cases h with
  | refl => exact hv
  | slot _ hview hmem =>
    rintro a rfl
    exact hi.live_of_view hview (List.mem_filterMap.mpr ⟨_, hmem, rfl⟩)

/-- Where only things that are not found from a value change, all that is found from it
is there and looks the same. -/
theorem Keeps.within {W : Nat → Prop} {owned iters owned' iters' : Nat → Nat} (hk : Keeps W s s')
    (hi : Inv s owned iters) (hi' : Inv s' owned' iters') (hv : ∀ a, v = .thing a → s.Live a)
    (hv' : ∀ a, v = .thing a → s'.Live a) (hW : ∀ a, Within s v (.thing a) → ¬ W a) (h : Within s v w) :
    ∀ a, w = .thing a → s'.Live a ∧ s'.view a = s.view a := by
  induction h with
  | refl =>
    rintro a rfl
    exact ⟨hv' a rfl, hk.view a (hv a rfl) (hv' a rfl) (hW a .refl)⟩
  | slot hb hview hmem ih =>
    rintro a rfl
    obtain ⟨_, hsame⟩ := ih _ rfl
    have hw := Within.slot hb hview hmem
    have hl := hi'.live_of_view (hsame.trans hview) (List.mem_filterMap.mpr ⟨_, hmem, rfl⟩)
    exact ⟨hl, hk.view a (hw.live hi hv a rfl) hl (hW a hw)⟩

theorem Keeps.within_view {W : Nat → Prop} {owned iters owned' iters' : Nat → Nat} (hk : Keeps W s s')
    (hi : Inv s owned iters) (hi' : Inv s' owned' iters') (hv : ∀ a, v = .thing a → s.Live a)
    (hv' : ∀ a, v = .thing a → s'.Live a) (hW : ∀ a, Within s v (.thing a) → ¬ W a) :
    ∀ a, Within s v (.thing a) → s'.view a = s.view a :=
  fun a ha => (hk.within hi hi' hv hv' hW ha a rfl).2

end Store

end SentryNative.Memory
