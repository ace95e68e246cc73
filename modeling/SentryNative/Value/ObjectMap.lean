import SentryNative.Lib.Machine
import SentryNative.Value.Tree

/-!
# Objects as maps

The pairs of an `obj_t`. A key is given by a pointer and a length and is stored
in a buffer with a NUL at its end; every comparison reads the stored key as a C
string. The type of the values is left open: what is done here to a value is done
to a slot that holds it.
-/

namespace SentryNative.ObjectMap

open CLib

variable {V : Type}

/-! ## The pairs -/

/-- `sentry__slice_eqs`: the slice against the stored key up to its first NUL. -/
def sliceEqs (k stored : Bytes) : Bool := k = cstr stored

def getPairs (null : V) (k : Bytes) : List (Bytes × V) → V
  | [] => null
  | (stored, w) :: ps => if sliceEqs k stored then w else getPairs null k ps

def setPairs (k : Bytes) (v : V) : List (Bytes × V) → List (Bytes × V)
  | [] => [(k, v)]
  | (stored, w) :: ps =>
    if sliceEqs k stored then (k, v) :: ps else (stored, w) :: setPairs k v ps

def removePairs (k : Bytes) : List (Bytes × V) → Option (List (Bytes × V))
  | [] => none
  | (stored, w) :: ps =>
    if sliceEqs k stored then some ps else (removePairs k ps).map ((stored, w) :: ·)

/-- `obj_clone`, which copies a key by `sentry__string_clone`. -/
def clonePairs (ps : List (Bytes × V)) : List (Bytes × V) := ps.map fun p => (cstr p.1, p.2)

/-! ## Objects -/

/-- An object value with its frozen bit; nothing else of a `thing_t` matters here. -/
structure Object (V : Type) where
  frozen : Bool
  pairs : List (Bytes × V)
  deriving DecidableEq, Repr

namespace Object

def new : Object V := ⟨false, []⟩

def keys (o : Object V) : List Bytes := o.pairs.map Prod.fst

/-- `sentry_value_get_by_key_n`. -/
def getByKeyN (null : V) (o : Object V) (k : Bytes) : V := getPairs null k o.pairs

/-- `sentry_value_set_by_key_n`, with what it returns. -/
def setByKeyN (o : Object V) (k : Bytes) (v : V) : Nat × Object V :=
  if o.frozen then (1, o) else (0, { o with pairs := setPairs k v o.pairs })

/-- `sentry_value_remove_by_key_n`, with what it returns. -/
def removeByKeyN (o : Object V) (k : Bytes) : Nat × Object V :=
  if o.frozen then (1, o)
  else match removePairs k o.pairs with
    | some ps => (0, { o with pairs := ps })
    | none => (1, o)

/-- The map case of `value_from_mpack`: keys that are no strings are skipped. -/
def decode (entries : List (Option Bytes × V)) : Object V :=
  entries.foldl (fun o (k?, v) => match k? with
    | some k => (o.setByKeyN k v).2
    | none => o) new

end Object

/-- What may be done to an object. -/
inductive Op (V : Type) where
  | set (k : Bytes) (v : V)
  | remove (k : Bytes)
  | freeze
  /-- `sentry__value_clone`: an unfrozen object with the same pairs. -/
  | clone
  /-- `thing_detach` on shared pairs. -/
  | detach

def Op.run (o : Object V) : Op V → Object V
  | .set k v => (o.setByKeyN k v).2
  | .remove k => (o.removeByKeyN k).2
  | .freeze => { o with frozen := true }
  | .clone => { o with frozen := false }
  | .detach => { o with pairs := clonePairs o.pairs }

/-- The keys an operation stores are of the given kind. -/
def Op.Stores (P : Bytes → Prop) : Op V → Prop
  | .set k _ => P k
  | _ => True

/-- The objects of all runs that store keys of the given kind; `Object.new` is a
decoded map without entries. -/
def Reachable (P : Bytes → Prop) : Object V → Prop :=
  Machine.Reachable (fun o => ∃ entries, (∀ k v, (some k, v) ∈ entries → P k) ∧ o = Object.decode entries)
    fun o o' => ∃ op : Op V, op.Stores P ∧ op.run o = o'

/-! ## What a map promises -/

/-- After `k` is set, it is there, the other keys are as they were, and a new key
is the last one. -/
structure SetLaws (null : V) (o : Object V) (k : Bytes) (v : V) : Prop where
  get : (o.setByKeyN k v).2.getByKeyN null k = v
  other : ∀ k', k' ≠ k → (o.setByKeyN k v).2.getByKeyN null k' = o.getByKeyN null k'
  order : (o.setByKeyN k v).2.keys = if k ∈ o.keys then o.keys else o.keys ++ [k]

/-- After `k` is removed, it is not there, and the others are as they were. -/
structure RemoveLaws (null : V) (o : Object V) (k : Bytes) : Prop where
  get : (o.removeByKeyN k).2.getByKeyN null k = null
  other : ∀ k', k' ≠ k → (o.removeByKeyN k).2.getByKeyN null k' = o.getByKeyN null k'
  order : (o.removeByKeyN k).2.keys = o.keys.erase k

/-! ## Pairs with C strings for keys -/

/-- Distinct keys without NUL. -/
structure Keyed (ps : List (Bytes × V)) : Prop where
  nulFree : ∀ p ∈ ps, 0 ∉ p.1
  nodup : (ps.map Prod.fst).Nodup

theorem Keyed.nil : Keyed ([] : List (Bytes × V)) := ⟨nofun, List.nodup_nil⟩

theorem Keyed.tail {p : Bytes × V} {ps : List (Bytes × V)} (h : Keyed (p :: ps)) : Keyed ps :=
  ⟨fun q hq => h.nulFree q (List.mem_cons_of_mem p hq), (List.nodup_cons.mp h.nodup).2⟩

theorem Keyed.head {s : Bytes} {w : V} {ps : List (Bytes × V)} (h : Keyed ((s, w) :: ps)) :
    cstr s = s ∧ s ∉ ps.map Prod.fst :=
  ⟨cstr_of_not_mem (h.nulFree (s, w) List.mem_cons_self), (List.nodup_cons.mp h.nodup).1⟩

theorem sliceEqs_iff {k stored : Bytes} (h : cstr stored = stored) :
    sliceEqs k stored = true ↔ k = stored := by simp [sliceEqs, h]

/-- A slice with a NUL equals no C string. -/
theorem sliceEqs_nul {k : Bytes} (h : 0 ∈ k) (stored : Bytes) : sliceEqs k stored = false := by
  simp only [sliceEqs, decide_eq_false_iff_not]
  rintro rfl
  exact zero_not_mem_cstr stored h

theorem getPairs_nul (null : V) {k : Bytes} (h : 0 ∈ k) (ps : List (Bytes × V)) :
    getPairs null k ps = null := by
  induction ps with
  | nil => rfl
  | cons p ps ih => simp only [getPairs, sliceEqs_nul h, Bool.false_eq_true, if_false, ih]

theorem removePairs_nul {k : Bytes} (h : 0 ∈ k) (ps : List (Bytes × V)) :
    removePairs k ps = none := by
  induction ps with
  | nil => rfl
  | cons p ps ih =>
    simp only [removePairs, sliceEqs_nul h, Bool.false_eq_true, if_false, ih, Option.map_none]

theorem getPairs_of_not_mem (null : V) {k : Bytes} {ps : List (Bytes × V)} (h : Keyed ps)
    (hk : k ∉ ps.map Prod.fst) : getPairs null k ps = null := by
  induction ps with
  | nil => rfl
  | cons p ps ih =>
    obtain ⟨s, w⟩ := p
    simp only [List.map_cons, List.mem_cons, not_or] at hk
    have hs : ¬ sliceEqs k s = true := fun he => hk.1 ((sliceEqs_iff h.head.1).mp he)
    simp only [getPairs, if_neg hs]
    exact ih h.tail hk.2

theorem getPairs_of_mem (null : V) {k : Bytes} {v : V} {ps : List (Bytes × V)} (h : Keyed ps)
    (hm : (k, v) ∈ ps) : getPairs null k ps = v := by
  induction ps with
  | nil => cases hm
  | cons p ps ih =>
    obtain ⟨s, w⟩ := p
    rcases List.mem_cons.mp hm with he | hm
    · cases he
      simp only [getPairs, (sliceEqs_iff h.head.1).mpr, if_true]
    · have hn : ¬ sliceEqs k s = true := by
        intro he
        apply h.head.2
        rw [← (sliceEqs_iff h.head.1).mp he]
        exact List.mem_map_of_mem hm
      simp only [getPairs, if_neg hn]
      exact ih h.tail hm

/-! ### Set -/

/-- The keys after a key was set; a key with a NUL matches no stored one. -/
theorem setPairs_keys {k : Bytes} {ps : List (Bytes × V)} (h : Keyed ps) (v : V) :
    (setPairs k v ps).map Prod.fst =
      if k ∈ ps.map Prod.fst then ps.map Prod.fst else ps.map Prod.fst ++ [k] := by
  induction ps with
  | nil => rfl
  | cons p ps ih =>
    obtain ⟨s, w⟩ := p
    by_cases hs : k = s
    · subst k
      simp [setPairs, sliceEqs_iff h.head.1]
    · have hn : ¬ sliceEqs k s = true := fun he => hs ((sliceEqs_iff h.head.1).mp he)
      simp only [setPairs, if_neg hn, List.map_cons, ih h.tail, List.mem_cons, hs, false_or]
      split <;> rfl

theorem setPairs_of_not_mem {k : Bytes} {ps : List (Bytes × V)} (h : Keyed ps)
    (hk : k ∉ ps.map Prod.fst) (v : V) : setPairs k v ps = ps ++ [(k, v)] := by
  induction ps with
  | nil => rfl
  | cons p ps ih =>
    obtain ⟨s, w⟩ := p
    simp only [List.map_cons, List.mem_cons, not_or] at hk
    have hn : ¬ sliceEqs k s = true := fun he => hk.1 ((sliceEqs_iff h.head.1).mp he)
    simp only [setPairs, if_neg hn, ih h.tail hk.2, List.cons_append]

theorem Keyed.set {k : Bytes} {ps : List (Bytes × V)} (h : Keyed ps) (hk : 0 ∉ k) (v : V) :
    Keyed (setPairs k v ps) := by
  have hkeys := setPairs_keys (k := k) h v
  constructor
  · intro p hp
    have hm : p.1 ∈ (setPairs k v ps).map Prod.fst := List.mem_map_of_mem hp
    have hcases : p.1 ∈ ps.map Prod.fst ∨ p.1 = k := by
      rw [hkeys] at hm
      split at hm
      · exact Or.inl hm
      · simpa using hm
    rcases hcases with hm | hm
    · obtain ⟨q, hq, he⟩ := List.mem_map.mp hm
      exact he ▸ h.nulFree q hq
    · exact hm ▸ hk
  · rw [hkeys]
    split
    · exact h.nodup
    · rename_i hnew
      apply List.Nodup.append h.nodup (List.nodup_singleton k)
      simpa using hnew

theorem getPairs_setPairs (null : V) {k : Bytes} (hk : 0 ∉ k) (v : V) (ps : List (Bytes × V)) :
    getPairs null k (setPairs k v ps) = v := by
  have hself : sliceEqs k k = true := (sliceEqs_iff (cstr_of_not_mem hk)).mpr rfl
  induction ps with
  | nil => simp only [setPairs, getPairs, hself, if_true]
  | cons p ps ih =>
    obtain ⟨s, w⟩ := p
    by_cases hs : sliceEqs k s = true
    · simp only [setPairs, if_pos hs, getPairs, hself, if_true]
    · simp only [setPairs, if_neg hs, getPairs, ih]

theorem getPairs_setPairs_of_ne (null : V) {k k' : Bytes} (hk : 0 ∉ k) (hne : k' ≠ k) (v : V)
    (ps : List (Bytes × V)) : getPairs null k' (setPairs k v ps) = getPairs null k' ps := by
  have hother : ¬ sliceEqs k' k = true := fun he => hne ((sliceEqs_iff (cstr_of_not_mem hk)).mp he)
  induction ps with
  | nil => simp only [setPairs, getPairs, if_neg hother]
  | cons p ps ih =>
    obtain ⟨s, w⟩ := p
    by_cases hs : sliceEqs k s = true
    · have hs' : ¬ sliceEqs k' s = true := by
        simp only [sliceEqs, decide_eq_true_eq] at hs ⊢
        exact fun he => hne (he.trans hs.symm)
      simp only [setPairs, if_pos hs, getPairs, if_neg hother, if_neg hs']
    · simp only [setPairs, if_neg hs, getPairs, ih]

theorem mem_setPairs {k : Bytes} {v : V} {ps : List (Bytes × V)} {p : Bytes × V}
    (h : p ∈ setPairs k v ps) : p ∈ ps ∨ p = (k, v) := by
  induction ps with
  | nil => exact .inr (List.mem_singleton.mp h)
  | cons first ps ih =>
    obtain ⟨stored, w⟩ := first
    simp only [setPairs] at h
    split at h
    · rcases List.mem_cons.mp h with rfl | hmem
      · exact .inr rfl
      · exact .inl (List.mem_cons_of_mem _ hmem)
    · rcases List.mem_cons.mp h with rfl | hmem
      · exact .inl List.mem_cons_self
      · exact (ih hmem).imp (List.mem_cons_of_mem _) id

/-! ### Remove -/

/-- Removal takes out the one pair of the key. -/
theorem removePairs_spec {k : Bytes} {ps : List (Bytes × V)} (h : Keyed ps) :
    match removePairs k ps with
    | some rest => k ∈ ps.map Prod.fst ∧ Keyed rest ∧ rest.map Prod.fst = (ps.map Prod.fst).erase k ∧
        ∀ null : V, ∀ k', k' ≠ k → getPairs null k' rest = getPairs null k' ps
    | none => k ∉ ps.map Prod.fst := by
  induction ps with
  | nil => exact nofun
  | cons p ps ih =>
    obtain ⟨s, w⟩ := p
    have ih := ih h.tail
    by_cases hs : k = s
    · subst k
      have hself : sliceEqs s s = true := (sliceEqs_iff h.head.1).mpr rfl
      simp only [removePairs, hself, if_true, List.map_cons, List.mem_cons, true_or, true_and]
      refine ⟨h.tail, by simp, fun null k' hk => ?_⟩
      have hn : ¬ sliceEqs k' s = true := fun he => hk ((sliceEqs_iff h.head.1).mp he)
      simp only [getPairs, if_neg hn]
    · have hn : ¬ sliceEqs k s = true := fun he => hs ((sliceEqs_iff h.head.1).mp he)
      simp only [removePairs, if_neg hn]
      cases hr : removePairs k ps with
      | none =>
        rw [hr] at ih
        simp only [Option.map_none, List.map_cons, List.mem_cons, hs, false_or]
        exact ih
      | some rest =>
        rw [hr] at ih
        obtain ⟨hm, hkeyed, herase, hget⟩ := ih
        simp only [Option.map_some, List.map_cons, List.mem_cons, hs, false_or]
        refine ⟨hm, ?_, ?_, ?_⟩
        · constructor
          · intro q hq
            rcases List.mem_cons.mp hq with rfl | hq
            · exact h.nulFree _ List.mem_cons_self
            · exact hkeyed.nulFree q hq
          · rw [List.map_cons, List.nodup_cons]
            refine ⟨fun hin => h.head.2 ?_, hkeyed.nodup⟩
            rw [herase] at hin
            exact List.mem_of_mem_erase hin
        · rw [herase, List.erase_cons_tail (by simpa using Ne.symm hs)]
        · intro null k' hk
          simp only [getPairs, hget null k' hk]

theorem clonePairs_eq {ps : List (Bytes × V)} (h : Keyed ps) : clonePairs ps = ps := by
  unfold clonePairs
  conv_rhs => rw [← List.map_id ps]
  apply List.map_congr_left
  intro p hp
  rw [cstr_of_not_mem (h.nulFree p hp)]
  rfl

/-! ## Runs -/

theorem Keyed.run {o : Object V} (h : Keyed o.pairs) {op : Op V} (hop : op.Stores (0 ∉ ·)) :
    Keyed (op.run o).pairs := by
  cases op with
  | set k v =>
    simp only [Op.run, Object.setByKeyN]
    split
    · exact h
    · exact h.set hop v
  | remove k =>
    simp only [Op.run, Object.removeByKeyN]
    have hspec := removePairs_spec (k := k) h
    split
    · exact h
    · cases hr : removePairs k o.pairs with
      | none => exact h
      | some rest =>
        rw [hr] at hspec
        exact hspec.2.1
  | freeze => exact h
  | clone => exact h
  | detach =>
    simp only [Op.run, clonePairs_eq h]
    exact h

/-- A decoded map is a run of its own: one set for each entry. -/
theorem Keyed.decode {entries : List (Option Bytes × V)}
    (h : ∀ k v, (some k, v) ∈ entries → 0 ∉ k) : Keyed (Object.decode entries).pairs := by
  suffices hfold : ∀ o : Object V, Keyed o.pairs → Keyed (entries.foldl (fun o (k?, v) =>
      match k? with
      | some k => (o.setByKeyN k v).2
      | none => o) o).pairs from hfold .new .nil
  induction entries with
  | nil => exact fun o ho => ho
  | cons e entries ih =>
    intro o ho
    obtain ⟨k?, v⟩ := e
    have hrest : ∀ k v, (some k, v) ∈ entries → 0 ∉ k :=
      fun k v hm => h k v (List.mem_cons_of_mem _ hm)
    apply ih hrest
    cases k? with
    | none => exact ho
    | some k =>
      have hk : 0 ∉ k := h k v List.mem_cons_self
      exact @Keyed.run V o ho (.set k v) hk

theorem Reachable.keyed {o : Object V} (h : Reachable (0 ∉ ·) o) : Keyed o.pairs := by
  apply Machine.Reachable.invariant (I := fun o : Object V => Keyed o.pairs) _ _ h
  · rintro o ⟨entries, hk, rfl⟩
    exact Keyed.decode hk
  · rintro o o' ho ⟨op, hop, rfl⟩
    exact ho.run hop

theorem setLaws {o : Object V} (null : V) (h : Keyed o.pairs) (hf : o.frozen = false) {k : Bytes}
    (hk : 0 ∉ k) (v : V) : SetLaws null o k v := by
  have hset : (o.setByKeyN k v).2 = { o with pairs := setPairs k v o.pairs } := by
    simp [Object.setByKeyN, hf]
  constructor
  · rw [hset]
    exact getPairs_setPairs null hk v o.pairs
  · intro k' hne
    rw [hset]
    exact getPairs_setPairs_of_ne null hk hne v o.pairs
  · rw [hset]
    exact setPairs_keys h v

/-- A frozen object is not written, and a key with a NUL is not found again. -/
theorem not_setLaws [Nontrivial V] {o : Object V} (null : V) {k : Bytes}
    (h : o.frozen = true ∨ 0 ∈ k) : ¬ ∀ v, SetLaws null o k v := by
  intro hall
  rcases h with hf | hk
  · obtain ⟨v, hv⟩ := exists_ne (o.getByKeyN null k)
    have hget := (hall v).get
    simp only [Object.setByKeyN, hf, if_true] at hget
    exact hv hget.symm
  · obtain ⟨v, hv⟩ := exists_ne null
    have hget := (hall v).get
    unfold Object.getByKeyN at hget
    rw [getPairs_nul null hk] at hget
    exact hv hget.symm

theorem removeLaws_iff {o : Object V} (null : V) (h : Keyed o.pairs) (k : Bytes) :
    RemoveLaws null o k ↔ o.frozen = false ∨ k ∉ o.keys := by
  have hspec := removePairs_spec (k := k) h
  cases hr : removePairs k o.pairs with
  | none =>
    rw [hr] at hspec
    have hsame : (o.removeByKeyN k).2 = o := by
      simp only [Object.removeByKeyN, hr]
      split <;> rfl
    refine ⟨fun _ => Or.inr hspec, fun _ => ?_⟩
    constructor
    · rw [hsame]
      exact getPairs_of_not_mem null h hspec
    · intro k' _
      rw [hsame]
    · rw [hsame]
      exact (List.erase_of_not_mem hspec).symm
  | some rest =>
    rw [hr] at hspec
    obtain ⟨hm, hkeyed, herase, hget⟩ := hspec
    have hkm : k ∈ o.keys := hm
    constructor
    · intro hlaws
      left
      cases hf : o.frozen with
      | false => rfl
      | true =>
        have horder := hlaws.order
        simp only [Object.removeByKeyN, hf, if_true] at horder
        have hlen := congrArg List.length horder
        rw [List.length_erase_of_mem hkm] at hlen
        have hpos := List.length_pos_of_mem hkm
        omega
    · intro hor
      have hf : o.frozen = false := by
        rcases hor with hf | hn
        · exact hf
        · exact absurd hkm hn
      have hrem : (o.removeByKeyN k).2 = { o with pairs := rest } := by
        simp [Object.removeByKeyN, hf, hr]
      constructor
      · rw [hrem]
        apply getPairs_of_not_mem null hkeyed
        rw [herase]
        exact h.nodup.not_mem_erase
      · intro k' hne
        rw [hrem]
        exact hget null k' hne
      · rw [hrem]
        exact herase

/-- An object that was only given keys without NUL is a map with its keys in the
order of their insertion, and a key has the laws of a map exactly if it has no NUL. -/
theorem object_is_map [Nontrivial V] (null : V) {o : Object V} (h : Reachable (0 ∉ ·) o) :
    o.keys.Nodup ∧
      (∀ k, (∀ v, SetLaws null o k v) ↔ o.frozen = false ∧ 0 ∉ k) ∧
      ∀ k, RemoveLaws null o k ↔ o.frozen = false ∨ k ∉ o.keys := by
  refine ⟨h.keyed.nodup, fun k => ⟨fun hall => ?_, fun hk v => ?_⟩, removeLaws_iff null h.keyed⟩
  · have hn := mt (not_setLaws (k := k) (o := o) null) (not_not.mpr hall)
    simpa only [not_or, Bool.not_eq_true] using hn
  · exact setLaws null h.keyed hk.1 hk.2 v

/-- A key set twice, with a removal between. -/
theorem object_is_map_reset :
    (Object.keys ⟨false, [([98], Value.int32 2), ([97], Value.int32 3)]⟩).Nodup ∧
      SetLaws .null ⟨false, [([98], Value.int32 2), ([97], Value.int32 3)]⟩ [98] (.bool true) := by
  have hnt : Nontrivial Value := ⟨.null, .bool true, by simp⟩
  have hreach : Reachable (0 ∉ ·)
      (⟨false, [([98], Value.int32 2), ([97], Value.int32 3)]⟩ : Object Value) := by
    have hstart : Reachable (0 ∉ ·)
        (Object.decode [(some [97], Value.int32 1), (none, .null), (some [98], .int32 2)]) := by
      refine .start ⟨_, ?_, rfl⟩
      intro k v hm
      simp only [List.mem_cons, Prod.mk.injEq, Option.some.injEq, reduceCtorEq, false_and,
        List.not_mem_nil, or_false, false_or] at hm
      rcases hm with ⟨rfl, -⟩ | ⟨rfl, -⟩ <;> decide
    have hremoved := hstart.next ⟨.remove [97], trivial, rfl⟩
    exact hremoved.next ⟨.set [97] (.int32 3), by simp [Op.Stores], rfl⟩
  have hmap := object_is_map Value.null hreach
  exact ⟨hmap.1, (hmap.2.1 [98]).mpr ⟨rfl, by decide⟩ _⟩

/-- The key `a\0b` is stored and not found, a second set stores it again, and both
are found under `a`. -/
theorem nul_key_lost :
    let o := (Object.new.setByKeyN [97, 0, 98] (Value.int32 1)).2
    Reachable (fun _ => True) o ∧ ¬ SetLaws .null .new [97, 0, 98] (Value.int32 1) ∧
      (o.setByKeyN [97, 0, 98] (.int32 2)).2.keys = [[97, 0, 98], [97, 0, 98]] ∧
      (Object.decode [(some [97, 0, 98], Value.int32 1), (some [97, 0, 98], .int32 2)]).keys =
        [[97, 0, 98], [97, 0, 98]] ∧
      o.getByKeyN .null [97] = .int32 1 := by
  refine ⟨?_, fun h => ?_, rfl, rfl, rfl⟩
  · have hnew : Reachable (fun _ => True) (Object.new : Object Value) :=
      .start ⟨[], nofun, rfl⟩
    exact hnew.next ⟨.set [97, 0, 98] (.int32 1), trivial, rfl⟩
  · cases h.get

end SentryNative.ObjectMap
