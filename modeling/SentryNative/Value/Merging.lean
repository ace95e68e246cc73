import Mathlib.Data.List.Nodup
import Mathlib.Data.List.Forall2
import SentryNative.Value.ObjectMap

/-!
# Merged trees

What a deep merge is for, on trees: at every key path the value that was there wins,
two objects are merged, and where there was nothing the other value is put in.
-/

namespace SentryNative.Value

open CLib ObjectMap

/-! ## What a merge is for -/

def IsObject (v : Value) : Prop := ∃ ps, v = .object ps

/-- A string or a number: what a `thing_t` holds that is no container. -/
def IsLeaf : Value → Prop
  | .string _ => True
  | .int64 _ => True
  | .uint64 _ => True
  | .double _ => True
  | _ => False

/-- The keys of every object are distinct C strings. What is in a list is left open. -/
inductive Tidy : Value → Prop
  | object {ps : List (Bytes × Value)} : Keyed ps → (∀ p ∈ ps, Tidy p.2) → Tidy (.object ps)
  | other {v : Value} : ¬ v.IsObject → Tidy v

/-- The value at a key of the one tree, of the other, and of the two merged; a key that
is absent has null. -/
inductive Merged : Value → Value → Value → Prop
  | filled (w : Value) : Merged .null w w
  | kept {v w : Value} : v ≠ .null → ¬ (v.IsObject ∧ w.IsObject) → Merged v w v
  | joined {ps qs rs : List (Bytes × Value)} :
    rs.map Prod.fst = ps.map Prod.fst ++ (qs.map Prod.fst).filter (fun k => k ∉ ps.map Prod.fst) →
    (∀ k ∈ qs.map Prod.fst, Merged (getPairs .null k ps) (getPairs .null k qs) (getPairs .null k rs)) →
    (∀ k ∉ qs.map Prod.fst, getPairs .null k rs = getPairs .null k ps) →
    Merged (.object ps) (.object qs) (.object rs)

/-- A tree into which another one need not be merged: at every key path of the other one
there is something. -/
inductive Covers : Value → Value → Prop
  | null : Covers .null .null
  | kept {v w : Value} : v ≠ .null → ¬ (v.IsObject ∧ w.IsObject) → Covers v w
  | object {ps qs : List (Bytes × Value)} :
    (∀ q ∈ qs, q.1 ∈ ps.map Prod.fst) → (∀ q ∈ qs, Covers (getPairs .null q.1 ps) q.2) →
    Covers (.object ps) (.object qs)

/-- Over a null there can be a null only. -/
theorem Covers.of_null {w : Value} (h : Covers .null w) : w = .null := by
  cases h with
  | null => rfl
  | kept hnull => exact absurd rfl hnull

theorem Tidy.keyed {ps : List (Bytes × Value)} (h : Tidy (.object ps)) : Keyed ps := by
  cases h with
  | object hk => exact hk
  | other hv => exact absurd ⟨ps, rfl⟩ hv

theorem Tidy.item {ps : List (Bytes × Value)} (h : Tidy (.object ps)) {p : Bytes × Value} (hp : p ∈ ps) :
    Tidy p.2 := by
  cases h with
  | object _ hitems => exact hitems p hp
  | other hv => exact absurd ⟨ps, rfl⟩ hv

theorem Tidy.null : Tidy .null := .other nofun

theorem Tidy.get {ps : List (Bytes × Value)} (h : Tidy (.object ps)) (k : Bytes) :
    Tidy (getPairs .null k ps) := by
  by_cases hk : k ∈ ps.map Prod.fst
  · obtain ⟨p, hp, rfl⟩ := List.mem_map.mp hk
    rw [getPairs_of_mem .null h.keyed hp]
    exact h.item hp
  · rw [getPairs_of_not_mem .null h.keyed hk]
    exact .null

/-- A tree covers itself. -/
theorem Tidy.covers {v : Value} (h : Tidy v) : Covers v v := by
  induction h with
  | @object ps hk _ ih =>
    apply Covers.object (fun q hq => List.mem_map_of_mem hq)
    intro q hq
    rw [getPairs_of_mem .null hk hq]
    exact ih q hq
  | @other v hv =>
    by_cases hnull : v = .null
    · rw [hnull]
      exact .null
    · exact .kept hnull fun h => hv h.1

/-- What has been merged in is covered. -/
theorem Merged.covers {v w r : Value} (h : Merged v w r) (hw : Tidy w) : Covers r w := by
  induction h with
  | filled w => exact hw.covers
  | kept hnull hnot => exact .kept hnull hnot
  | @joined ps qs rs hkeys _ _ ih =>
    apply Covers.object
    · intro q hq
      rw [hkeys]
      by_cases hp : q.1 ∈ ps.map Prod.fst
      · exact List.mem_append_left _ hp
      · exact List.mem_append_right _ (List.mem_filter.mpr ⟨List.mem_map_of_mem hq, decide_eq_true hp⟩)
    · intro q hq
      have hcov := ih q.1 (List.mem_map_of_mem hq) (hw.get q.1)
      rwa [getPairs_of_mem .null hw.keyed hq] at hcov

/-! ## One key after the other -/

/-- The pairs of the one object, the pairs of the other that are left, and the pairs in
the end. -/
inductive MergedPairs :
    List (Bytes × Value) → List (Bytes × Value) → List (Bytes × Value) → Prop
  | done (ps : List (Bytes × Value)) : MergedPairs ps [] ps
  | join {k : Bytes} {as bs cs ps qs rs : List (Bytes × Value)} : getPairs .null k ps = .object as →
    MergedPairs as bs cs → MergedPairs (setPairs k (.object cs) ps) qs rs →
    MergedPairs ps ((k, .object bs) :: qs) rs
  | fill {k : Bytes} {w : Value} {ps qs rs : List (Bytes × Value)} : getPairs .null k ps = .null →
    MergedPairs (setPairs k w ps) qs rs → MergedPairs ps ((k, w) :: qs) rs
  | keep {k : Bytes} {w : Value} {ps qs rs : List (Bytes × Value)} : getPairs .null k ps ≠ .null →
    ¬ ((getPairs .null k ps).IsObject ∧ w.IsObject) → MergedPairs ps qs rs → MergedPairs ps ((k, w) :: qs) rs

theorem mem_keys_of_getPairs {ps : List (Bytes × Value)} {k : Bytes} (h : Keyed ps)
    (hget : getPairs .null k ps ≠ .null) : k ∈ ps.map Prod.fst := by
  by_contra hk
  exact hget (getPairs_of_not_mem .null h hk)

/-- The keys of what is left that are not there yet, once a key has been set. -/
theorem filter_keys_set {ps qs : List (Bytes × Value)} {k : Bytes} (h : Keyed ps)
    (hk : k ∉ qs.map Prod.fst) (w v : Value) :
    (setPairs k v ps).map Prod.fst ++ (qs.map Prod.fst).filter (fun k' => k' ∉ (setPairs k v ps).map Prod.fst) =
      ps.map Prod.fst ++ (((k, w) :: qs).map Prod.fst).filter (fun k' => k' ∉ ps.map Prod.fst) := by
  rw [setPairs_keys h, List.map_cons]
  by_cases hmem : k ∈ ps.map Prod.fst
  · rw [if_pos hmem, List.filter_cons_of_neg (by simpa using hmem)]
  · rw [if_neg hmem, List.filter_cons_of_pos (by simpa using hmem), List.append_assoc]
    congr 1
    rw [List.singleton_append]
    congr 1
    apply List.filter_congr
    intro k' hk'
    have hne : k' ≠ k := by
      rintro rfl
      exact hk hk'
    simp [hne]

theorem Tidy.set {ps : List (Bytes × Value)} (h : Tidy (.object ps)) {k : Bytes} (hk : 0 ∉ k) {v : Value}
    (hv : Tidy v) : Tidy (.object (setPairs k v ps)) := by
  apply Tidy.object (h.keyed.set hk v)
  intro p hp
  rcases mem_setPairs hp with hold | rfl
  · exact h.item hold
  · exact hv

theorem Tidy.tail {p : Bytes × Value} {ps : List (Bytes × Value)} (h : Tidy (.object (p :: ps))) :
    Tidy (.object ps) := .object h.keyed.tail fun _ hq => h.item (List.mem_cons_of_mem _ hq)

/-- What one key after the other comes to. -/
structure Joined (ps qs rs : List (Bytes × Value)) : Prop where
  tidy : Tidy (.object rs)
  keys : rs.map Prod.fst = ps.map Prod.fst ++ (qs.map Prod.fst).filter (fun k => k ∉ ps.map Prod.fst)
  both : ∀ k ∈ qs.map Prod.fst, Merged (getPairs .null k ps) (getPairs .null k qs) (getPairs .null k rs)
  rest : ∀ k ∉ qs.map Prod.fst, getPairs .null k rs = getPairs .null k ps

theorem Joined.merged {ps qs rs : List (Bytes × Value)} (h : Joined ps qs rs) :
    Merged (.object ps) (.object qs) (.object rs) := .joined h.keys h.both h.rest

theorem getPairs_cons_of_ne {qs : List (Bytes × Value)} {k k' : Bytes} {w : Value} (h : Keyed ((k, w) :: qs))
    (hne : k' ≠ k) : getPairs .null k' ((k, w) :: qs) = getPairs .null k' qs := by
  have hnot : ¬ sliceEqs k' k = true := fun he => hne ((sliceEqs_iff h.head.1).mp he)
  rw [getPairs, if_neg hnot]

/-- A key is set to what the merge is for there, and the merge goes on. -/
theorem Joined.cons_set {ps qs rs : List (Bytes × Value)} {k : Bytes} {w v : Value} (hps : Keyed ps)
    (hqs : Keyed ((k, w) :: qs)) (hk : Merged (getPairs .null k ps) w v) (h : Joined (setPairs k v ps) qs rs) :
    Joined ps ((k, w) :: qs) rs := by
  have hnul : 0 ∉ k := hqs.nulFree (k, w) List.mem_cons_self
  have hnot : k ∉ qs.map Prod.fst := hqs.head.2
  refine ⟨h.tidy, h.keys.trans (filter_keys_set hps hnot w v), ?_, ?_⟩
  · intro k' hk'
    by_cases hkk : k' = k
    · subst k'
      rw [h.rest k hnot, getPairs_setPairs null hnul, getPairs_of_mem .null hqs List.mem_cons_self]
      exact hk
    · have hmem := (List.mem_cons.mp hk').resolve_left hkk
      rw [getPairs_cons_of_ne hqs hkk, ← getPairs_setPairs_of_ne null hnul hkk v ps]
      exact h.both k' hmem
  · intro k' hk'
    obtain ⟨hne, hmem⟩ := not_or.mp (mt List.mem_cons.mpr hk')
    rw [h.rest k' hmem, getPairs_setPairs_of_ne null hnul hne]

/-- A key keeps its value, and the merge goes on. -/
theorem Joined.cons_keep {ps qs rs : List (Bytes × Value)} {k : Bytes} {w : Value} (hps : Keyed ps)
    (hqs : Keyed ((k, w) :: qs)) (hnull : getPairs .null k ps ≠ .null)
    (hnot : ¬ ((getPairs .null k ps).IsObject ∧ w.IsObject)) (h : Joined ps qs rs) :
    Joined ps ((k, w) :: qs) rs := by
  refine ⟨h.tidy, ?_, ?_, ?_⟩
  · rw [h.keys, List.map_cons, List.filter_cons_of_neg (by simpa using mem_keys_of_getPairs hps hnull)]
  · intro k' hk'
    by_cases hkk : k' = k
    · subst k'
      rw [h.rest k hqs.head.2, getPairs_of_mem .null hqs List.mem_cons_self]
      exact .kept hnull hnot
    · rw [getPairs_cons_of_ne hqs hkk]
      exact h.both k' ((List.mem_cons.mp hk').resolve_left hkk)
  · intro k' hk'
    exact h.rest k' (not_or.mp (mt List.mem_cons.mpr hk')).2

/-- One key after the other, the two objects are merged. -/
theorem MergedPairs.joined {ps qs rs : List (Bytes × Value)} (h : MergedPairs ps qs rs)
    (hps : Tidy (.object ps)) (hqs : Tidy (.object qs)) : Joined ps qs rs := by
  induction h with
  | done ps => exact ⟨hps, (List.append_nil _).symm, nofun, fun _ _ => rfl⟩
  | @join k as bs cs ps qs rs hget _ _ ihin ih =>
    have hin := ihin (hget ▸ hps.get k) (hqs.item List.mem_cons_self)
    have hset := hps.set (hqs.keyed.nulFree _ List.mem_cons_self) hin.tidy
    exact .cons_set hps.keyed hqs.keyed (hget ▸ hin.merged) (ih hset hqs.tail)
  | @fill k w ps qs rs hget _ ih =>
    have hset := hps.set (hqs.keyed.nulFree _ List.mem_cons_self) (hqs.item List.mem_cons_self)
    apply Joined.cons_set hps.keyed hqs.keyed _ (ih hset hqs.tail)
    rw [hget]
    exact .filled w
  | keep hnull hnot _ ih => exact .cons_keep hps.keyed hqs.keyed hnull hnot (ih hps hqs.tail)

end SentryNative.Value
