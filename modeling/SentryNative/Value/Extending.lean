import SentryNative.Value.Merging

/-!
# Trees with more in them

`sentry__value_merge_objects` as a function on trees, and what filling in and merging have in common: whatever is
there stays, at every key path and at every index.

* `Extends.trans`: filling in may be done in steps;
* `mergePairs_merged`: the function does what a merge is for;
* `getByKey_mergedAt`: the first value that there is for a key.
-/

namespace SentryNative.Value

open CLib ObjectMap

/-- `sentry_value_is_null`. -/
def isNull : Value → Bool
  | .null => true
  | _ => false

/-- `sentry_value_get_type` of an object. -/
def isObject : Value → Bool
  | .object _ => true
  | _ => false

/-- `sentry_value_get_by_index`. -/
def getByIndex (v : Value) (i : Nat) : Value :=
  match v with
  | .list vs => vs.getD i .null
  | _ => .null

/-- `sentry_value_remove_by_key`. -/
def removeByKey (v : Value) (k : Bytes) : Value :=
  match v with
  | .object ps => .object (ps.eraseP fun p => p.1 = k)
  | v => v

mutual

/-- `sentry__value_merge_objects`, where no object is frozen or shared. -/
def mergeObjects : Value → Value → Value
  | .object ps, .object qs => .object (mergePairs ps qs)
  | v, _ => v

/-- Its loop. -/
def mergePairs : List (Bytes × Value) → List (Bytes × Value) → List (Bytes × Value)
  | ps, [] => ps
  | ps, (k, w) :: qs =>
    if (lookup k ps).isObject ∧ w.isObject then mergePairs (insert k (mergeObjects (lookup k ps) w) ps) qs
    else if (lookup k ps).isNull then mergePairs (insert k w ps) qs
    else mergePairs ps qs

end

theorem isNull_iff {v : Value} : v.isNull = true ↔ v = .null := by
  cases v <;> simp [isNull]

theorem isObject_iff {v : Value} : v.isObject = true ↔ v.IsObject := by
  cases v <;> simp [isObject, IsObject]

/-! ## Filling in -/

/-- Whatever is in the one tree is in the other, in its place. -/
inductive Extends : Value → Value → Prop
  | fill (w : Value) : Extends .null w
  | refl (v : Value) : Extends v v
  | object {ps qs : List (Bytes × Value)} : (∀ k, Extends (lookup k ps) (lookup k qs)) → Extends (.object ps) (.object qs)
  | list {vs ws : List Value} : vs.length = ws.length → (∀ i, Extends (vs.getD i .null) (ws.getD i .null)) →
    Extends (.list vs) (.list ws)

theorem Extends.trans {u v w : Value} (h : Extends u v) (h' : Extends v w) : Extends u w := by
  induction h generalizing w with
  | fill => exact .fill w
  | refl => exact h'
  | object hps ih =>
    cases h' with
    | refl => exact .object hps
    | object hqs => exact .object fun k => ih k (hqs k)
  | list hlen hvs ih =>
    cases h' with
    | refl => exact .list hlen hvs
    | list hlen' hws => exact .list (hlen.trans hlen') fun i => ih i (hws i)

theorem Extends.getByKey {v w : Value} (h : Extends v w) (k : Bytes) : Extends (v.getByKey k) (w.getByKey k) := by
  cases h with
  | fill => exact .fill _
  | refl => exact .refl _
  | object hps => exact hps k
  | list => exact .refl _

theorem Extends.getByIndex {v w : Value} (h : Extends v w) (i : Nat) : Extends (v.getByIndex i) (w.getByIndex i) := by
  cases h with
  | fill => exact .fill _
  | refl => exact .refl _
  | object => exact .refl _
  | list _ hvs => exact hvs i

/-- A leaf stays what it is. -/
theorem Extends.leaf {v w : Value} (h : Extends v w) (hv : v.IsLeaf) : w = v := by
  cases h with
  | fill => exact absurd hv id
  | refl => rfl
  | object => exact absurd hv id
  | list => exact absurd hv id

theorem Extends.isObject {v w : Value} (h : Extends v w) (hv : v.IsObject) : w.IsObject := by
  obtain ⟨ps, rfl⟩ := hv
  cases h with
  | refl => exact ⟨ps, rfl⟩
  | object => exact ⟨_, rfl⟩

/-- One key is filled in. -/
theorem Extends.insert {ps : List (Bytes × Value)} {k : Bytes} {v : Value} (h : Extends (lookup k ps) v) :
    Extends (.object ps) (.object (insert k v ps)) := by
  apply Extends.object
  intro k'
  by_cases hk : k' = k
  · subst hk
    rw [lookup_insert]
    exact h
  · rw [lookup_insert_of_ne (fun h => hk h.symm)]
    exact .refl _

theorem Extends.setByKey {v x : Value} {k : Bytes} (h : Extends (v.getByKey k) x) : Extends v (v.setByKey k x) := by
  cases v with
  | object ps => exact .insert h
  | _ => exact .refl _

theorem extends_merge (w : Value) : ∀ v, Extends v (mergeObjects v w) := by
  induction w using tree_induction with
  | object qs ih =>
    intro v
    cases v with
    | object ps =>
      rw [mergeObjects]
      induction qs generalizing ps with
      | nil => exact .refl _
      | cons q qs ihq =>
        obtain ⟨k, w⟩ := q
        have hrest := ihq fun p hp => ih p (List.mem_cons_of_mem _ hp)
        rw [mergePairs]
        split
        · exact (Extends.insert (ih (k, w) List.mem_cons_self _)).trans (hrest _)
        · split
          · rename_i hnull
            have hfill : Extends (lookup k ps) w := by
              rw [isNull_iff.mp hnull]
              exact .fill w
            exact (Extends.insert hfill).trans (hrest _)
          · exact hrest _
    | _ => exact .refl _
  | _ => intro v; cases v <;> exact .refl _

/-! ## What the merge is for -/

theorem getPairs_eq_lookup {ps : List (Bytes × Value)} (h : Keyed ps) (k : Bytes) :
    getPairs .null k ps = lookup k ps := by
  induction ps with
  | nil => rfl
  | cons p ps ih =>
    obtain ⟨k', v⟩ := p
    have hk : sliceEqs k k' = true ↔ k' = k := (sliceEqs_iff h.head.1).trans eq_comm
    simp only [getPairs, lookup, hk, ih h.tail]

theorem setPairs_eq_insert {ps : List (Bytes × Value)} (h : Keyed ps) (k : Bytes) (v : Value) :
    setPairs k v ps = insert k v ps := by
  induction ps with
  | nil => rfl
  | cons p ps ih =>
    obtain ⟨k', w⟩ := p
    have hiff : sliceEqs k k' = true ↔ k' = k := (sliceEqs_iff h.head.1).trans eq_comm
    simp only [setPairs, insert, hiff, ih h.tail]

/-- **The function merges one key after the other**, into tidy trees. -/
theorem mergePairs_merged {w : Value} : ∀ qs, w = .object qs → Tidy w →
    ∀ ps, Tidy (.object ps) → MergedPairs ps qs (mergePairs ps qs) := by
  induction w using tree_induction with
  | object qs ih =>
    intro _ heq
    cases heq
    induction qs with
    | nil => exact fun _ ps _ => .done ps
    | cons q qs ihq =>
      obtain ⟨k, w⟩ := q
      intro hqs ps hps
      have hk : 0 ∉ k := hqs.keyed.nulFree (k, w) List.mem_cons_self
      have hw : Tidy w := hqs.item (p := (k, w)) List.mem_cons_self
      have hget : getPairs .null k ps = lookup k ps := getPairs_eq_lookup hps.keyed k
      have hrest := ihq (fun p hp => ih p (List.mem_cons_of_mem _ hp)) hqs.tail
      rw [mergePairs]
      split
      · rename_i hboth
        obtain ⟨as, has⟩ := isObject_iff.mp hboth.1
        obtain ⟨bs, rfl⟩ := isObject_iff.mp hboth.2
        have hin := ih (k, .object bs) List.mem_cons_self bs rfl hw as (by rw [← has, ← hget]; exact hps.get k)
        have hset := hps.set hk (hin.joined (by rw [← has, ← hget]; exact hps.get k) hw).tidy
        rw [has, mergeObjects, ← setPairs_eq_insert hps.keyed]
        exact .join (hget.trans has) hin (hrest _ hset)
      · rename_i hnot
        split
        · rename_i hnull
          rw [← setPairs_eq_insert hps.keyed]
          exact .fill (hget.trans (isNull_iff.mp hnull)) (hrest _ (hps.set hk hw))
        · rename_i hnull
          refine .keep (fun h => hnull (isNull_iff.mpr (hget.symm.trans h))) (fun h => hnot ?_) (hrest ps hps)
          exact ⟨isObject_iff.mpr (hget ▸ h.1), isObject_iff.mpr h.2⟩
  | _ => exact fun _ heq => by cases heq

theorem mergeObjects_merged {v w : Value} (hv : Tidy v) (hw : Tidy w) (hnull : v ≠ .null) :
    Merged v w (mergeObjects v w) ∧ Tidy (mergeObjects v w) := by
  by_cases hboth : v.IsObject ∧ w.IsObject
  · obtain ⟨⟨ps, rfl⟩, qs, rfl⟩ := hboth
    have hj := (mergePairs_merged qs rfl hw ps hv).joined hv hw
    exact ⟨hj.merged, hj.tidy⟩
  · have hsame : mergeObjects v w = v := by
      cases v with
      | object ps =>
        cases w with
        | object qs => exact absurd ⟨⟨ps, rfl⟩, qs, rfl⟩ hboth
        | _ => rfl
      | _ => cases w <;> rfl
    rw [hsame]
    exact ⟨.kept hnull hboth, hv⟩

/-- What is merged, or put where there is nothing. -/
def mergedAt (v w : Value) : Value := if v.isNull then w else mergeObjects v w

theorem mergedAt_merged {v w : Value} (hv : Tidy v) (hw : Tidy w) : Merged v w (mergedAt v w) ∧ Tidy (mergedAt v w) := by
  unfold mergedAt
  split
  · rename_i h
    rw [isNull_iff.mp h]
    exact ⟨.filled w, hw⟩
  · rename_i h
    exact mergeObjects_merged hv hw fun hnull => h (isNull_iff.mpr hnull)

end SentryNative.Value
