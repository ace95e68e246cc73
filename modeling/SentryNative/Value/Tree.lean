import SentryNative.Lib.CNumber

/-!
# Values as trees

What a `sentry_value_t` denotes once pointers and reference counts are
forgotten. Strings are byte strings with an explicit length; the keys of an
object are C strings, so the model keeps them free of NUL where it matters.
A double is its 64-bit pattern: nothing here computes with it.
-/

namespace SentryNative

open CLib

def ascii (s : String) : Bytes := s.toList.map fun c => UInt8.ofNat c.toNat

inductive Value where
  | null
  | bool (b : Bool)
  | int32 (i : Int32)
  | int64 (i : Int64)
  | uint64 (u : UInt64)
  | double (bits : UInt64)
  | string (s : Bytes)
  | list (items : List Value)
  | object (pairs : List (Bytes × Value))
  deriving Repr, Inhabited

namespace Value

/-- Induction over a tree, with the children of a container as members. -/
@[elab_as_elim]
theorem tree_induction {P : Value → Prop} (null : P .null) (bool : ∀ b, P (.bool b))
    (int32 : ∀ i, P (.int32 i)) (int64 : ∀ i, P (.int64 i)) (uint64 : ∀ u, P (.uint64 u))
    (double : ∀ d, P (.double d)) (string : ∀ s, P (.string s))
    (list : ∀ vs, (∀ v ∈ vs, P v) → P (.list vs))
    (object : ∀ ps, (∀ p ∈ ps, P p.2) → P (.object ps)) (v : Value) : P v := by
  refine @Value.rec P (fun vs => ∀ v ∈ vs, P v) (fun ps => ∀ p ∈ ps, P p.2) (fun p => P p.2)
    null bool int32 int64 uint64 double string list object (by simp) ?_ (by simp) ?_
    (fun _ _ hv => hv) v
  · intro v vs hv hvs w hw
    rcases List.mem_cons.mp hw with rfl | hw
    · exact hv
    · exact hvs w hw
  · intro p ps hp hps q hq
    rcases List.mem_cons.mp hq with rfl | hq
    · exact hp
    · exact hps q hq

/-- Built without doubles, with the keys of every object distinct C strings. -/
inductive Plain : Value → Prop
  | null : Plain .null
  | bool (b : Bool) : Plain (.bool b)
  | int32 (i : Int32) : Plain (.int32 i)
  | int64 (i : Int64) : Plain (.int64 i)
  | uint64 (u : UInt64) : Plain (.uint64 u)
  | string (s : Bytes) : Plain (.string s)
  | list {vs : List Value} (items : ∀ v ∈ vs, Plain v) : Plain (.list vs)
  | object {ps : List (Bytes × Value)} (distinct : (ps.map Prod.fst).Nodup)
      (nulFree : ∀ p ∈ ps, 0 ∉ p.1) (items : ∀ p ∈ ps, Plain p.2) : Plain (.object ps)

mutual

/-- Levels of containers: 0 for a scalar, 1 for an empty list or object. -/
def height : Value → Nat
  | .list vs => heightList vs + 1
  | .object ps => heightPairs ps + 1
  | _ => 0

def heightList : List Value → Nat
  | [] => 0
  | v :: vs => max v.height (heightList vs)

def heightPairs : List (Bytes × Value) → Nat
  | [] => 0
  | (_, v) :: ps => max v.height (heightPairs ps)

end

theorem height_le_heightList {v : Value} {vs : List Value} (h : v ∈ vs) :
    v.height ≤ heightList vs := by
  induction vs with
  | nil => simp at h
  | cons w vs ih =>
    simp only [heightList]
    rcases List.mem_cons.mp h with rfl | h
    · exact Nat.le_max_left _ _
    · exact Nat.le_trans (ih h) (Nat.le_max_right _ _)

theorem height_le_heightPairs {p : Bytes × Value} {ps : List (Bytes × Value)} (h : p ∈ ps) :
    p.2.height ≤ heightPairs ps := by
  induction ps with
  | nil => simp at h
  | cons q ps ih =>
    obtain ⟨k, w⟩ := q
    simp only [heightPairs]
    rcases List.mem_cons.mp h with rfl | h
    · exact Nat.le_max_left _ _
    · exact Nat.le_trans (ih h) (Nat.le_max_right _ _)

theorem exists_height_eq {vs : List Value} (h : 0 < heightList vs) : ∃ v ∈ vs, v.height = heightList vs := by
  induction vs with
  | nil => simp [heightList] at h
  | cons w vs ih =>
    simp only [heightList] at h ⊢
    by_cases hle : heightList vs ≤ w.height
    · exact ⟨w, List.mem_cons_self, (Nat.max_eq_left hle).symm⟩
    · obtain ⟨v, hv, heq⟩ := ih (by omega)
      exact ⟨v, List.mem_cons_of_mem w hv, by omega⟩

theorem exists_pair_height_eq {ps : List (Bytes × Value)} (h : 0 < heightPairs ps) :
    ∃ p ∈ ps, p.2.height = heightPairs ps := by
  induction ps with
  | nil => simp [heightPairs] at h
  | cons q ps ih =>
    obtain ⟨k, w⟩ := q
    simp only [heightPairs] at h ⊢
    by_cases hle : heightPairs ps ≤ w.height
    · exact ⟨(k, w), List.mem_cons_self, (Nat.max_eq_left hle).symm⟩
    · obtain ⟨p, hp, heq⟩ := ih (by omega)
      exact ⟨p, List.mem_cons_of_mem _ hp, by omega⟩

/-- The first of int32, int64 and uint64 that holds the number. -/
def ofInteger (i : Int) : Value :=
  if -2 ^ 31 ≤ i ∧ i < 2 ^ 31 then .int32 (Int32.ofInt i)
  else if i < 2 ^ 63 then .int64 (Int64.ofInt i)
  else .uint64 (UInt64.ofNat i.toNat)

mutual

/-- Every integer in the narrowest type that holds it. -/
def retype : Value → Value
  | .int32 i => .int32 i
  | .int64 i => ofInteger i.toInt
  | .uint64 u => ofInteger u.toNat
  | .list vs => .list (retypeList vs)
  | .object ps => .object (retypePairs ps)
  | v => v

def retypeList : List Value → List Value
  | [] => []
  | v :: vs => v.retype :: retypeList vs

def retypePairs : List (Bytes × Value) → List (Bytes × Value)
  | [] => []
  | (k, v) :: ps => (k, v.retype) :: retypePairs ps

end

/-- `sentry_value_get_by_key` on the pairs of an object. -/
def lookup (k : Bytes) : List (Bytes × Value) → Value
  | [] => .null
  | (k', v) :: ps => if k' = k then v else lookup k ps

/-- `sentry_value_get_by_key`: null on anything but an object. -/
def getByKey (v : Value) (k : Bytes) : Value :=
  match v with
  | .object ps => lookup k ps
  | _ => .null

/-- The pairs after `sentry_value_set_by_key`: an equal key is replaced in
place, a new one goes to the end. -/
def insert (k : Bytes) (v : Value) : List (Bytes × Value) → List (Bytes × Value)
  | [] => [(k, v)]
  | (k', v') :: ps => if k' = k then (k, v) :: ps else (k', v') :: insert k v ps

/-- `sentry_value_set_by_key` on an unfrozen value: fails on anything but an object. -/
def setByKey (v : Value) (k : Bytes) (x : Value) : Value :=
  match v with
  | .object ps => .object (insert k x ps)
  | v => v

/-- `sentry_value_as_string`: the empty string for other types. The bytes past
an embedded NUL are not part of the C string. -/
def asString (v : Value) : Bytes :=
  match v with
  | .string s => cstr s
  | _ => []

theorem insert_of_not_mem {k : Bytes} {ps : List (Bytes × Value)} (h : k ∉ ps.map Prod.fst)
    (v : Value) : insert k v ps = ps ++ [(k, v)] := by
  induction ps with
  | nil => rfl
  | cons p ps ih =>
    obtain ⟨k', v'⟩ := p
    simp only [List.map_cons, List.mem_cons, not_or] at h
    simp only [insert, List.cons_append, if_neg (Ne.symm h.1), ih h.2]

theorem lookup_of_not_mem {k : Bytes} {ps : List (Bytes × Value)} (h : k ∉ ps.map Prod.fst) : lookup k ps = .null := by
  induction ps with
  | nil => rfl
  | cons p ps ih =>
    obtain ⟨k', v⟩ := p
    simp only [List.map_cons, List.mem_cons, not_or] at h
    rw [lookup, if_neg (Ne.symm h.1), ih h.2]

theorem lookup_insert (k : Bytes) (v : Value) (ps : List (Bytes × Value)) :
    lookup k (insert k v ps) = v := by
  induction ps with
  | nil => simp [insert, lookup]
  | cons p ps ih =>
    obtain ⟨k', v'⟩ := p
    by_cases h : k' = k
    · simp [insert, lookup, h]
    · simp [insert, lookup, h, ih]

theorem lookup_insert_of_ne {k k' : Bytes} (h : k' ≠ k) (v : Value) (ps : List (Bytes × Value)) :
    lookup k (insert k' v ps) = lookup k ps := by
  induction ps with
  | nil => simp [insert, lookup, h]
  | cons p ps ih =>
    obtain ⟨a, b⟩ := p
    by_cases hk : a = k'
    · simp [insert, lookup, hk, h]
    · by_cases ha : a = k
      · simp [insert, lookup, ha, h.symm]
      · simp [insert, lookup, hk, ha, ih]

theorem mem_keys_insert {k k' : Bytes} {v : Value} {ps : List (Bytes × Value)} :
    k ∈ (insert k' v ps).map Prod.fst ↔ k = k' ∨ k ∈ ps.map Prod.fst := by
  induction ps with
  | nil => simp [insert]
  | cons p ps ih =>
    obtain ⟨a, b⟩ := p
    rw [insert]
    split
    · next h => simp [h]
    · rw [List.map_cons, List.mem_cons, ih, List.map_cons, List.mem_cons]
      exact or_left_comm

theorem insert_insert_self (k : Bytes) (v v' : Value) (ps : List (Bytes × Value)) :
    insert k v (insert k v' ps) = insert k v ps := by
  induction ps with
  | nil => simp [insert]
  | cons p ps ih =>
    obtain ⟨a, b⟩ := p
    by_cases h : a = k
    · simp [insert, h]
    · simp [insert, h, ih]

/-- The order in which two keys are set does not matter where one is there already. -/
theorem insert_comm_of_mem {k k' : Bytes} (h : k ≠ k') {ps : List (Bytes × Value)} (hmem : k' ∈ ps.map Prod.fst)
    (v v' : Value) : insert k' v' (insert k v ps) = insert k v (insert k' v' ps) := by
  induction ps with
  | nil => simp at hmem
  | cons p ps ih =>
    obtain ⟨a, b⟩ := p
    by_cases ha : a = k'
    · subst ha
      simp [insert, h, Ne.symm h]
    · have hrest : k' ∈ ps.map Prod.fst := by
        simpa [Ne.symm ha] using hmem
      by_cases hk : a = k
      · subst hk
        simp [insert, h]
      · simp [insert, ha, hk, ih hrest]

theorem lookup_retypePairs (k : Bytes) (ps : List (Bytes × Value)) :
    lookup k (retypePairs ps) = (lookup k ps).retype := by
  induction ps with
  | nil => rfl
  | cons p ps ih =>
    obtain ⟨k', v⟩ := p
    simp only [retypePairs, lookup]
    split
    · rfl
    · exact ih

theorem ofInteger_cases (i : Int) :
    (∃ n, ofInteger i = .int32 n) ∨ (∃ n, ofInteger i = .int64 n) ∨ ∃ n, ofInteger i = .uint64 n := by
  unfold ofInteger
  split
  · exact Or.inl ⟨_, rfl⟩
  · split
    · exact Or.inr (Or.inl ⟨_, rfl⟩)
    · exact Or.inr (Or.inr ⟨_, rfl⟩)

/-- A number has no keys, is not null and is no string. -/
theorem ofInteger_scalar (i : Int) :
    (∀ k, (ofInteger i).getByKey k = .null) ∧ ofInteger i ≠ .null ∧ (ofInteger i).asString = [] := by
  obtain ⟨n, h⟩ | ⟨n, h⟩ | ⟨n, h⟩ := ofInteger_cases i <;> rw [h] <;> simp [getByKey, asString]

theorem getByKey_retype (v : Value) (k : Bytes) : v.retype.getByKey k = (v.getByKey k).retype := by
  cases v with
  | object ps => exact lookup_retypePairs k ps
  | int64 i => exact (ofInteger_scalar _).1 k
  | uint64 u => exact (ofInteger_scalar _).1 k
  | _ => rfl

theorem retype_eq_null (v : Value) : v.retype = .null ↔ v = .null := by
  cases v with
  | int64 i => exact iff_of_false (ofInteger_scalar _).2.1 (by simp)
  | uint64 u => exact iff_of_false (ofInteger_scalar _).2.1 (by simp)
  | _ => simp [retype]

theorem asString_retype (v : Value) : v.retype.asString = v.asString := by
  cases v with
  | int64 i => exact (ofInteger_scalar _).2.2
  | uint64 u => exact (ofInteger_scalar _).2.2
  | _ => rfl

theorem retypePairs_keys (ps : List (Bytes × Value)) :
    (retypePairs ps).map Prod.fst = ps.map Prod.fst := by
  induction ps with
  | nil => rfl
  | cons p ps ih => simp [retypePairs, ih]

end Value

end SentryNative
