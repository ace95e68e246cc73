import SentryNative.Value.ObjectMap

/-!
# Values as MessagePack

`value_to_msgpack` and the two decoders. The vendored mpack is a parameter: a
writer that turns calls into bytes, and a parser that returns the root of a tree
and the size of what it read. What is relied on is `Mpack.Lawful`.
-/

namespace SentryNative.Msgpack

open CLib

/-! ## mpack -/

/-- The calls of the writer that are used. -/
inductive MpackCall where
  | nil
  | bool (b : Bool)
  | i32 (i : Int32)
  | i64 (i : Int64)
  | u64 (u : UInt64)
  | double (bits : UInt64)
  | str (s : Bytes)
  | startArray (count : UInt32)
  | finishArray
  | startMap (count : UInt32)
  | finishMap
  deriving DecidableEq, Repr

/-- `mpack_node_t`. -/
inductive MpackNode where
  | nil
  | bool (b : Bool)
  | int (i : Int64)
  | uint (u : UInt64)
  | double (bits : UInt64)
  | str (s : Bytes)
  | array (items : List MpackNode)
  | map (pairs : List (MpackNode × MpackNode))
  /-- `mpack_type_missing`, `mpack_type_bin` and what else there is. -/
  | other
  deriving Repr, Inhabited

/-- Only a negative number is written, and so read, as a signed one. -/
def MpackNode.ofInteger (i : Int) : MpackNode :=
  if 0 ≤ i then .uint (UInt64.ofNat i.toNat) else .int (Int64.ofInt i)

mutual

/-- The calls write the node. -/
inductive Writes : List MpackCall → MpackNode → Prop
  | nil : Writes [.nil] .nil
  | bool (b : Bool) : Writes [.bool b] (.bool b)
  | i32 (i : Int32) : Writes [.i32 i] (.ofInteger i.toInt)
  | i64 (i : Int64) : Writes [.i64 i] (.ofInteger i.toInt)
  | u64 (u : UInt64) : Writes [.u64 u] (.uint u)
  | double (bits : UInt64) : Writes [.double bits] (.double bits)
  | str {s : Bytes} (size : s.length < 2 ^ 32) : Writes [.str s] (.str s)
  | array {cs : List MpackCall} {ns : List MpackNode} (count : UInt32)
      (len : count.toNat = ns.length) (items : WritesItems cs ns) :
      Writes (.startArray count :: (cs ++ [.finishArray])) (.array ns)
  | map {cs : List MpackCall} {ps : List (MpackNode × MpackNode)} (count : UInt32)
      (len : count.toNat = ps.length) (pairs : WritesPairs cs ps) :
      Writes (.startMap count :: (cs ++ [.finishMap])) (.map ps)

inductive WritesItems : List MpackCall → List MpackNode → Prop
  | nil : WritesItems [] []
  | cons {c cs : List MpackCall} {n : MpackNode} {ns : List MpackNode} (item : Writes c n)
      (rest : WritesItems cs ns) : WritesItems (c ++ cs) (n :: ns)

inductive WritesPairs : List MpackCall → List (MpackNode × MpackNode) → Prop
  | nil : WritesPairs [] []
  | cons {k c cs : List MpackCall} {nk n : MpackNode} {ps : List (MpackNode × MpackNode)}
      (key : Writes k nk) (value : Writes c n) (rest : WritesPairs cs ps) :
      WritesPairs (k ++ c ++ cs) ((nk, n) :: ps)

end

/-- The bytes in a growable writer after some calls, and `mpack_tree_parse` with
`mpack_tree_root` and `mpack_tree_size`. -/
structure Mpack where
  write : List MpackCall → Bytes
  parse : Bytes → Option (MpackNode × Nat)

/-- The parser reads back what was written, whatever follows, and takes no less. -/
structure Mpack.Lawful (m : Mpack) : Prop where
  write_ne_nil : ∀ cs n, Writes cs n → m.write cs ≠ []
  parse_write : ∀ cs n rest, Writes cs n → m.parse (m.write cs ++ rest) = some (n, (m.write cs).length)
  parse_prefix : ∀ cs n p, Writes cs n → p <+: m.write cs → p ≠ m.write cs → m.parse p = none

/-! ## The encoder -/

mutual

/-- `value_to_msgpack`; lengths are cast to 32 bits. -/
def valueToMsgpack : Value → List MpackCall
  | .null => [.nil]
  | .bool b => [.bool b]
  | .int32 i => [.i32 i]
  | .int64 i => [.i64 i]
  | .uint64 u => [.u64 u]
  | .double bits => [.double bits]
  | .string s => [.str (s.take (s.length % 2 ^ 32))]
  | .list vs => .startArray (UInt32.ofNat vs.length) :: (itemsToMsgpack vs ++ [.finishArray])
  | .object ps => .startMap (UInt32.ofNat ps.length) :: (pairsToMsgpack ps ++ [.finishMap])

def itemsToMsgpack : List Value → List MpackCall
  | [] => []
  | v :: vs => valueToMsgpack v ++ itemsToMsgpack vs

-- the key goes through mpack_write_cstr
def pairsToMsgpack : List (Bytes × Value) → List MpackCall
  | [] => []
  | (k, v) :: ps => [.str (cstr k)] ++ valueToMsgpack v ++ pairsToMsgpack ps

end

/-- `sentry_value_to_msgpack`. -/
def toMsgpack (m : Mpack) (v : Value) : Bytes := m.write (valueToMsgpack v)

/-! ## The decoders -/

/-- `SENTRY_MPACK_MAX_DEPTH`. -/
def maxDepth : Nat := 64

mutual

/-- `value_from_mpack`; nothing when `*ok` was cleared. -/
def valueFromMpack (depth : Nat) : MpackNode → Option Value
  | .nil => some .null
  | .bool b => some (.bool b)
  | .int i =>
    if -2 ^ 31 ≤ i.toInt ∧ i.toInt ≤ 2 ^ 31 - 1 then some (.int32 (Int32.ofInt i.toInt))
    else some (.int64 i)
  | .uint u =>
    if u.toNat ≤ 2 ^ 31 - 1 then some (.int32 (Int32.ofInt u.toNat))
    else if u.toNat ≤ 2 ^ 63 - 1 then some (.int64 (Int64.ofInt u.toNat))
    else some (.uint64 u)
  | .double bits => some (.double bits)
  | .str s => some (.string s)
  | .array items =>
    if maxDepth ≤ depth then none else (itemsFromMpack (depth + 1) items).map .list
  | .map pairs =>
    if maxDepth ≤ depth then none else (pairsFromMpack (depth + 1) pairs []).map .object
  | .other => some .null

def itemsFromMpack (depth : Nat) : List MpackNode → Option (List Value)
  | [] => some []
  | n :: ns => do
    let v ← valueFromMpack depth n
    let vs ← itemsFromMpack depth ns
    return v :: vs

/-- The object so far takes the value by `sentry_value_set_by_key_n`; a key that
is no string is skipped with its value. -/
def pairsFromMpack (depth : Nat) : List (MpackNode × MpackNode) → List (Bytes × Value) →
    Option (List (Bytes × Value))
  | [], obj => some obj
  | (.str k, n) :: ps, obj => do
    let v ← valueFromMpack depth n
    pairsFromMpack depth ps (ObjectMap.setPairs k v obj)
  | _ :: ps, obj => pairsFromMpack depth ps obj

end

/-- `sentry__value_from_msgpack`. -/
def fromMsgpack (m : Mpack) (buf : Bytes) : Value :=
  if buf = [] then .null
  else match m.parse buf with
    | none => .null
    | some (root, size) =>
      match valueFromMpack 0 root with
      | none => .null
      | some v => if size ≠ buf.length then .null else v

/-- `sentry_value_append`, which fails on anything but a list. -/
def append (list v : Value) : Value :=
  match list with
  | .list vs => .list (vs ++ [v])
  | other => other

/-- A list is made for the first value of a stream. -/
def orNewList (result : Value) : Value :=
  match result with
  | .null => .list []
  | other => other

/-- The loop of `sentry__value_from_msgpack_stream` on what is left of the buffer;
nothing if it takes more rounds than the fuel. -/
def streamLoop (m : Mpack) : Nat → Bytes → Value → Option Value
  | 0, _, _ => none
  | fuel + 1, buf, result =>
    if buf = [] then some result
    else match m.parse buf with
      | none => some result
      | some (root, size) =>
        match valueFromMpack 0 root with
        | none => some .null
        | some v => streamLoop m fuel (buf.drop size) (append (orNewList result) v)

/-- `sentry__value_from_msgpack_stream`, with fuel. -/
def fromMsgpackStream (m : Mpack) (fuel : Nat) (buf : Bytes) : Option Value :=
  if buf = [] then some .null else streamLoop m fuel buf .null

/-! ## What can be encoded -/

/-- Every string and container is shorter than 2^32, and the keys of an object are
those of a map without NUL keys. -/
inductive Encodable : Value → Prop
  | null : Encodable .null
  | bool (b : Bool) : Encodable (.bool b)
  | int32 (i : Int32) : Encodable (.int32 i)
  | int64 (i : Int64) : Encodable (.int64 i)
  | uint64 (u : UInt64) : Encodable (.uint64 u)
  | double (bits : UInt64) : Encodable (.double bits)
  | string {s : Bytes} (size : s.length < 2 ^ 32) : Encodable (.string s)
  | list {vs : List Value} (size : vs.length < 2 ^ 32) (items : ∀ v ∈ vs, Encodable v) :
      Encodable (.list vs)
  | object {ps : List (Bytes × Value)} (size : ps.length < 2 ^ 32) (keyed : ObjectMap.Keyed ps)
      (keySize : ∀ p ∈ ps, p.1.length < 2 ^ 32) (items : ∀ p ∈ ps, Encodable p.2) :
      Encodable (.object ps)

/-- The number of leading encodings that lie within the first `k` bytes. -/
def whole : List Bytes → Nat → Nat
  | [], _ => 0
  | e :: es, k => if e.length ≤ k then whole es (k - e.length) + 1 else 0

/-- What the stream decoder returns for some values: no list for none. -/
def listOrNull (vs : List Value) : Value := if vs = [] then .null else .list vs

/-! ## One value -/

mutual

/-- The tree that is read back. -/
def nodeOf : Value → MpackNode
  | .null => .nil
  | .bool b => .bool b
  | .int32 i => .ofInteger i.toInt
  | .int64 i => .ofInteger i.toInt
  | .uint64 u => .uint u
  | .double bits => .double bits
  | .string s => .str s
  | .list vs => .array (nodesOf vs)
  | .object ps => .map (nodePairsOf ps)

def nodesOf : List Value → List MpackNode
  | [] => []
  | v :: vs => nodeOf v :: nodesOf vs

def nodePairsOf : List (Bytes × Value) → List (MpackNode × MpackNode)
  | [] => []
  | (k, v) :: ps => (.str k, nodeOf v) :: nodePairsOf ps

end

theorem length_nodesOf (vs : List Value) : (nodesOf vs).length = vs.length := by
  induction vs with
  | nil => rfl
  | cons v vs ih => simp only [nodesOf, List.length_cons, ih]

theorem length_nodePairsOf (ps : List (Bytes × Value)) : (nodePairsOf ps).length = ps.length := by
  induction ps with
  | nil => rfl
  | cons p ps ih => simp only [nodePairsOf, List.length_cons, ih]

theorem writes_items {vs : List Value} (h : ∀ v ∈ vs, Writes (valueToMsgpack v) (nodeOf v)) :
    WritesItems (itemsToMsgpack vs) (nodesOf vs) := by
  induction vs with
  | nil => exact .nil
  | cons v vs ih =>
    apply WritesItems.cons (h v List.mem_cons_self)
    exact ih fun w hw => h w (List.mem_cons_of_mem v hw)

theorem writes_pairs {ps : List (Bytes × Value)}
    (h : ∀ p ∈ ps, Writes (valueToMsgpack p.2) (nodeOf p.2)) (hn : ∀ p ∈ ps, 0 ∉ p.1)
    (hs : ∀ p ∈ ps, p.1.length < 2 ^ 32) : WritesPairs (pairsToMsgpack ps) (nodePairsOf ps) := by
  induction ps with
  | nil => exact .nil
  | cons p ps ih =>
    obtain ⟨k, v⟩ := p
    have hk : cstr k = k := cstr_of_not_mem (hn (k, v) List.mem_cons_self)
    simp only [pairsToMsgpack, nodePairsOf, hk]
    apply WritesPairs.cons (.str (hs (k, v) List.mem_cons_self)) (h (k, v) List.mem_cons_self)
    apply ih
    · exact fun q hq => h q (List.mem_cons_of_mem _ hq)
    · exact fun q hq => hn q (List.mem_cons_of_mem _ hq)
    · exact fun q hq => hs q (List.mem_cons_of_mem _ hq)

theorem toNat_ofNat_length {α : Type} {l : List α} (h : l.length < 2 ^ 32) :
    (UInt32.ofNat l.length).toNat = l.length := by
  simp only [UInt32.toNat_ofNat']
  exact Nat.mod_eq_of_lt h

/-- The encoder writes the tree of a value. -/
theorem writes_valueToMsgpack {v : Value} (h : Encodable v) : Writes (valueToMsgpack v) (nodeOf v) := by
  induction v using Value.tree_induction with
  | null => exact .nil
  | bool b => exact .bool b
  | int32 i => exact .i32 i
  | int64 i => exact .i64 i
  | uint64 u => exact .u64 u
  | double d => exact .double d
  | string s =>
    cases h with
    | string size =>
      simp only [valueToMsgpack, nodeOf, Nat.mod_eq_of_lt size, List.take_length]
      exact .str size
  | list vs ih =>
    cases h with
    | list size items =>
      apply Writes.array
      · rw [length_nodesOf]
        exact toNat_ofNat_length size
      · exact writes_items fun v hv => ih v hv (items v hv)
  | object ps ih =>
    cases h with
    | object size keyed keySize items =>
      apply Writes.map
      · rw [length_nodePairsOf]
        exact toNat_ofNat_length size
      · exact writes_pairs (fun p hp => ih p hp (items p hp)) keyed.nulFree keySize

theorem valueFromMpack_ofInteger (depth : Nat) {i : Int} (hlo : -2 ^ 63 ≤ i) (hhi : i < 2 ^ 64) :
    valueFromMpack depth (.ofInteger i) = some (Value.ofInteger i) := by
  unfold MpackNode.ofInteger Value.ofInteger
  by_cases h0 : 0 ≤ i
  · have hu : (UInt64.ofNat i.toNat).toNat = i.toNat := by
      rw [UInt64.toNat_ofNat']
      exact Nat.mod_eq_of_lt (by omega)
    have hi : ((i.toNat : Nat) : Int) = i := Int.toNat_of_nonneg h0
    simp only [if_pos h0, valueFromMpack, hu, hi]
    by_cases h1 : i < 2 ^ 31
    · rw [if_pos (by omega), if_pos (by omega)]
    · by_cases h2 : i < 2 ^ 63
      · rw [if_neg (by omega), if_pos (by omega), if_neg (by omega), if_pos h2]
      · rw [if_neg (by omega), if_neg (by omega), if_neg (by omega), if_neg h2]
  · have hs : (Int64.ofInt i).toInt = i := by
      apply Int64.toInt_ofInt_of_le
      · exact hlo
      · omega
    simp only [if_neg h0, valueFromMpack, hs]
    by_cases h1 : -2 ^ 31 ≤ i
    · rw [if_pos (by omega), if_pos (by omega)]
    · rw [if_neg (by omega), if_neg (by omega), if_pos (by omega)]

theorem itemsFromMpack_nodesOf {depth : Nat} {vs : List Value}
    (h : ∀ v ∈ vs, valueFromMpack depth (nodeOf v) = some v.retype) :
    itemsFromMpack depth (nodesOf vs) = some (Value.retypeList vs) := by
  induction vs with
  | nil => rfl
  | cons v vs ih =>
    have hv := h v List.mem_cons_self
    have hvs := ih fun w hw => h w (List.mem_cons_of_mem v hw)
    simp only [nodesOf, itemsFromMpack, hv, hvs, Value.retypeList, Option.bind_eq_bind,
      Option.bind_some, Option.pure_def]

/-- Every pair is new to the object so far. -/
theorem pairsFromMpack_nodePairsOf {depth : Nat} {ps done : List (Bytes × Value)}
    (hk : ObjectMap.Keyed (done ++ ps))
    (h : ∀ p ∈ ps, valueFromMpack depth (nodeOf p.2) = some p.2.retype) :
    pairsFromMpack depth (nodePairsOf ps) done = some (done ++ Value.retypePairs ps) := by
  induction ps generalizing done with
  | nil => simp only [nodePairsOf, pairsFromMpack, Value.retypePairs, List.append_nil]
  | cons p ps ih =>
    obtain ⟨k, v⟩ := p
    have hnodup := hk.nodup
    rw [List.map_append, List.map_cons, List.nodup_append] at hnodup
    have hdone : ObjectMap.Keyed done :=
      ⟨fun q hq => hk.nulFree q (List.mem_append_left _ hq), hnodup.1⟩
    have hnew : k ∉ done.map Prod.fst := fun hm => hnodup.2.2 k hm k List.mem_cons_self rfl
    have hnext : ObjectMap.Keyed (done ++ [(k, v.retype)] ++ ps) := by
      constructor
      · intro q hq
        simp only [List.append_assoc, List.mem_append, List.mem_singleton] at hq
        rcases hq with hq | rfl | hq
        · exact hk.nulFree q (List.mem_append_left _ hq)
        · exact hk.nulFree (k, v) (by simp)
        · exact hk.nulFree q (by simp [hq])
      · have := hk.nodup
        simpa using this
    simp only [nodePairsOf, pairsFromMpack, h (k, v) List.mem_cons_self, Option.bind_eq_bind,
      Option.bind_some, ObjectMap.setPairs_of_not_mem hdone hnew]
    rw [ih hnext fun q hq => h q (List.mem_cons_of_mem _ hq)]
    simp only [Value.retypePairs, List.append_assoc, List.singleton_append]

/-- The decoder retypes integers and leaves the rest, within the depth limit. -/
theorem valueFromMpack_nodeOf {v : Value} (h : Encodable v) {depth : Nat}
    (hd : depth + v.height ≤ maxDepth) : valueFromMpack depth (nodeOf v) = some v.retype := by
  induction v using Value.tree_induction generalizing depth with
  | null => rfl
  | bool b => rfl
  | int32 i =>
    have hb := i.toInt_lt
    have hb' := i.le_toInt
    rw [nodeOf, valueFromMpack_ofInteger depth (by omega) (by omega), Value.ofInteger, if_pos ⟨hb', hb⟩,
      Int32.ofInt_toInt]
    rfl
  | int64 i =>
    have hb := i.toInt_lt
    have hb' := i.le_toInt
    exact valueFromMpack_ofInteger depth hb' (by omega)
  | uint64 u =>
    have hb := u.toNat_lt
    have hu := valueFromMpack_ofInteger depth (i := u.toNat) (by omega) (by omega)
    rw [MpackNode.ofInteger, if_pos (by omega), Int.toNat_natCast, UInt64.ofNat_toNat] at hu
    exact hu
  | double d => rfl
  | string s => rfl
  | list vs ih =>
    cases h with
    | list size items =>
      rw [Value.height] at hd
      have hlt : ¬ maxDepth ≤ depth := by omega
      simp only [nodeOf, valueFromMpack, if_neg hlt]
      rw [itemsFromMpack_nodesOf]
      · rfl
      · intro v hv
        have := Value.height_le_heightList hv
        exact ih v hv (items v hv) (by omega)
  | object ps ih =>
    cases h with
    | object size keyed keySize items =>
      rw [Value.height] at hd
      have hlt : ¬ maxDepth ≤ depth := by omega
      simp only [nodeOf, valueFromMpack, if_neg hlt]
      rw [pairsFromMpack_nodePairsOf (by simpa using keyed)]
      · rfl
      · intro p hp
        have := Value.height_le_heightPairs hp
        exact ih p hp (items p hp) (by omega)

theorem itemsFromMpack_none {depth : Nat} {v : Value} {vs : List Value} (hv : v ∈ vs)
    (h : valueFromMpack depth (nodeOf v) = none) : itemsFromMpack depth (nodesOf vs) = none := by
  induction vs with
  | nil => cases hv
  | cons w vs ih =>
    simp only [nodesOf, itemsFromMpack]
    obtain rfl | hv := List.mem_cons.mp hv
    · rw [h]
      rfl
    · rw [ih hv]
      cases valueFromMpack depth (nodeOf w) <;> rfl

theorem pairsFromMpack_none {depth : Nat} {p : Bytes × Value} {ps done : List (Bytes × Value)} (hp : p ∈ ps)
    (h : valueFromMpack depth (nodeOf p.2) = none) : pairsFromMpack depth (nodePairsOf ps) done = none := by
  induction ps generalizing done with
  | nil => cases hp
  | cons q ps ih =>
    obtain ⟨k, w⟩ := q
    simp only [nodePairsOf, pairsFromMpack]
    obtain rfl | hp := List.mem_cons.mp hp
    · rw [h]
      rfl
    · cases valueFromMpack depth (nodeOf w) with
      | none => rfl
      | some x => exact ih hp

/-- What is nested deeper than the limit is refused. -/
theorem valueFromMpack_deep {v : Value} {depth : Nat} (hd : depth ≤ maxDepth) (hh : maxDepth < depth + v.height) :
    valueFromMpack depth (nodeOf v) = none := by
  induction v using Value.tree_induction generalizing depth with
  | list vs ih =>
    rw [Value.height] at hh
    simp only [nodeOf, valueFromMpack]
    split
    · rfl
    · obtain ⟨v, hv, heq⟩ := @Value.exists_height_eq vs (by omega)
      rw [itemsFromMpack_none hv (ih v hv (by omega) (by omega))]
      rfl
  | object ps ih =>
    rw [Value.height] at hh
    simp only [nodeOf, valueFromMpack]
    split
    · rfl
    · obtain ⟨p, hp, heq⟩ := @Value.exists_pair_height_eq ps (by omega)
      rw [pairsFromMpack_none hp (ih p hp (by omega) (by omega))]
      rfl
  | null => simp only [Value.height] at hh; omega
  | bool b => simp only [Value.height] at hh; omega
  | int32 i => simp only [Value.height] at hh; omega
  | int64 i => simp only [Value.height] at hh; omega
  | uint64 u => simp only [Value.height] at hh; omega
  | double d => simp only [Value.height] at hh; omega
  | string s => simp only [Value.height] at hh; omega

/-! ## Streams -/

section Streams

variable {m : Mpack} {v : Value} {vs : List Value}

theorem parse_toMsgpack (hm : m.Lawful) (h : Encodable v) (rest : Bytes) :
    m.parse (toMsgpack m v ++ rest) = some (nodeOf v, (toMsgpack m v).length) :=
  hm.parse_write _ _ rest (writes_valueToMsgpack h)

theorem parse_take_toMsgpack (hm : m.Lawful) (h : Encodable v) {k : Nat}
    (hk : k < (toMsgpack m v).length) : m.parse ((toMsgpack m v).take k) = none := by
  apply hm.parse_prefix _ _ _ (writes_valueToMsgpack h) (List.take_prefix k _)
  intro he
  have := congrArg List.length he
  rw [List.length_take] at this
  unfold toMsgpack at hk
  omega

theorem valueFromMpack_root (h : Encodable v) (hh : v.height ≤ maxDepth) :
    valueFromMpack 0 (nodeOf v) = some v.retype := by
  apply valueFromMpack_nodeOf h
  rw [Nat.zero_add]
  exact hh

theorem toMsgpack_pos (hm : m.Lawful) (h : Encodable v) : 0 < (toMsgpack m v).length :=
  List.length_pos_iff.mpr (hm.write_ne_nil _ _ (writes_valueToMsgpack h))

theorem append_listOrNull (done : List Value) (v : Value) :
    append (orNewList (listOrNull done)) v = listOrNull (done ++ [v]) := by
  cases done with
  | nil => rfl
  | cons d done => simp [listOrNull, orNewList, append]

/-- One round of the loop for every encoding that is all there, and one for the torn tail. -/
theorem streamLoop_take (hm : m.Lawful) (hv : ∀ v ∈ vs, Encodable v ∧ v.height ≤ maxDepth) {k fuel : Nat}
    (hf : k < fuel) (done : List Value) :
    streamLoop m fuel ((vs.map (toMsgpack m)).flatten.take k) (listOrNull done) =
      some (listOrNull (done ++ (vs.take (whole (vs.map (toMsgpack m)) k)).map Value.retype)) := by
  induction vs generalizing k fuel done with
  | nil =>
    obtain ⟨fuel, rfl⟩ := Nat.exists_eq_add_of_lt hf
    simp [streamLoop, whole]
  | cons v vs ih =>
    obtain ⟨henc, hheight⟩ := hv v List.mem_cons_self
    have hpos := toMsgpack_pos hm henc
    obtain ⟨fuel, rfl⟩ : ∃ f, fuel = f + 1 := ⟨fuel - 1, by omega⟩
    simp only [List.map_cons, List.flatten_cons, whole]
    by_cases hle : (toMsgpack m v).length ≤ k
    · have hne : toMsgpack m v ++ (vs.map (toMsgpack m)).flatten.take (k - (toMsgpack m v).length) ≠ [] := by
        intro he
        rw [(List.append_eq_nil_iff.mp he).1] at hpos
        cases hpos
      rw [if_pos hle, List.take_append, List.take_of_length_le hle, streamLoop, if_neg hne,
        parse_toMsgpack hm henc]
      simp only [valueFromMpack_root henc hheight, List.drop_left, append_listOrNull]
      rw [ih (fun w hw => hv w (List.mem_cons_of_mem v hw)) (by omega)]
      simp only [List.take_succ_cons, List.map_cons, List.append_assoc, List.singleton_append]
    · have hlt : k < (toMsgpack m v).length := by omega
      rw [if_neg hle, List.take_append_of_le_length (Nat.le_of_lt hlt), streamLoop,
        parse_take_toMsgpack hm henc hlt]
      simp only [List.take_zero, List.map_nil, List.append_nil, ite_self]

/-- Whole encodings and a tail that does not parse: one value that is too deep loses them all. -/
theorem streamLoop_whole (hm : m.Lawful) (hv : ∀ v ∈ vs, Encodable v) {tail : Bytes}
    (htail : tail = [] ∨ m.parse tail = none) {fuel : Nat} (hf : vs.length < fuel) (done : List Value) :
    streamLoop m fuel ((vs.map (toMsgpack m)).flatten ++ tail) (listOrNull done) =
      some (if ∀ v ∈ vs, v.height ≤ maxDepth then listOrNull (done ++ vs.map Value.retype) else .null) := by
  induction vs generalizing fuel done with
  | nil =>
    obtain ⟨fuel, rfl⟩ : ∃ f, fuel = f + 1 := ⟨fuel - 1, by omega⟩
    obtain rfl | hparse := htail
    · simp [streamLoop]
    · simp [streamLoop, hparse]
  | cons v vs ih =>
    have henc := hv v List.mem_cons_self
    have hpos := toMsgpack_pos hm henc
    obtain ⟨fuel, rfl⟩ : ∃ f, fuel = f + 1 := ⟨fuel - 1, by omega⟩
    simp only [List.map_cons, List.flatten_cons, List.append_assoc]
    have hne : toMsgpack m v ++ ((vs.map (toMsgpack m)).flatten ++ tail) ≠ [] := by
      intro he
      rw [(List.append_eq_nil_iff.mp he).1] at hpos
      cases hpos
    rw [streamLoop, if_neg hne, parse_toMsgpack hm henc]
    by_cases hheight : v.height ≤ maxDepth
    · simp only [valueFromMpack_root henc hheight, List.drop_left, append_listOrNull]
      rw [ih (fun w hw => hv w (List.mem_cons_of_mem v hw)) (by simpa using hf)]
      simp [hheight]
    · have hdeep := valueFromMpack_deep (Nat.zero_le maxDepth) (by omega : maxDepth < 0 + v.height)
      simp [hdeep, hheight]

/-- Every cut of every concatenation, and the decoder of one value. The loop is over
after no more rounds than there are bytes. -/
theorem msgpack_streams (m : Mpack) (hm : m.Lawful) :
    (∀ vs : List Value, (∀ v ∈ vs, Encodable v ∧ v.height ≤ 64) → ∀ k fuel, k < fuel →
      fromMsgpackStream m fuel ((vs.map (toMsgpack m)).flatten.take k) =
        some (listOrNull ((vs.take (whole (vs.map (toMsgpack m)) k)).map Value.retype))) ∧
      ∀ v : Value, Encodable v → v.height ≤ 64 →
        fromMsgpack m (toMsgpack m v) = v.retype ∧
          ∀ extra, extra ≠ [] → fromMsgpack m (toMsgpack m v ++ extra) = .null := by
  refine ⟨fun vs hv k fuel hf => ?_, fun v henc hheight => ⟨?_, fun extra hextra => ?_⟩⟩
  · have hloop := streamLoop_take hm hv hf []
    simp only [List.nil_append] at hloop
    unfold fromMsgpackStream
    split
    · rename_i hnil
      obtain ⟨fuel, rfl⟩ : ∃ f, fuel = f + 1 := ⟨fuel - 1, by omega⟩
      rw [hnil, streamLoop, if_pos rfl] at hloop
      exact hloop
    · exact hloop
  · have hpos := toMsgpack_pos hm henc
    have hparse := parse_toMsgpack hm henc []
    rw [List.append_nil] at hparse
    have hne : toMsgpack m v ≠ [] := List.length_pos_iff.mp hpos
    simp only [fromMsgpack, if_neg hne, hparse, valueFromMpack_root henc hheight, ne_eq, not_true, if_false]
  · have hne : toMsgpack m v ++ extra ≠ [] := by simp [hextra]
    have hsize : (toMsgpack m v).length ≠ (toMsgpack m v ++ extra).length := by
      rw [List.length_append]
      have := List.length_pos_iff.mpr hextra
      omega
    simp only [fromMsgpack, if_neg hne, parse_toMsgpack hm henc, valueFromMpack_root henc hheight,
      if_pos hsize]

end Streams

end SentryNative.Msgpack
