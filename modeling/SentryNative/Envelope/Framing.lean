import SentryNative.Envelope.Model

/-!
# The framing round trip

An item is framed either by its `length` header or, without one, by the
newline after its payload; the reader skips every newline before the next item.
What the functions of the envelope build keeps both readings apart: an item has
a `length` header that is its payload's length cut to 32 bits, or no payload.
-/

namespace SentryNative

open CLib Json

/-! ## Headers -/

namespace Value

theorem mem_insert {k : Bytes} {v : Value} {ps : List (Bytes × Value)} {p : Bytes × Value}
    (h : p ∈ insert k v ps) : p = (k, v) ∨ p ∈ ps := by
  induction ps with
  | nil => simp_all [insert]
  | cons q ps ih =>
    obtain ⟨a, b⟩ := q
    by_cases hk : a = k
    · simp only [insert, hk, ↓reduceIte, List.mem_cons] at h
      rcases h with h | h
      · exact Or.inl h
      · exact Or.inr (List.mem_cons_of_mem _ h)
    · simp only [insert, hk, ↓reduceIte, List.mem_cons] at h
      rcases h with h | h
      · exact Or.inr (by simp [h])
      · rcases ih h with h | h
        · exact Or.inl h
        · exact Or.inr (List.mem_cons_of_mem _ h)

theorem mem_insert_keys {k a : Bytes} {v : Value} {ps : List (Bytes × Value)}
    (h : a ∈ (insert k v ps).map Prod.fst) : a = k ∨ a ∈ ps.map Prod.fst := by
  obtain ⟨p, hp, rfl⟩ := List.mem_map.mp h
  rcases mem_insert hp with rfl | hp
  · exact Or.inl rfl
  · exact Or.inr (List.mem_map_of_mem hp)

theorem insert_nodup {ps : List (Bytes × Value)} (h : (ps.map Prod.fst).Nodup) (k : Bytes)
    (v : Value) : ((insert k v ps).map Prod.fst).Nodup := by
  induction ps with
  | nil => simp [insert]
  | cons q ps ih =>
    obtain ⟨a, b⟩ := q
    simp only [List.map_cons, List.nodup_cons] at h
    by_cases hk : a = k
    · subst hk
      simpa [insert] using h
    · simp only [insert, hk, ↓reduceIte, List.map_cons, List.nodup_cons]
      refine ⟨fun hm => ?_, ih h.2⟩
      rcases mem_insert_keys hm with rfl | hm
      · exact hk rfl
      · exact h.1 hm

/-- An object of scalars without doubles: what every item's headers are. -/
structure Flat (ps : List (Bytes × Value)) : Prop where
  plain : (object ps).Plain
  scalar : ∀ p ∈ ps, p.2.height = 0

theorem Flat.nil : Flat [] := ⟨.object (by simp) (by simp) (by simp), by simp⟩

theorem Flat.insert {ps : List (Bytes × Value)} (h : Flat ps) {k : Bytes} (hk : 0 ∉ k) {v : Value}
    (hv : v.Plain) (hs : v.height = 0) : Flat (insert k v ps) := by
  obtain ⟨hp, hsc⟩ := h
  cases hp with
  | object hn hz hi =>
    constructor
    · refine .object (insert_nodup hn k v) ?_ ?_
      · intro p hp
        rcases mem_insert hp with rfl | hp
        · exact hk
        · exact hz p hp
      · intro p hp
        rcases mem_insert hp with rfl | hp
        · exact hv
        · exact hi p hp
    · intro p hp
      rcases mem_insert hp with rfl | hp
      · exact hs
      · exact hsc p hp

theorem Flat.height {ps : List (Bytes × Value)} (h : Flat ps) : (object ps).height = 1 := by
  have pairs : ∀ qs : List (Bytes × Value), (∀ q ∈ qs, q.2.height = 0) → heightPairs qs = 0 := by
    intro qs hq
    induction qs with
    | nil => rfl
    | cons q qs ih =>
      have h1 : q.2.height = 0 := hq q (by simp)
      have h2 := ih fun x hx => hq x (List.mem_cons_of_mem q hx)
      obtain ⟨a, b⟩ := q
      simp only [heightPairs, h2]
      simpa using h1
  simp [Value.height, pairs ps h.scalar]

end Value

namespace Json

/-- A tree with no container at depth 63 is not cut. -/
theorem truncate_of_height (v : Value) : ∀ d, d + v.height < maxDepth → truncate d v = v := by
  induction v using Value.tree_induction with
  | list vs ih =>
    intro d hd
    simp only [Value.height] at hd
    have items : ∀ ws : List Value, (∀ w ∈ ws, w ∈ vs) → truncateItems (d + 1) ws = ws := by
      intro ws hws
      induction ws with
      | nil => rfl
      | cons w ws ihw =>
        have hw := Value.height_le_heightList (hws w (by simp))
        rw [truncateItems, ih w (hws w (by simp)) (d + 1) (by omega),
          ihw fun x hx => hws x (List.mem_cons_of_mem w hx)]
    rw [truncate, if_pos (by omega), items vs fun _ h => h]
  | object ps ih =>
    intro d hd
    simp only [Value.height] at hd
    have pairs : ∀ qs : List (Bytes × Value), (∀ q ∈ qs, q ∈ ps) →
        truncatePairs (d + 1) qs = qs := by
      intro qs hqs
      induction qs with
      | nil => rfl
      | cons q qs ihq =>
        have hq := Value.height_le_heightPairs (hqs q (by simp))
        rw [truncatePairs, ih q (hqs q (by simp)) (d + 1) (by omega),
          ihq fun x hx => hqs x (List.mem_cons_of_mem q hx)]
    rw [truncate, if_pos (by omega), pairs ps fun _ h => h]
  | _ => intro d _; rfl

theorem newline_not_mem_escapeByte (c : UInt8) : 10 ∉ escapeByte c := by
  have hex : ∀ d, d < 16 → hexByte d ≠ 10 := by
    intro d hd
    interval_cases d <;> decide
  by_cases hn : needsEscaping c = true
  · have h1 := hex (c.toNat / 16) (by have := c.toNat_lt; omega)
    have h2 := hex (c.toNat % 16) (by omega)
    unfold escapeByte
    simp only [hn, Bool.not_true, Bool.false_eq_true, ↓reduceIte]
    split_ifs <;> simp [h1.symm, h2.symm]
  · have he : escapeByte c = [c] := by simp [escapeByte, hn]
    rw [he, List.mem_singleton]
    rintro rfl
    exact hn (by decide)

theorem newline_not_mem_quote (s : Bytes) : 10 ∉ quote s := by
  simp only [quote, List.cons_append, List.mem_cons, List.mem_append, List.mem_flatMap,
    List.not_mem_nil, or_false, not_or]
  refine ⟨by decide, ?_, by decide⟩
  rintro ⟨c, -, hc⟩
  exact newline_not_mem_escapeByte c hc

theorem newline_not_mem_printInt (i : Int) : 10 ∉ printInt i := by
  intro h
  have := (Jsmn.printInt_bytes i).2.1 10 h
  revert this
  decide

theorem newline_not_mem_renderItems {vs : List Value} (h : ∀ v ∈ vs, 10 ∉ render v)
    (comma : Bool) : 10 ∉ renderItems comma vs := by
  induction vs generalizing comma with
  | nil => simp [renderItems]
  | cons v vs ih =>
    have hs : 10 ∉ separator comma := by cases comma <;> decide
    simp only [renderItems, List.mem_append, not_or]
    exact ⟨⟨hs, h v (by simp)⟩, ih (fun w hw => h w (List.mem_cons_of_mem v hw)) true⟩

theorem newline_not_mem_renderPairs {ps : List (Bytes × Value)} (h : ∀ p ∈ ps, 10 ∉ render p.2)
    (comma : Bool) : 10 ∉ renderPairs comma ps := by
  induction ps generalizing comma with
  | nil => simp [renderPairs]
  | cons p ps ih =>
    have hs : 10 ∉ separator comma := by cases comma <;> decide
    simp only [renderPairs, List.cons_append, List.append_assoc, List.mem_append, List.mem_cons,
      not_or]
    exact ⟨hs, newline_not_mem_quote p.1, by decide, h p (by simp),
      ih (fun q hq => h q (List.mem_cons_of_mem p hq)) true⟩

/-- The text of a tree stays on one line. -/
theorem newline_not_mem_render (v : Value) : 10 ∉ render v := by
  induction v using Value.tree_induction with
  | null => decide
  | bool b => cases b <;> decide
  | int32 i => exact newline_not_mem_printInt _
  | int64 i => exact newline_not_mem_printInt _
  | uint64 u => exact newline_not_mem_printInt _
  | double d => exact (by decide : 10 ∉ ascii "null")
  | string s => exact newline_not_mem_quote s
  | list vs ih =>
    have := newline_not_mem_renderItems ih false
    simp [render, this]
  | object ps ih =>
    have := newline_not_mem_renderPairs ih false
    simp [render, this]

theorem render_object_head (ps : List (Bytes × Value)) :
    ∃ r, render (.object ps) = 123 :: r := ⟨_, by rw [render]; rfl⟩

end Json

namespace Envelope

variable {dt : DoubleText}

/-! ## Lines -/

theorem splitLine_append {a : Bytes} (h : 10 ∉ a) (r : Bytes) :
    splitLine (a ++ 10 :: r) = (a, some r) := by
  induction a with
  | nil => simp [splitLine]
  | cons c a ih =>
    simp only [List.mem_cons, not_or] at h
    simp [splitLine, Ne.symm h.1, ih h.2]

theorem splitLine_of_not_mem {a : Bytes} (h : 10 ∉ a) : splitLine a = (a, none) := by
  induction a with
  | nil => rfl
  | cons c a ih =>
    simp only [List.mem_cons, not_or] at h
    simp [splitLine, Ne.symm h.1, ih h.2]

/-! ## Items -/

/-- The two framings of an item: by its length, or by the newline after nothing. -/
structure Framed (item : Item) (ps : List (Bytes × Value)) : Prop where
  headers : item.headers = .object ps
  flat : Value.Flat ps
  length : Value.lookup lengthKey ps = lengthValue item.payload.length ∨
    Value.lookup lengthKey ps = .null ∧ item.payload = []

/-- The item as it is read back. -/
def readBack (dt : DoubleText) (item : Item) : Item :=
  let type := (item.headers.retype.getByKey typeKey).asString
  { headers := item.headers.retype
    event :=
      if 0 < item.payload.length ∧ (type = ascii "event" ∨ type = ascii "transaction") then
        fromJson dt item.payload
      else .null
    payload := item.payload }

theorem Framed.toJson_eq {item : Item} {ps : List (Bytes × Value)} (h : Framed item ps) :
    toJson dt item.headers = render (.object ps) := by
  have hh := h.flat.height
  rw [h.headers, toJson_eq_render dt h.flat.plain (by omega),
    truncate_of_height _ 0 (by rw [hh]; decide)]

theorem Framed.fromJson_eq {item : Item} {ps : List (Bytes × Value)} (h : Framed item ps) :
    fromJson dt (render (.object ps)) = .object (Value.retypePairs ps) := by
  rw [fromJson_render h.flat.plain (by rw [h.flat.height]; decide), Value.retype]

/-- The text after an item: nothing, or the newline of the next one. -/
def Follows (r : Bytes) : Prop := ∀ c ∈ r.head?, c = 10

theorem payloadLength_framed {item : Item} {ps : List (Bytes × Value)} (h : Framed item ps)
    (hlen : item.payload.length < 2 ^ 31) {r : Bytes} (hr : Follows r) :
    payloadLength (Value.lookup lengthKey (Value.retypePairs ps)) (item.payload ++ r) =
      some item.payload.length := by
  rw [Value.lookup_retypePairs]
  rcases h.length with hl | ⟨hl, hp⟩
  · have hi : (Int32.ofInt item.payload.length).toInt = item.payload.length := by
      have hsize : Int32.size = 2 ^ 32 := by decide
      rw [Int32.toInt_ofInt, Int.bmod_eq_of_le (by omega) (by omega)]
    rw [hl, lengthValue, Value.retype]
    simp only [payloadLength, asInt64, hi]
    rw [if_neg (by simp only [sizeMax]; omega)]
    simp
  · have hnull : Value.retype .null = .null := rfl
    rw [hl, hp, hnull]
    simp only [payloadLength, List.nil_append, List.length_nil, Option.some.injEq]
    cases r with
    | nil => rfl
    | cons c r =>
      rw [hr c rfl]
      simp [splitLine]

theorem readItem_framed {item : Item} {ps : List (Bytes × Value)} (h : Framed item ps)
    (hlen : item.payload.length < 2 ^ 31) {r : Bytes} (hr : Follows r) :
    readItem dt (toJson dt item.headers ++ 10 :: (item.payload ++ r)) =
      some (readBack dt item, r.dropWhile (· = 10)) := by
  have hle : ¬ (item.payload ++ r).length < item.payload.length := by
    rw [List.length_append]; omega
  have hback : (item.headers.retype) = .object (Value.retypePairs ps) := by
    rw [h.headers, Value.retype]
  rw [h.toJson_eq]
  simp only [readItem, splitLine_append (newline_not_mem_render _), h.fromJson_eq,
    payloadLength_framed h hlen hr, if_neg hle, List.take_left, List.drop_left, readBack, hback,
    Value.getByKey]

theorem follows_items (is : List Item) : Follows (is.flatMap (serializeItem dt)) := by
  intro c hc
  cases is with
  | nil => simp at hc
  | cons i is => simpa [serializeItem, eq_comm] using hc

/-- The bytes of an item after its first newline. -/
def itemText (dt : DoubleText) (item : Item) : Bytes :=
  toJson dt item.headers ++ 10 :: item.payload

/-- The rest of the text once its newlines are skipped. -/
def itemsText (dt : DoubleText) : List Item → Bytes
  | [] => []
  | i :: is => itemText dt i ++ is.flatMap (serializeItem dt)

theorem dropWhile_items {is : List Item} (h : ∀ i ∈ is, ∃ ps, Framed i ps) :
    (is.flatMap (serializeItem dt)).dropWhile (· = 10) = itemsText dt is := by
  cases is with
  | nil => rfl
  | cons i is =>
    obtain ⟨ps, hi⟩ := h i (by simp)
    obtain ⟨t, ht⟩ := render_object_head ps
    have hj : toJson dt i.headers = 123 :: t := by rw [hi.toJson_eq, ht]
    simp [serializeItem, itemsText, itemText, hj]

/-- **The loop reads the items back**, in order, whatever their payloads hold. -/
theorem readItems_itemsText {is : List Item} (h : ∀ i ∈ is, ∃ ps, Framed i ps)
    (hlen : ∀ i ∈ is, i.payload.length < 2 ^ 31) : ∀ fuel, (itemsText dt is).length ≤ fuel →
    readItems dt fuel (itemsText dt is) = some (is.map (readBack dt)) := by
  induction is with
  | nil => intro fuel _; cases fuel <;> rfl
  | cons i is ih =>
    intro fuel hf
    obtain ⟨ps, hi⟩ := h i (by simp)
    have hrest : ∀ j ∈ is, ∃ ps, Framed j ps := fun j hj => h j (List.mem_cons_of_mem i hj)
    have hitem := @readItem_framed dt _ _ hi (hlen i (by simp)) _ (@follows_items dt is)
    rw [dropWhile_items hrest] at hitem
    have heq : itemsText dt (i :: is) = toJson dt i.headers ++
        10 :: (i.payload ++ is.flatMap (serializeItem dt)) := by
      simp [itemsText, itemText]
    have hshort : (itemsText dt is).length < (itemsText dt (i :: is)).length := by
      rw [heq, ← dropWhile_items hrest]
      have := (List.dropWhile_suffix (· = 10) (l := is.flatMap (serializeItem dt))).length_le
      simp only [List.length_append, List.length_cons]
      omega
    rw [heq] at hf hshort ⊢
    cases hs : toJson dt i.headers ++ 10 :: (i.payload ++ is.flatMap (serializeItem dt)) with
    | nil => simp at hs
    | cons c r =>
      rw [hs] at hf hitem hshort
      cases fuel with
      | zero => simp at hf
      | succ fuel =>
        have := ih hrest (fun j hj => hlen j (List.mem_cons_of_mem i hj)) fuel
          (by simp only [List.length_cons] at hf hshort; omega)
        simp only [readItems, hitem, this, Option.map_some, List.map_cons]

theorem normalize_object (ps : List (Bytes × Value)) :
    ∃ qs, Json.normalize (.object ps) = .object qs := by
  rw [Json.normalize, truncate, Value.retype]
  exact ⟨_, rfl⟩

theorem deserialize_items {ps : List (Bytes × Value)} (hp : (Value.object ps).Plain)
    (hh : (Value.object ps).height < 2 ^ 32) {is : List Item}
    (h : ∀ i ∈ is, ∃ ps, Framed i ps) (hlen : ∀ i ∈ is, i.payload.length < 2 ^ 31) :
    deserialize dt (serialize dt (.items (.object ps) is)) =
      some (.items (Json.normalize (.object ps)) (is.map (readBack dt))) := by
  have hj := toJson_eq_render dt hp hh
  have hf : fromJson dt (render (truncate 0 (.object ps))) = Json.normalize (.object ps) :=
    fromJson_render (truncate_plain hp 0) (truncate_height _ 0 (by decide))
  obtain ⟨qs, hq⟩ := normalize_object ps
  rw [hq] at hf
  have hnl := newline_not_mem_render (truncate 0 (.object ps))
  have hne : serialize dt (.items (.object ps) is) ≠ [] := by
    obtain ⟨r, hr⟩ := render_object_head (if 0 + 1 < maxDepth then truncatePairs (0 + 1) ps else [])
    rw [serialize, hj, truncate, hr]
    simp
  have hread := @readItems_itemsText dt _ h hlen _ (Nat.le_refl _)
  have hsplit : splitLine (serialize dt (.items (.object ps) is)) =
      (render (truncate 0 (.object ps)), if is = [] then none else some (itemsText dt is)) := by
    rw [serialize, hj]
    cases is with
    | nil => simp [splitLine_of_not_mem hnl]
    | cons i is => simp [serializeItem, splitLine_append hnl, itemsText, itemText]
  have hrest : (if is = [] then none else some (itemsText dt is)).getD [] = itemsText dt is := by
    cases is <;> rfl
  rw [deserialize, if_neg hne, hsplit, hq]
  simp only [hf, hrest, hread, Option.map_some]

end Envelope

end SentryNative
