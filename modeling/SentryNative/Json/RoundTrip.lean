import SentryNative.Json.WriterText
import SentryNative.Json.Reader

/-!
# The JSON round trip

Reading back what the writer wrote gives the same tree with its integers in
their narrowest type and the containers at depth 63 emptied.
-/

namespace SentryNative.Json

open CLib Jsmn JsonWriter

/-! ## The reader on the tokens of a text -/

theorem drop_append_of_drop {buf a r : Bytes} {p : Nat} (h : buf.drop p = a ++ r) :
    buf.drop (p + a.length) = r := by
  rw [← List.drop_drop, h, List.drop_left]

theorem slice_of_drop {buf a r : Bytes} {p : Nat} (h : buf.drop p = a ++ r) (type : TokType)
    (size : Nat) : slice buf ⟨type, p, (p + a.length : Nat), size⟩ = a := by
  have hlen : ((p + a.length : Nat) - (p : Int)).toNat = a.length := by omega
  simp only [slice, Int.toNat_natCast, h, hlen, List.take_left]

/-- The reader takes the tokens of the text at `p` for the value, and no more. -/
def ReadsBack (dt : DoubleText) (v : Value) : Prop :=
  ∀ (buf : Bytes) (p fuel depth : Nat) (r : Bytes) (rest : List Tok),
    buf.drop p = render v ++ r → (tokensOf p v).length ≤ fuel → depth + v.height ≤ maxDepth →
    tokensToValue dt buf fuel depth (tokensOf p v ++ rest) = some (v.retype, rest)

theorem tokensOf_length_pos (p : Nat) (v : Value) : 0 < (tokensOf p v).length := by
  cases v <;> simp [tokensOf]

variable {dt : DoubleText}

/-- A primitive is read by its first byte. -/
theorem readsBack_primitive {v w : Value} (ht : ∀ p, tokensOf p v =
      [⟨.primitive, p, (p + (render v).length : Nat), 0⟩]) (hw : v.retype = w)
    (hv : ∀ (buf : Bytes) (p : Nat) (r : Bytes), buf.drop p = render v ++ r →
      primitiveValue dt buf ⟨.primitive, p, (p + (render v).length : Nat), 0⟩ = w) :
    ReadsBack dt v := by
  intro buf p fuel depth r rest hbuf hf _
  rw [ht] at hf ⊢
  cases fuel with
  | zero => simp at hf
  | succ fuel =>
    simp only [List.cons_append, List.nil_append, tokensToValue, hw, hv buf p r hbuf]

theorem printInt_head (i : Int) :
    ∃ c r, printInt i = c :: r ∧ c ≠ 116 ∧ c ≠ 102 ∧ c ≠ 110 := by
  by_cases h : i < 0
  · exact ⟨45, _, printInt_head_neg h, by decide, by decide, by decide⟩
  · have hp : printInt i = printNat i.natAbs := by simp [printInt, h]
    rw [hp]
    cases hn : printNat i.natAbs with
    | nil => exact absurd hn (printNat_ne_nil _)
    | cons c r =>
      have hd := isDigit_of_mem_printNat (n := i.natAbs) (c := c) (by simp [hn])
      refine ⟨c, r, rfl, ?_, ?_, ?_⟩ <;> rintro rfl <;> revert hd <;> decide

theorem primitiveValue_printInt {i : Int} (lo : -2 ^ 63 ≤ i) (hi : i < 2 ^ 64) {buf r : Bytes}
    {p : Nat} (h : buf.drop p = printInt i ++ r) :
    primitiveValue dt buf ⟨.primitive, p, (p + (printInt i).length : Nat), 0⟩ =
      Value.ofInteger i := by
  have hs := slice_of_drop h .primitive 0
  obtain ⟨c, t, hc, h1, h2, h3⟩ := printInt_head i
  have hhead : (buf.drop p).head? = some c := by rw [h, hc]; rfl
  simp only [primitiveValue, Int.toNat_natCast, hhead, hs]
  split
  · simp_all
  · simp_all
  · simp_all
  · exact parseNumber_printInt dt lo hi

theorem ofInteger_int32 (i : Int32) : Value.ofInteger i.toInt = .int32 i := by
  have h1 := i.le_toInt
  have h2 := i.toInt_lt
  rw [Value.ofInteger, if_pos ⟨h1, h2⟩, Int32.ofInt_toInt]

theorem readsBack_string (s : Bytes) : ReadsBack dt (.string s) := by
  intro buf p fuel depth r rest hbuf hf _
  cases fuel with
  | zero => simp [tokensOf] at hf
  | succ fuel =>
    have hq : buf.drop p = [34] ++ (s.flatMap escapeByte ++ (34 :: r)) := by
      rw [hbuf]; simp [render, quote]
    have hs := slice_of_drop (drop_append_of_drop hq) .string 0
    simp only [List.length_singleton] at hs
    simp only [tokensOf, List.cons_append, List.nil_append, tokensToValue, hs,
      decodeString_escaped, Value.retype]

theorem readItems_tokens {vs : List Value} (h : ∀ v ∈ vs, ReadsBack dt v) (buf : Bytes)
    (fuel depth : Nat) (r : Bytes) (rest : List Tok) (comma : Bool) (p : Nat) (acc : List Value)
    (hbuf : buf.drop p = renderItems comma vs ++ r)
    (hf : (tokensOfItems p comma vs).length ≤ fuel)
    (hd : depth + Value.heightList vs ≤ maxDepth) :
    readItems (tokensToValue dt buf fuel depth) vs.length acc
      (tokensOfItems p comma vs ++ rest) = some (acc ++ Value.retypeList vs, rest) := by
  induction vs generalizing comma p acc with
  | nil => simp [readItems, tokensOfItems, Value.retypeList]
  | cons v vs ih =>
    simp only [tokensOfItems, List.length_append, Value.heightList] at hf hd
    simp only [renderItems, List.append_assoc] at hbuf
    have hb := drop_append_of_drop hbuf
    have hv := h v (by simp) buf _ fuel depth _
      (tokensOfItems (p + (separator comma).length + (render v).length) true vs ++ rest) hb
      (by omega) (by omega)
    have hvs := ih (fun w hw => h w (List.mem_cons_of_mem v hw)) true _ (acc ++ [v.retype])
      (drop_append_of_drop hb) (by omega) (by omega)
    simp only [List.length_cons, tokensOfItems, List.append_assoc, readItems, hv, hvs,
      Value.retypeList, List.singleton_append]

theorem readPairs_tokens {ps : List (Bytes × Value)} (h : ∀ q ∈ ps, ReadsBack dt q.2)
    (buf : Bytes) (fuel depth : Nat) (r : Bytes) (rest : List Tok) (comma : Bool) (p : Nat)
    (acc : List (Bytes × Value)) (hbuf : buf.drop p = renderPairs comma ps ++ r)
    (hf : (tokensOfPairs p comma ps).length ≤ fuel)
    (hd : depth + Value.heightPairs ps ≤ maxDepth) (hz : ∀ q ∈ ps, 0 ∉ q.1)
    (hn : (acc.map Prod.fst ++ ps.map Prod.fst).Nodup) :
    readPairs buf (tokensToValue dt buf fuel depth) ps.length acc
      (tokensOfPairs p comma ps ++ rest) = some (acc ++ Value.retypePairs ps, rest) := by
  induction ps generalizing comma p acc with
  | nil => simp [readPairs, tokensOfPairs, Value.retypePairs]
  | cons q ps ih =>
    obtain ⟨k, v⟩ := q
    simp only [tokensOfPairs, List.length_cons, List.length_append, Value.heightPairs] at hf hd
    simp only [renderPairs, List.append_assoc, List.cons_append] at hbuf
    have hk := drop_append_of_drop hbuf
    have hq : buf.drop (p + (separator comma).length) =
        [34] ++ (k.flatMap escapeByte ++ (34 :: 58 :: (render v ++ (renderPairs true ps ++ r)))) := by
      rw [hk]; simp [quote]
    have hs := slice_of_drop (drop_append_of_drop hq) .string 1
    simp only [List.length_singleton] at hs
    have hcolon : buf.drop (p + (separator comma).length + (quote k).length) =
        [58] ++ (render v ++ (renderPairs true ps ++ r)) := drop_append_of_drop hk
    have hb := drop_append_of_drop hcolon
    simp only [List.length_singleton] at hb
    have hv := h (k, v) (by simp) buf _ fuel depth _
      (tokensOfPairs (p + (separator comma).length + (quote k).length + 1 + (render v).length)
        true ps ++ rest) hb (by simp only; omega) (by simp only; omega)
    have hk0 : 0 ∉ k := hz (k, v) (by simp)
    have hfresh : k ∉ acc.map Prod.fst := by
      intro hmem
      have := (List.nodup_append.mp hn).2.2 k hmem k (by simp)
      exact this rfl
    have hps := ih (fun q hq => h q (List.mem_cons_of_mem _ hq)) true _ (acc ++ [(k, v.retype)])
      (drop_append_of_drop hb) (by omega) (by omega)
      (fun q hq => hz q (List.mem_cons_of_mem _ hq)) (by simpa using hn)
    simp only [List.length_cons, tokensOfPairs, List.cons_append, List.append_assoc, readPairs,
      hv, hs, decodeString_escaped, cstr_of_not_mem hk0, Value.insert_of_not_mem hfresh, hps,
      Value.retypePairs, List.nil_append, ne_eq, not_true_eq_false, ↓reduceIte]

theorem readsBack_list {vs : List Value} (h : ∀ v ∈ vs, ReadsBack dt v) :
    ReadsBack dt (.list vs) := by
  intro buf p fuel depth r rest hbuf hf hd
  cases fuel with
  | zero => simp [tokensOf] at hf
  | succ fuel =>
    simp only [tokensOf, List.length_cons, Value.height] at hf hd
    have hopen : buf.drop p = [91] ++ (renderItems false vs ++ (93 :: r)) := by
      rw [hbuf]; simp [render]
    have items := readItems_tokens h buf fuel (depth + 1) _ rest false (p + 1) []
      (drop_append_of_drop hopen) (by omega) (by omega)
    have hlt : ¬ maxDepth ≤ depth := by omega
    simp only [tokensOf, List.cons_append, tokensToValue, if_neg hlt, items, Option.map_some,
      List.nil_append, Value.retype]

theorem readsBack_object {ps : List (Bytes × Value)} (h : ∀ q ∈ ps, ReadsBack dt q.2)
    (hn : (ps.map Prod.fst).Nodup) (hz : ∀ q ∈ ps, 0 ∉ q.1) : ReadsBack dt (.object ps) := by
  intro buf p fuel depth r rest hbuf hf hd
  cases fuel with
  | zero => simp [tokensOf] at hf
  | succ fuel =>
    simp only [tokensOf, List.length_cons, Value.height] at hf hd
    have hopen : buf.drop p = [123] ++ (renderPairs false ps ++ (125 :: r)) := by
      rw [hbuf]; simp [render]
    have pairs := readPairs_tokens h buf fuel (depth + 1) _ rest false (p + 1) []
      (drop_append_of_drop hopen) (by omega) (by omega) hz (by simpa using hn)
    have hlt : ¬ maxDepth ≤ depth := by omega
    simp only [tokensOf, List.cons_append, tokensToValue, if_neg hlt, pairs, Option.map_some,
      List.nil_append, Value.retype]

/-- **The reader inverts the text of a plain tree** of at most 64 levels. -/
theorem readsBack_plain {v : Value} (hp : v.Plain) : ReadsBack dt v := by
  induction hp with
  | null =>
    refine readsBack_primitive (fun _ => rfl) rfl fun buf p r h => ?_
    simp [primitiveValue, h, render, ascii, Value.retype]
  | bool b =>
    refine readsBack_primitive (fun _ => rfl) rfl fun buf p r h => ?_
    cases b <;> simp [primitiveValue, h, render, ascii, Value.retype]
  | int32 i =>
    refine readsBack_primitive (fun _ => rfl) (ofInteger_int32 i).symm fun buf p r h => ?_
    have := i.le_toInt
    have := i.toInt_lt
    exact primitiveValue_printInt (by omega) (by omega) h
  | int64 i =>
    refine readsBack_primitive (fun _ => rfl) rfl fun buf p r h => ?_
    have := i.le_toInt
    have := i.toInt_lt
    exact primitiveValue_printInt (by omega) (by omega) h
  | uint64 u =>
    refine readsBack_primitive (fun _ => rfl) rfl fun buf p r h => ?_
    have := u.toNat_lt
    exact primitiveValue_printInt (by omega) (by omega) h
  | string s => exact readsBack_string s
  | list _ ih => exact readsBack_list ih
  | object hn hz _ ih => exact readsBack_object ih hn hz

theorem fromJson_render {v : Value} (hp : v.Plain) (hh : v.height ≤ maxDepth) :
    fromJson dt (render v) = v.retype := by
  obtain ⟨hcount, hparse⟩ := parse_render v
  have hpos := tokensOf_length_pos 0 v
  have hread := @readsBack_plain dt v hp (render v) 0 (tokensOf 0 v).length 0 [] []
    (by simp) (Nat.le_refl _) (by omega)
  simp only [List.append_nil] at hread
  cases hc : parse (render v) none with
  | error e => simp [hc, Except.map] at hcount
  | ok st =>
    simp only [hc, Except.map, Except.ok.injEq] at hcount
    simp only [fromJson, hc, hcount, hparse, if_neg (Nat.ne_of_gt hpos), Option.getD_some, hread]

/-! ## The cut -/

theorem truncate_height (v : Value) : ∀ d, d < maxDepth → (truncate d v).height ≤ maxDepth - d := by
  induction v using Value.tree_induction with
  | list vs ih =>
    intro d hd
    rw [truncate]
    by_cases hlt : d + 1 < maxDepth
    · have items : ∀ ws : List Value, (∀ w ∈ ws, w ∈ vs) →
          Value.heightList (truncateItems (d + 1) ws) ≤ maxDepth - (d + 1) := by
        intro ws hws
        induction ws with
        | nil => simp [truncateItems, Value.heightList]
        | cons w ws ihw =>
          have h1 := ih w (hws w (by simp)) (d + 1) hlt
          have h2 := ihw fun x hx => hws x (List.mem_cons_of_mem w hx)
          simp only [truncateItems, Value.heightList]
          omega
      have := items vs fun _ hw => hw
      rw [if_pos hlt, Value.height]
      omega
    · rw [if_neg hlt]
      simp only [Value.height, Value.heightList]
      omega
  | object ps ih =>
    intro d hd
    rw [truncate]
    by_cases hlt : d + 1 < maxDepth
    · have pairs : ∀ qs : List (Bytes × Value), (∀ q ∈ qs, q ∈ ps) →
          Value.heightPairs (truncatePairs (d + 1) qs) ≤ maxDepth - (d + 1) := by
        intro qs hqs
        induction qs with
        | nil => simp [truncatePairs, Value.heightPairs]
        | cons q qs ihq =>
          have h1 := ih q (hqs q (by simp)) (d + 1) hlt
          have h2 := ihq fun x hx => hqs x (List.mem_cons_of_mem q hx)
          simp only [truncatePairs, Value.heightPairs]
          omega
      have := pairs ps fun _ hq => hq
      rw [if_pos hlt, Value.height]
      omega
    · rw [if_neg hlt]
      simp only [Value.height, Value.heightPairs]
      omega
  | _ => intro d _; simp [truncate, Value.height]

theorem mem_truncateItems {d : Nat} {vs : List Value} {w : Value} (h : w ∈ truncateItems d vs) :
    ∃ v ∈ vs, w = truncate d v := by
  induction vs with
  | nil => simp [truncateItems] at h
  | cons v vs ih =>
    simp only [truncateItems, List.mem_cons] at h
    rcases h with rfl | h
    · exact ⟨v, by simp, rfl⟩
    · obtain ⟨u, hu, he⟩ := ih h
      exact ⟨u, List.mem_cons_of_mem v hu, he⟩

theorem mem_truncatePairs {d : Nat} {ps : List (Bytes × Value)} {q : Bytes × Value}
    (h : q ∈ truncatePairs d ps) : ∃ p ∈ ps, q = (p.1, truncate d p.2) := by
  induction ps with
  | nil => simp [truncatePairs] at h
  | cons p ps ih =>
    simp only [truncatePairs, List.mem_cons] at h
    rcases h with rfl | h
    · exact ⟨p, by simp, rfl⟩
    · obtain ⟨u, hu, he⟩ := ih h
      exact ⟨u, List.mem_cons_of_mem p hu, he⟩

theorem truncate_plain {v : Value} (hp : v.Plain) : ∀ d, (truncate d v).Plain := by
  induction hp with
  | null => intro d; exact .null
  | bool b => intro d; exact .bool b
  | int32 i => intro d; exact .int32 i
  | int64 i => intro d; exact .int64 i
  | uint64 u => intro d; exact .uint64 u
  | string s => intro d; exact .string s
  | list _ ih =>
    intro d
    rw [truncate]
    apply Value.Plain.list
    intro w hw
    split at hw
    · obtain ⟨v, hv, rfl⟩ := mem_truncateItems hw
      exact ih v hv _
    · simp at hw
  | object hn hz _ ih =>
    intro d
    rw [truncate]
    split
    · refine .object (by rw [truncatePairs_keys]; exact hn) ?_ ?_
      · intro q hq
        obtain ⟨p, hp, rfl⟩ := mem_truncatePairs hq
        exact hz p hp
      · intro q hq
        obtain ⟨p, hp, rfl⟩ := mem_truncatePairs hq
        exact ih p hp _
    · exact .object (by simp) (by simp) (by simp)

/-! ## Writer and reader together -/

/-- What a round trip keeps: the tree cut below depth 63, its integers in their
narrowest types. -/
def normalize (v : Value) : Value := (truncate 0 v).retype

/-- **The JSON round trip.** -/
theorem fromJson_toJson (dt : DoubleText) {v : Value} (hp : v.Plain) (hh : v.height < 2 ^ 32) :
    fromJson dt (toJson dt v) = normalize v := by
  rw [toJson_eq_render dt hp hh]
  exact fromJson_render (truncate_plain hp 0) (truncate_height v 0 (by decide))

/-- A `DoubleText` for closed statements about values without doubles. -/
def noDoubles : DoubleText := ⟨fun _ => [], fun _ => 0⟩

/-- Control bytes, quotes and a wide integer in a nested container. -/
theorem fromJson_toJson_nested :
    fromJson noDoubles (toJson noDoubles
      (.object [([97], .list [.int64 5, .uint64 9223372036854775808, .string [0, 34, 92, 10]])])) =
      .object [([97], .list [.int32 5, .uint64 9223372036854775808, .string [0, 34, 92, 10]])] := by
  refine (fromJson_toJson noDoubles ?_
    (by simp [Value.height, Value.heightPairs, Value.heightList])).trans ?_
  refine .object (by simp) (by simp) ?_
  intro p hp
  rw [List.mem_singleton.mp hp]
  apply Value.Plain.list
  intro v hv
  simp only [List.mem_cons, List.not_mem_nil, or_false] at hv
  rcases hv with rfl | rfl | rfl
  · exact .int64 _
  · exact .uint64 _
  · exact .string _
  · have narrow : Value.ofInteger (5 : Int64).toInt = .int32 5 := by
      rw [Value.ofInteger, if_pos (by decide)]
      rfl
    have wide : Value.ofInteger (9223372036854775808 : UInt64).toNat = .uint64 9223372036854775808 := by
      rw [Value.ofInteger, if_neg (by decide), if_neg (by decide)]
      congr 1
    simp only [normalize, truncate, truncatePairs, truncateItems, maxDepth, Nat.reduceAdd,
      Nat.reduceLT, ↓reduceIte, Value.retype, Value.retypePairs, Value.retypeList, narrow, wide]

/-! ## Where the depth counter wraps -/

/-- A value inside `n` lists. -/
def nest : Nat → Value → Value
  | 0, v => v
  | n + 1, v => .list [nest n v]

theorem nest_plain (n : Nat) {v : Value} (h : v.Plain) : (nest n v).Plain := by
  induction n with
  | zero => exact h
  | succ n ih => exact .list fun w hw => by simpa [List.mem_singleton.mp hw] using ih

theorem nest_height (n : Nat) (v : Value) : (nest n v).height = n + v.height := by
  induction n with
  | zero => simp [nest]
  | succ n ih => simp [nest, Value.height, Value.heightList, ih]; omega

theorem nest_succ (n : Nat) (v : Value) : nest (n + 1) v = nest n (.list [v]) := by
  induction n with
  | zero => rfl
  | succ n ih => rw [nest, ih, nest]

theorem nest_injective (n : Nat) {v w : Value} (h : nest n v = nest n w) : v = w := by
  induction n with
  | zero => exact h
  | succ n ih => exact ih (by simpa [nest] using h)

theorem nest_retype (n : Nat) (v : Value) : (nest n v).retype = nest n v.retype := by
  induction n with
  | zero => rfl
  | succ n ih => simp [nest, Value.retype, Value.retypeList, ih]

theorem render_nest (n : Nat) (v : Value) :
    render (nest n v) = List.replicate n 91 ++ render v ++ List.replicate n 93 := by
  induction n with
  | zero => simp [nest]
  | succ n ih =>
    have hend : List.replicate (n + 1) (93 : UInt8) = List.replicate n 93 ++ [93] :=
      List.replicate_succ'
    simp [nest, render, renderItems, separator, ih, List.replicate_succ (a := (91 : UInt8)), hend]

theorem truncate_nest (n : Nat) (v : Value) : ∀ d, d < maxDepth → maxDepth ≤ d + n →
    truncate d (nest n v) = nest (maxDepth - 1 - d) (.list []) := by
  induction n with
  | zero => intro d h1 h2; omega
  | succ n ih =>
    intro d h1 h2
    by_cases hlt : d + 1 < maxDepth
    · have he : maxDepth - 1 - d = maxDepth - 1 - (d + 1) + 1 := by omega
      rw [nest, truncate, if_pos hlt, he, nest, truncateItems, truncateItems,
        ih (d + 1) hlt (by omega)]
    · have he : maxDepth - 1 - d = 0 := by omega
      rw [nest, truncate, if_neg hlt, he, nest]

/-- At the last value of the counter the bracket is dropped, the counter is 0
again, and the list's contents are written. -/
theorem writeValue_wrap (jw : JsonWriter) (hd : jw.depth + 1 = 2 ^ 32)
    (hk : jw.lastWasKey = false) :
    (writeValue dt (.list [.null]) jw).out = jw.out ++ ascii "null" ∧
      (writeValue dt (.list [.null]) jw).depth = jw.depth := by
  have hmax : maxDepth ≤ jw.depth := by have : maxDepth = 64 := rfl; omega
  have hz : (jw.depth + 1) % 2 ^ 32 = 0 := by omega
  have hs : writeStart jw 91 = ({ jw with depth := 0 } : JsonWriter).setComma false := by
    simp only [writeStart, writeItem_of_max hmax, hz]
  have hs0 : (writeStart jw 91).depth = 0 := by rw [hs, setComma_depth]
  have hsk : (writeStart jw 91).lastWasKey = false := by rw [hs, setComma_lastWasKey]; exact hk
  have hsb : (writeStart jw 91).bit 0 = false := by
    rw [hs]; exact @setComma_bit { jw with depth := 0 } (show 0 < maxDepth by decide) false
  obtain ⟨hw, -⟩ := @writeItem_wrote (writeStart jw 91) (by rw [hs0]; decide) (ascii "null")
  have hout : ((writeStart jw 91).writeItem (ascii "null")).out = jw.out ++ ascii "null" := by
    rw [hw.out, hsk, hs0, hsb, hs, setComma_out]
    rfl
  have hback : (0 + 2 ^ 32 - 1) % 2 ^ 32 = jw.depth := by omega
  have hend : writeValue dt (.list [.null]) jw =
      { (writeStart jw 91).writeItem (ascii "null") with depth := jw.depth } := by
    simp only [writeValue, writeItems, writeNull, writeEnd, hw.depth, hs0, hback, atMaxDepth,
      ge_iff_le, decide_eq_true hmax, ↓reduceIte]
  rw [hend]
  exact ⟨hout, rfl⟩

theorem writeEnd_depth {s : JsonWriter} {d : Nat} (h : s.depth = d + 1) (hd : d + 1 < 2 ^ 32)
    (b : UInt8) : (writeEnd s b).depth = d ∧
      (writeEnd s b).out = if d < maxDepth then s.out ++ [b] else s.out := by
  have hback : (s.depth + 2 ^ 32 - 1) % 2 ^ 32 = d := by omega
  by_cases hlt : d < maxDepth
  · have hmax : ¬ maxDepth ≤ d := Nat.not_le.mpr hlt
    simp only [writeEnd, hback, atMaxDepth, ge_iff_le, decide_eq_false hmax, Bool.false_eq_true,
      ↓reduceIte, writeChar, write, if_pos hlt, and_self]
  · have hmax : maxDepth ≤ d := Nat.not_lt.mp hlt
    simp only [writeEnd, hback, atMaxDepth, ge_iff_le, decide_eq_true hmax, ↓reduceIte,
      if_neg hlt, and_self]

/-- From any depth down to the wrap: only the brackets of depth below 64 are written. -/
theorem writeValue_nest_wrap (k : Nat) : ∀ jw : JsonWriter, jw.depth + k + 1 = 2 ^ 32 →
    jw.lastWasKey = false → (jw.depth < maxDepth → jw.bit jw.depth = false) →
    (writeValue dt (nest (k + 1) .null) jw).out = jw.out ++
        (List.replicate (maxDepth - jw.depth) 91 ++ ascii "null" ++
          List.replicate (maxDepth - jw.depth) 93) ∧
      (writeValue dt (nest (k + 1) .null) jw).depth = jw.depth := by
  induction k with
  | zero =>
    intro jw hd hk _
    have he : maxDepth - jw.depth = 0 := by have : maxDepth = 64 := rfl; omega
    obtain ⟨hout, hdepth⟩ := @writeValue_wrap dt jw (by omega) hk
    rw [he, nest, nest]
    exact ⟨by simpa only [List.replicate_zero, List.nil_append, List.append_nil] using hout,
      hdepth⟩
  | succ k ih =>
    intro jw hd hk hb
    rw [nest, writeValue, writeItems, writeItems]
    by_cases hlt : jw.depth < maxDepth
    · obtain ⟨sd, sk, sb, jw₁, w₁, so, -⟩ := writeStart_wrote hlt 91
      have inner := ih (writeStart jw 91) (by rw [sd]; omega) sk
        (by rw [sd]; exact fun h => sb h)
      have ho : (writeStart jw 91).out = jw.out ++ [91] := by
        rw [so, w₁.out, hk, hb hlt]
        rfl
      have he : maxDepth - jw.depth = maxDepth - (jw.depth + 1) + 1 := by omega
      rw [sd] at inner
      obtain ⟨ed, eo⟩ := writeEnd_depth inner.2 (by omega) 93
      refine ⟨?_, ed⟩
      rw [eo, if_pos hlt, inner.1, ho, he, List.replicate_succ, List.replicate_succ']
      simp
    · have hmax : maxDepth ≤ jw.depth := Nat.not_lt.mp hlt
      have sd : (writeStart jw 91).depth = jw.depth + 1 := by
        rw [writeStart_of_max hmax (by omega)]
      have inner := ih (writeStart jw 91) (by rw [sd]; omega)
        (by rw [writeStart_of_max hmax (by omega)]; exact hk) (by rw [sd]; intro h; omega)
      have he : maxDepth - (jw.depth + 1) = maxDepth - jw.depth := by omega
      have ho : (writeStart jw 91).out = jw.out := by rw [writeStart_of_max hmax (by omega)]
      rw [sd, he, ho] at inner
      obtain ⟨ed, eo⟩ := writeEnd_depth inner.2 (by omega) 93
      refine ⟨?_, ed⟩
      rw [eo, if_neg hlt, inner.1]

theorem toJson_nest_wrap : toJson dt (nest (2 ^ 32) .null) = render (nest maxDepth .null) := by
  obtain ⟨k, hk⟩ : ∃ k, k + 1 = 2 ^ 32 := ⟨2 ^ 32 - 1, by omega⟩
  have hd : JsonWriter.new.depth + k + 1 = 2 ^ 32 := by simpa [JsonWriter.new] using hk
  have h := (@writeValue_nest_wrap dt k JsonWriter.new hd rfl (fun _ => rfl)).1
  rw [toJson, render_nest, ← hk, h]
  rfl

/-- With 2^32 levels of lists the counter is back at 0 for the innermost value:
its text lands in the list at depth 63, which should be empty. -/
theorem fromJson_toJson_wrap :
    (nest (2 ^ 32) .null).Plain ∧ (toJson noDoubles (nest (2 ^ 32) .null)).length < 2 ^ 31 ∧
      fromJson noDoubles (toJson noDoubles (nest (2 ^ 32) .null)) ≠
        normalize (nest (2 ^ 32) .null) := by
  refine ⟨nest_plain _ .null, ?_, ?_⟩
  · rw [toJson_nest_wrap, render_nest]
    simp [render, ascii, maxDepth]
  · rw [toJson_nest_wrap, fromJson_render (nest_plain _ .null) (by rw [nest_height]; decide),
      normalize, truncate_nest _ _ 0 (by decide) (by decide), nest_retype, nest_retype]
    intro h
    have h' : nest 63 (.list [Value.null.retype]) = nest 63 (Value.list []).retype := by
      rw [← nest_succ]; exact h
    have := nest_injective 63 h'
    simp [Value.retype, Value.retypeList] at this

end SentryNative.Json
