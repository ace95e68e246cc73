import SentryNative.Json.Tokenize

/-!
# The JSON reader

`sentry__value_from_json`: the tokens are counted, allocated and read back into
a value, with strings unescaped, numbers typed by size and containers nested
deeper than 64 levels refused. A failure is the null value, as in the source.
-/

namespace SentryNative.Json

open CLib Jsmn

def hexDigit (c : UInt8) : Option Nat :=
  if 48 ≤ c ∧ c ≤ 57 then some (c.toNat - 48)
  else if 97 ≤ c ∧ c ≤ 102 then some (c.toNat - 97 + 10)
  else if 65 ≤ c ∧ c ≤ 70 then some (c.toNat - 65 + 10)
  else none

/-- `read_escaped_unicode_char`. -/
def readEscapedUnicodeChar (a b c d : UInt8) : Option Nat :=
  match hexDigit a, hexDigit b, hexDigit c, hexDigit d with
  | some a, some b, some c, some d => some (((a * 16 + b) * 16 + c) * 16 + d)
  | _, _, _, _ => none

def isLeadSurrogate (c : Nat) : Bool := decide (0xd800 ≤ c ∧ c < 0xdc00)

def isTrailSurrogate (c : Nat) : Bool := decide (0xdc00 ≤ c ∧ c < 0xe000)

def surrogateValue (lead trail : Nat) : Nat :=
  (((lead - 0xd800) <<< 10) ||| (trail - 0xdc00)) + 0x10000

/-- `sentry__unichar_to_utf8`. -/
def unicharToUtf8 (c : Nat) : Bytes :=
  let continuation (c : Nat) : UInt8 := UInt8.ofNat ((c &&& 0x3f) ||| 0x80)
  if c < 0x80 then [UInt8.ofNat c]
  else if c < 0x800 then [UInt8.ofNat ((c >>> 6) ||| 0xc0), continuation c]
  else if c < 0x10000 then
    [UInt8.ofNat ((c >>> 12) ||| 0xe0), continuation (c >>> 6), continuation c]
  else if c ≤ 0x10FFFF then
    [UInt8.ofNat ((c >>> 18) ||| 0xf0), continuation (c >>> 12), continuation (c >>> 6),
      continuation c]
  else []

/-- `SIMPLE_ESCAPE`. -/
def simpleEscape (c : UInt8) : Option UInt8 :=
  if c = 34 then some 34
  else if c = 92 then some 92
  else if c = 47 then some 47
  else if c = 98 then some 8
  else if c = 102 then some 12
  else if c = 110 then some 10
  else if c = 114 then some 13
  else if c = 116 then some 9
  else none

/-- `decode_string_inplace` on a NUL-terminated copy of the text. -/
def decodeString : Bytes → Option Bytes
  | [] => some []
  | 92 :: 117 :: a :: b :: c :: d :: r =>
    match readEscapedUnicodeChar a b c d with
    | none => none
    | some u =>
      if isLeadSurrogate u then
        match r with
        | 92 :: 117 :: a' :: b' :: c' :: d' :: r' =>
          match readEscapedUnicodeChar a' b' c' d' with
          | none => none
          | some t =>
            if isTrailSurrogate t then
              (decodeString r').map (unicharToUtf8 (surrogateValue u t) ++ ·)
            else none
        | _ => none
      else if isTrailSurrogate u then none
      else (decodeString r).map (unicharToUtf8 u ++ ·)
  | 92 :: 117 :: _ => none
  | 92 :: c :: r =>
    match simpleEscape c with
    | some e => (decodeString r).map (e :: ·)
    | none => none
  | [92] => none
  | c :: r => if c = 0 then some [] else (decodeString r).map (c :: ·)

/-- `parse_number`. -/
def parseNumber (dt : DoubleText) (s : Bytes) : Value :=
  if s.head? = some 45 then
    let r := strtoll s
    if r.rest = [] ∧ r.erange = false then
      if -2 ^ 31 ≤ r.value ∧ r.value ≤ 2 ^ 31 - 1 then .int32 (Int32.ofInt r.value)
      else .int64 (Int64.ofInt r.value)
    else .double (dt.strtod s)
  else
    let r := strtoull s
    if r.rest = [] ∧ r.erange = false then
      if r.value ≤ 2 ^ 31 - 1 then .int32 (Int32.ofInt r.value)
      else if r.value ≤ 2 ^ 63 - 1 then .int64 (Int64.ofInt r.value)
      else .uint64 (UInt64.ofNat r.value.toNat)
    else .double (dt.strtod s)

/-- The text between a token's positions. -/
def slice (buf : Bytes) (t : Tok) : Bytes := (buf.drop t.start.toNat).take (t.stop - t.start).toNat

def primitiveValue (dt : DoubleText) (buf : Bytes) (t : Tok) : Value :=
  match (buf.drop t.start.toNat).head? with
  | some 116 => .bool true
  | some 102 => .bool false
  | some 110 => .null
  | _ => parseNumber dt (slice buf t)

/-- The loop over the items of an array, with the reader of one item. -/
def readItems (read : List Tok → Option (Value × List Tok)) :
    Nat → List Value → List Tok → Option (List Value × List Tok)
  | 0, acc, toks => some (acc, toks)
  | n + 1, acc, toks =>
    match read toks with
    | none => none
    | some (v, toks) => readItems read n (acc ++ [v]) toks

/-- The loop over the pairs of an object: a key that does not decode drops its
value, an equal key replaces an earlier one. -/
def readPairs (buf : Bytes) (read : List Tok → Option (Value × List Tok)) :
    Nat → List (Bytes × Value) → List Tok → Option (List (Bytes × Value) × List Tok)
  | 0, acc, toks => some (acc, toks)
  | _ + 1, _, [] => none
  | n + 1, acc, key :: toks =>
    if key.type ≠ .string then none
    else
      match read toks with
      | none => none
      | some (v, toks) =>
        match decodeString (slice buf key) with
        | some k => readPairs buf read n (Value.insert (cstr k) v acc) toks
        | none => readPairs buf read n acc toks

/-- `tokens_to_value`: the value and the tokens it did not consume. The fuel is
the number of tokens, of which every level takes one. -/
def tokensToValue (dt : DoubleText) (buf : Bytes) :
    Nat → Nat → List Tok → Option (Value × List Tok)
  | 0, _, _ => none
  | _ + 1, _, [] => none
  | fuel + 1, depth, root :: toks =>
    match root.type with
    | .primitive => some (primitiveValue dt buf root, toks)
    | .string =>
      match decodeString (slice buf root) with
      | some s => some (.string s, toks)
      | none => some (.null, toks)
    | .object =>
      if maxDepth ≤ depth then none
      else (readPairs buf (tokensToValue dt buf fuel (depth + 1)) root.size [] toks).map
        fun q => (.object q.1, q.2)
    | .array =>
      if maxDepth ≤ depth then none
      else (readItems (tokensToValue dt buf fuel (depth + 1)) root.size [] toks).map
        fun q => (.list q.1, q.2)
    | .undefined => some (.null, toks)

/-- `sentry__value_from_json`. -/
def fromJson (dt : DoubleText) (buf : Bytes) : Value :=
  match parse buf none with
  | .error _ => .null
  | .ok st =>
    if st.count = 0 then .null
    else
      match parse buf (some st.count) with
      | .error _ => .null
      | .ok st =>
        let toks := st.tokens.getD []
        match tokensToValue dt buf toks.length 0 toks with
        | some (v, []) => v
        | _ => .null

/-! ## Strings and numbers -/

theorem decodeString_unicode {a b c d : UInt8} {u : Nat}
    (h : readEscapedUnicodeChar a b c d = some u) (hu : u < 0xd800) (r : Bytes) :
    decodeString (92 :: 117 :: a :: b :: c :: d :: r) =
      (decodeString r).map (unicharToUtf8 u ++ ·) := by
  have hl : isLeadSurrogate u = false := decide_eq_false (by omega)
  have ht : isTrailSurrogate u = false := decide_eq_false (by omega)
  rw [decodeString]
  simp [h, hl, ht]

theorem decodeString_simple {c e : UInt8} (h : simpleEscape c = some e) (hc : c ≠ 117)
    (r : Bytes) : decodeString (92 :: c :: r) = (decodeString r).map (e :: ·) := by
  rw [decodeString.eq_def]
  grind

theorem decodeString_plain {c : UInt8} (h92 : c ≠ 92) (h0 : c ≠ 0) (r : Bytes) :
    decodeString (c :: r) = (decodeString r).map (c :: ·) := by
  rw [decodeString.eq_def]
  grind

/-- The bytes that are escaped without a short form. -/
theorem escapeByte_unicode {n : Nat} (h : n < 32) (hs : n ∉ [8, 9, 10, 12, 13]) :
    ∃ a b c d, escapeByte (UInt8.ofNat n) = [92, 117, a, b, c, d] ∧
      readEscapedUnicodeChar a b c d = some n := by
  interval_cases n <;> first
    | (exfalso; exact hs (by decide))
    | exact ⟨_, _, _, _, rfl, by decide⟩

theorem decodeString_escapeByte (c : UInt8) (r : Bytes) :
    decodeString (escapeByte c ++ r) = (decodeString r).map (c :: ·) := by
  by_cases hn : needsEscaping c = true
  · by_cases hs : c ∈ [8, 9, 10, 12, 13, 34, 92]
    · have simple : ∃ d, escapeByte c = [92, d] ∧ simpleEscape d = some c ∧ d ≠ 117 := by
        simp only [List.mem_cons, List.not_mem_nil, or_false] at hs
        rcases hs with rfl | rfl | rfl | rfl | rfl | rfl | rfl <;>
          exact ⟨_, rfl, by decide, by decide⟩
      obtain ⟨d, he, hd, hd'⟩ := simple
      rw [he]
      exact decodeString_simple hd hd' r
    · simp only [List.mem_cons, List.not_mem_nil, or_false, not_or] at hs
      simp only [needsEscaping, Bool.or_eq_true, decide_eq_true_eq, beq_iff_eq] at hn
      have hlt : c.toNat < 32 := UInt8.lt_iff_toNat_lt.mp (by simpa [hs] using hn)
      have hc : c = UInt8.ofNat c.toNat := by simp
      obtain ⟨a, b, e, d, he, hr⟩ := escapeByte_unicode hlt (by
        simp only [List.mem_cons, List.not_mem_nil, or_false, not_or]
        refine ⟨?_, ?_, ?_, ?_, ?_⟩ <;> intro h <;> rw [h] at hc <;> simp_all)
      rw [← hc] at he
      rw [he]
      have hu : unicharToUtf8 c.toNat = [c] := by
        rw [unicharToUtf8, if_pos (by omega), ← hc]
      have := decodeString_unicode hr (by omega) r
      rw [hu] at this
      exact this
  · have he : escapeByte c = [c] := by simp [escapeByte, hn]
    simp only [needsEscaping, Bool.or_eq_true, decide_eq_true_eq, beq_iff_eq, not_or] at hn
    have h0 : c ≠ 0 := by rintro rfl; exact hn.1.1 (by decide)
    rw [he]
    exact decodeString_plain hn.2 h0 r

theorem decodeString_escaped (s : Bytes) : decodeString (s.flatMap escapeByte) = some s := by
  induction s with
  | nil => rfl
  | cons c s ih => rw [List.flatMap_cons, decodeString_escapeByte, ih]; rfl

theorem printInt_head_neg {i : Int} (h : i < 0) : printInt i = 45 :: printNat i.natAbs := by
  simp [printInt, h]

theorem parseNumber_printInt (dt : DoubleText) {i : Int} (lo : -2 ^ 63 ≤ i) (hi : i < 2 ^ 64) :
    parseNumber dt (printInt i) = Value.ofInteger i := by
  have hnil : NoDigitHead [] := by intro c hc; simp at hc
  unfold parseNumber Value.ofInteger
  by_cases hneg : i < 0
  · have hs := strtoll_neg_printNat (n := i.natAbs) (by omega) hnil
    have hv : -(i.natAbs : Int) = i := by omega
    rw [List.append_nil, hv] at hs
    rw [printInt_head_neg hneg, hs]
    simp only [List.head?_cons, ↓reduceIte, and_self]
    by_cases h32 : -2 ^ 31 ≤ i
    · rw [if_pos (by omega), if_pos (by omega)]
    · rw [if_neg (by omega), if_neg (by omega), if_pos (by omega)]
  · have hs := strtoull_printNat (n := i.natAbs) (by omega) hnil
    have hv : (i.natAbs : Int) = i := by omega
    rw [List.append_nil, hv] at hs
    have hp : printInt i = printNat i.natAbs := by simp [printInt, hneg]
    have hhead : (printNat i.natAbs).head? ≠ some 45 := by
      intro h
      have := isDigit_of_mem_printNat (List.mem_of_mem_head? h)
      revert this
      decide
    rw [hp, hs]
    simp only [if_neg hhead, and_self, ↓reduceIte]
    by_cases h32 : i < 2 ^ 31
    · rw [if_pos (by omega), if_pos (by omega)]
    · by_cases h63 : i < 2 ^ 63
      · rw [if_neg (by omega), if_pos (by omega), if_neg (by omega), if_pos h63]
      · rw [if_neg (by omega), if_neg (by omega), if_neg (by omega), if_neg h63]

end SentryNative.Json
