import SentryNative.Json.Reader
import SentryNative.Lib.Scan
import SentryNative.Lib.Utf8

/-!
# Strings are unescaped in place

`decode_string_inplace` reads and writes one buffer. A read or a write outside of it is a fault.
What a string is made of is the grammar of RFC 8259: bytes that stand for themselves, short escapes, and
code points in one escape or in a pair of surrogates.

* `decodeTurn_piece`: one turn of the loop takes one piece of the string;
* `decode_string_inplace`: the whole string;
* `decodeString_iff_inplace`: the reader's own decoding, on a text, is the same.
-/

namespace SentryNative.Json

open CLib

/-! ## The loop -/

/-- The buffer, and where it is read and written next. -/
structure Decoder where
  buf : Bytes
  input : Nat
  output : Nat
  deriving DecidableEq, Repr

inductive Turn where
  | more (d : Decoder)
  | done (buf : Bytes) (len : Nat)
  | fail
  | fault
  deriving DecidableEq, Repr

/-- `read_escaped_unicode_char`, with the digits that are left; no value for `-1`, nothing at all where it reads
outside of the buffer. -/
def readEscaped (buf : Bytes) : Nat → Nat → Nat → Option (Option Nat)
  | 0, _, uchar => some (some uchar)
  | n + 1, pos, uchar =>
    match buf[pos]? with
    | none => none
    | some c =>
      match hexDigit c with
      | none => some none
      | some v => readEscaped buf n (pos + 1) ((uchar <<< 4) ||| v)

/-- The bytes are written, and the positions go on. -/
def Decoder.put (d : Decoder) (input : Nat) (bytes : Bytes) : Turn :=
  if d.output + bytes.length ≤ d.buf.length then
    .more ⟨d.buf.take d.output ++ bytes ++ d.buf.drop (d.output + bytes.length), input, d.output + bytes.length⟩
  else .fault

/-- The second escape of a pair. -/
def decodeTrail (d : Decoder) (lead : Nat) : Turn :=
  match d.buf[d.input + 6]? with
  | none => .fault
  | some c =>
    if c ≠ 92 then .fail
    else
      match d.buf[d.input + 7]? with
      | none => .fault
      | some c =>
        if c ≠ 117 then .fail
        else
          match readEscaped d.buf 4 (d.input + 8) 0 with
          | none => .fault
          | some none => .fail
          | some (some trail) =>
            if isTrailSurrogate trail then d.put (d.input + 12) (unicharToUtf8 (surrogateValue lead trail)) else .fail

/-- The escape of a code point. -/
def decodeUnicode (d : Decoder) : Turn :=
  match readEscaped d.buf 4 (d.input + 2) 0 with
  | none => .fault
  | some none => .fail
  | some (some uchar) =>
    if isLeadSurrogate uchar then decodeTrail d uchar
    else if isTrailSurrogate uchar then .fail
    else d.put (d.input + 6) (unicharToUtf8 uchar)

/-- One turn of the loop of `decode_string_inplace`, and its end. -/
def decodeTurn (d : Decoder) : Turn :=
  match d.buf[d.input]? with
  | none => .fault
  | some c =>
    if c = 0 then if d.output < d.buf.length then .done (d.buf.set d.output 0) d.output else .fault
    else if c ≠ 92 then d.put (d.input + 1) [c]
    else
      match d.buf[d.input + 1]? with
      | none => .fault
      | some e =>
        match simpleEscape e with
        | some rep => d.put (d.input + 2) [rep]
        | none => if e = 117 then decodeUnicode d else .fail

def decodeTurns : Nat → Decoder → Turn
  | 0, d => .more d
  | n + 1, d =>
    match decodeTurn d with
    | .more d => decodeTurns n d
    | t => t

/-- `decode_string_inplace` on a buffer. Every turn reads at least one byte. -/
def decodeStringInplace (buf : Bytes) : Turn := decodeTurns buf.length ⟨buf, 0, 0⟩

/-- The states that the loop goes through. -/
inductive Decodes : Decoder → Decoder → Prop
  | refl (d : Decoder) : Decodes d d
  | turn {d d' d'' : Decoder} : Decodes d d' → decodeTurn d' = .more d'' → Decodes d d''

/-! ## The grammar -/

/-- The four digits of an escape. -/
structure Hex4 where
  a : UInt8
  b : UInt8
  c : UInt8
  d : UInt8
  hex : isHexDigit a = true ∧ isHexDigit b = true ∧ isHexDigit c = true ∧ isHexDigit d = true

def Hex4.text (h : Hex4) : Bytes := [h.a, h.b, h.c, h.d]

def Hex4.value (h : Hex4) : Nat := hexValue h.text

def LeadSurrogate (n : Nat) : Prop := 0xD800 ≤ n ∧ n ≤ 0xDBFF
def TrailSurrogate (n : Nat) : Prop := 0xDC00 ≤ n ∧ n ≤ 0xDFFF

/-- The escapes with one character, and what they stand for. -/
def shortEscapes : List (UInt8 × UInt8) :=
  [(34, 34), (92, 92), (47, 47), (98, 8), (102, 12), (110, 10), (114, 13), (116, 9)]

inductive Piece where
  | plain (c : UInt8) (noEscape : c ≠ 92) (noNul : c ≠ 0)
  | short (e rep : UInt8) (escape : (e, rep) ∈ shortEscapes)
  | unicode (h : Hex4) (noLead : ¬ LeadSurrogate h.value) (noTrail : ¬ TrailSurrogate h.value)
  | pair (h t : Hex4) (lead : LeadSurrogate h.value) (trail : TrailSurrogate t.value)

namespace Piece

def text : Piece → Bytes
  | plain c _ _ => [c]
  | short e _ _ => [92, e]
  | unicode h _ _ => 92 :: 117 :: h.text
  | pair h t _ _ => 92 :: 117 :: (h.text ++ 92 :: 117 :: t.text)

/-- The UTF-8 of a code point. -/
def utf8 (n : Nat) : Bytes := String.utf8EncodeChar (Char.ofNat n)

def bytes : Piece → Bytes
  | plain c _ _ => [c]
  | short _ rep _ => [rep]
  | unicode h _ _ => utf8 h.value
  | pair h t _ _ => utf8 (0x10000 + (h.value - 0xD800) * 0x400 + (t.value - 0xDC00))

end Piece

def textOf (ps : List Piece) : Bytes := ps.flatMap Piece.text
def bytesOf (ps : List Piece) : Bytes := ps.flatMap Piece.bytes

/-! ## Digits and code points -/

theorem hexDigit_eq (c : UInt8) : hexDigit c = if isHexDigit c = true then some (hexDigitValue c) else none := by
  revert c
  exact forall_byte (by decide +kernel)

theorem hexDigitValue_lt {c : UInt8} (h : isHexDigit c = true) : hexDigitValue c < 16 := by
  have hall : ∀ c : UInt8, isHexDigit c = true → hexDigitValue c < 16 :=
    forall_byte (P := fun c => isHexDigit c = true → hexDigitValue c < 16) (by decide +kernel)
  exact hall c h

theorem Hex4.value_le (h : Hex4) : h.value ≤ 0xFFFF := by
  obtain ⟨ha, hb, hc, hd⟩ := h.hex
  have ha := hexDigitValue_lt ha
  have hb := hexDigitValue_lt hb
  have hc := hexDigitValue_lt hc
  have hd := hexDigitValue_lt hd
  simp only [value, text, hexValue, List.foldl_cons, List.foldl_nil]
  omega

theorem isLeadSurrogate_iff (n : Nat) : isLeadSurrogate n = true ↔ LeadSurrogate n := by
  simp only [isLeadSurrogate, LeadSurrogate, decide_eq_true_eq]
  omega

theorem isTrailSurrogate_iff (n : Nat) : isTrailSurrogate n = true ↔ TrailSurrogate n := by
  simp only [isTrailSurrogate, TrailSurrogate, decide_eq_true_eq]
  omega

theorem surrogateValue_eq {lead trail : Nat} (ht : TrailSurrogate trail) :
    surrogateValue lead trail = 0x10000 + (lead - 0xD800) * 0x400 + (trail - 0xDC00) := by
  have hlow : trail - 0xdc00 < 2 ^ 10 := by
    unfold TrailSurrogate at ht
    omega
  rw [surrogateValue, ← Nat.shiftLeft_add_eq_or_of_lt hlow, Nat.shiftLeft_eq]
  omega

/-- The code's encoding is the shortest form. -/
theorem unicharToUtf8_eq {n : Nat} (h : n ≤ 0x10FFFF) : unicharToUtf8 n = Utf8.encode n := by
  have htail : ∀ m, UInt8.ofNat ((m &&& 0x3f) ||| 0x80) = Utf8.continuation (m % 64) := by
    intro m
    have hall : ∀ x < 64, x ||| 0x80 = 0x80 + x := by decide
    have hmask : m &&& 0x3f = m % 64 := Nat.and_two_pow_sub_one_eq_mod m 6
    rw [hmask, Utf8.continuation, hall _ (Nat.mod_lt _ (by decide))]
  have h2 : ∀ x < 32, x ||| 0xc0 = 0xc0 + x := by decide
  have h3 : ∀ x < 16, x ||| 0xe0 = 0xe0 + x := by decide
  have h4 : ∀ x < 8, x ||| 0xf0 = 0xf0 + x := by decide
  have s6 : n >>> 6 = n / 64 := Nat.shiftRight_eq_div_pow n 6
  have s12 : n >>> 12 = n / 4096 := Nat.shiftRight_eq_div_pow n 12
  have s18 : n >>> 18 = n / 262144 := Nat.shiftRight_eq_div_pow n 18
  unfold unicharToUtf8 Utf8.encode
  simp only [htail, s6, s12, s18]
  by_cases hone : n < 0x80
  · rw [if_pos hone, if_pos hone]
  rw [if_neg hone, if_neg hone]
  by_cases htwo : n < 0x800
  · rw [if_pos htwo, if_pos htwo, h2 _ (by omega)]
  rw [if_neg htwo, if_neg htwo]
  by_cases hthree : n < 0x10000
  · rw [if_pos hthree, if_pos hthree, h3 _ (by omega)]
  · rw [if_neg hthree, if_neg hthree, if_pos h, h4 _ (by omega)]

theorem utf8_eq {n : Nat} (h : n.isValidChar) : Piece.utf8 n = unicharToUtf8 n := by
  have hle : n ≤ 0x10FFFF := by
    obtain hlow | hhigh := h <;> omega
  rw [Piece.utf8, ← Utf8.encode_char h, unicharToUtf8_eq hle]

theorem unicharToUtf8_length (n : Nat) : (unicharToUtf8 n).length ≤ if n < 0x10000 then 3 else 4 := by
  unfold unicharToUtf8
  simp only
  split_ifs <;> simp at *

/-! ## Reading ahead -/

theorem getElem?_drop {buf s : Bytes} {pos : Nat} (h : buf.drop pos = s) (k : Nat) : buf[pos + k]? = s[k]? := by
  rw [← h, List.getElem?_drop]

theorem shift_digit {u v : Nat} (h : v < 16) : (u <<< 4) ||| v = 16 * u + v := by
  rw [← Nat.shiftLeft_add_eq_or_of_lt (show v < 2 ^ 4 from h), Nat.shiftLeft_eq]
  omega

/-- Digits are read, or something that is none is met before the end. -/
theorem readEscaped_cases {buf : Bytes} (n pos u : Nat) {s : Bytes} (h : buf.drop pos = s ++ [0]) :
    readEscaped buf n pos u = some none ∨
      ∃ ds rest, s = ds ++ rest ∧ ds.length = n ∧ (∀ d ∈ ds, isHexDigit d = true) := by
  induction n generalizing pos u s with
  | zero => exact .inr ⟨[], s, rfl, rfl, by simp⟩
  | succ n ih =>
    have hhead := getElem?_drop h 0
    rw [Nat.add_zero] at hhead
    cases s with
    | nil =>
      left
      rw [readEscaped, hhead]
      rfl
    | cons c s =>
      have hnext : buf.drop (pos + 1) = s ++ [0] := by
        rw [← List.drop_drop, h]
        rfl
      rw [readEscaped, hhead]
      simp only [List.cons_append, List.getElem?_cons_zero, hexDigit_eq]
      by_cases hc : isHexDigit c = true
      · rw [if_pos hc]
        obtain hfail | ⟨ds, rest, rfl, hlen, hds⟩ := ih (pos + 1) ((u <<< 4) ||| hexDigitValue c) hnext
        · exact .inl hfail
        · refine .inr ⟨c :: ds, rest, rfl, by rw [List.length_cons, hlen], fun d hd => ?_⟩
          obtain rfl | hd := List.mem_cons.mp hd
          · exact hc
          · exact hds d hd
      · rw [if_neg hc]
        exact .inl rfl

theorem readEscaped_digits {buf : Bytes} (ds : Bytes) {pos : Nat} (u : Nat) {rest : Bytes} (h : buf.drop pos = ds ++ rest)
    (hds : ∀ d ∈ ds, isHexDigit d = true) :
    readEscaped buf ds.length pos u = some (some (ds.foldl (fun n c => 16 * n + hexDigitValue c) u)) := by
  induction ds generalizing pos u with
  | nil => rfl
  | cons d ds ih =>
    have hhead := getElem?_drop h 0
    have hnext : buf.drop (pos + 1) = ds ++ rest := by
      rw [← List.drop_drop, h]
      rfl
    have hd := hds d List.mem_cons_self
    rw [Nat.add_zero] at hhead
    rw [List.length_cons, readEscaped, hhead]
    simp only [List.cons_append, List.getElem?_cons_zero, hexDigit_eq, hd, ↓reduceIte, shift_digit (hexDigitValue_lt hd)]
    exact ih _ hnext fun e he => hds e (List.mem_cons_of_mem _ he)

theorem readEscaped_text {buf : Bytes} (h : Hex4) {pos : Nat} {rest : Bytes} (hbuf : buf.drop pos = h.text ++ rest) :
    readEscaped buf 4 pos 0 = some (some h.value) := by
  obtain ⟨ha, hb, hc, hd⟩ := h.hex
  refine readEscaped_digits h.text 0 hbuf fun d hmem => ?_
  simp only [Hex4.text, List.mem_cons, List.not_mem_nil, or_false] at hmem
  obtain rfl | rfl | rfl | rfl := hmem <;> assumption

/-- Four digits, or none of the escape is taken. -/
theorem readEscaped_hex4 {buf : Bytes} {pos : Nat} {s : Bytes} (h : buf.drop pos = s ++ [0]) :
    readEscaped buf 4 pos 0 = some none ∨
      ∃ (x : Hex4) (rest : Bytes), s = x.text ++ rest ∧ readEscaped buf 4 pos 0 = some (some x.value) := by
  obtain hfail | ⟨ds, rest, rfl, hlen, hds⟩ := readEscaped_cases 4 pos 0 h
  · exact .inl hfail
  · match ds, hlen with
    | [a, b, c, d], _ =>
      let x : Hex4 := ⟨a, b, c, d, hds a (by simp), hds b (by simp), hds c (by simp), hds d (by simp)⟩
      rw [List.append_assoc] at h
      exact .inr ⟨x, rest, rfl, readEscaped_text x h⟩

/-! ## One turn -/

/-- What was written, what may be overwritten, and what is not read yet. -/
def decoderAt (out mid rest : Bytes) : Decoder := ⟨out ++ (mid ++ (rest ++ [0])), out.length + mid.length, out.length⟩

theorem drop_decoderAt (out mid rest : Bytes) :
    (decoderAt out mid rest).buf.drop (decoderAt out mid rest).input = rest ++ [0] := by
  simp only [decoderAt]
  rw [← List.append_assoc, ← List.length_append, List.drop_left]

theorem put_decoderAt (out mid eaten rest bytes : Bytes) (h : bytes.length ≤ eaten.length) :
    (decoderAt out mid (eaten ++ rest)).put ((decoderAt out mid (eaten ++ rest)).input + eaten.length) bytes =
      .more (decoderAt (out ++ bytes) ((mid ++ eaten).drop bytes.length) rest) := by
  have hroom : out.length + bytes.length ≤ (out ++ (mid ++ (eaten ++ rest ++ [0]))).length := by
    simp only [List.length_append]
    omega
  have hdrop : (out ++ (mid ++ (eaten ++ rest ++ [0]))).drop (out.length + bytes.length) =
      (mid ++ eaten).drop bytes.length ++ (rest ++ [0]) := by
    rw [← List.drop_drop, List.drop_left, show mid ++ (eaten ++ rest ++ [0]) = (mid ++ eaten) ++ (rest ++ [0]) by simp,
      List.drop_append_of_le_length (by rw [List.length_append]; omega)]
  have hinput : out.length + mid.length + eaten.length =
      (out ++ bytes).length + ((mid ++ eaten).drop bytes.length).length := by
    simp only [List.length_append, List.length_drop]
    omega
  unfold Decoder.put decoderAt
  simp only
  rw [if_pos hroom, hdrop, List.take_left, hinput, List.length_append, List.append_assoc]

theorem simpleEscape_short {e rep : UInt8} (h : (e, rep) ∈ shortEscapes) : simpleEscape e = some rep := by
  simp only [shortEscapes, List.mem_cons, Prod.mk.injEq, List.not_mem_nil, or_false] at h
  obtain ⟨rfl, rfl⟩ | ⟨rfl, rfl⟩ | ⟨rfl, rfl⟩ | ⟨rfl, rfl⟩ | ⟨rfl, rfl⟩ | ⟨rfl, rfl⟩ | ⟨rfl, rfl⟩ | ⟨rfl, rfl⟩ := h <;> rfl

theorem short_of_simpleEscape {e rep : UInt8} (h : simpleEscape e = some rep) : (e, rep) ∈ shortEscapes := by
  unfold simpleEscape at h
  split_ifs at h with h1 h2 h3 h4 h5 h6 h7 h8 <;>
    simp only [Option.some.injEq] at h <;> subst h <;> simp [shortEscapes, *]

theorem Hex4.valid {h : Hex4} (hlead : ¬ LeadSurrogate h.value) (htrail : ¬ TrailSurrogate h.value) :
    h.value.isValidChar := by
  have hle := h.value_le
  unfold LeadSurrogate at hlead
  unfold TrailSurrogate at htrail
  unfold Nat.isValidChar
  omega

theorem pair_valid {h t : Hex4} (hlead : LeadSurrogate h.value) (htrail : TrailSurrogate t.value) :
    (0x10000 + (h.value - 0xD800) * 0x400 + (t.value - 0xDC00)).isValidChar := by
  unfold LeadSurrogate at hlead
  unfold TrailSurrogate at htrail
  unfold Nat.isValidChar
  omega

/-- A piece is not shorter than what it stands for. -/
theorem Piece.bytes_le (p : Piece) : p.bytes.length ≤ p.text.length := by
  cases p with
  | plain c _ _ => exact Nat.le_refl _
  | short e rep _ => exact Nat.le_succ 1
  | unicode h hlead htrail =>
    have hlen := unicharToUtf8_length h.value
    have hle := h.value_le
    rw [if_pos (by omega)] at hlen
    simp only [bytes, utf8_eq (h.valid hlead htrail), text, List.length_cons, Hex4.text]
    omega
  | pair h t hlead htrail =>
    have hlen := unicharToUtf8_length (0x10000 + (h.value - 0xD800) * 0x400 + (t.value - 0xDC00))
    rw [if_neg (by omega)] at hlen
    simp only [bytes, utf8_eq (pair_valid hlead htrail), text, List.length_cons, List.length_append, Hex4.text]
    omega

section

variable (out mid : Bytes)

/-- One turn takes one piece. -/
theorem decodeTurn_piece (p : Piece) (rest : Bytes) :
    decodeTurn (decoderAt out mid (p.text ++ rest)) =
      .more (decoderAt (out ++ p.bytes) ((mid ++ p.text).drop p.bytes.length) rest) := by
  rw [← put_decoderAt out mid p.text rest p.bytes p.bytes_le]
  have hdrop := drop_decoderAt out mid (p.text ++ rest)
  generalize decoderAt out mid (p.text ++ rest) = d at *
  have h0 := getElem?_drop hdrop 0
  rw [Nat.add_zero] at h0
  unfold decodeTurn
  rw [h0]
  cases p with
  | plain c hc hnul =>
    simp only [Piece.text, List.cons_append, List.getElem?_cons_zero, hnul, ↓reduceIte, hc, ne_eq, not_false_eq_true]
    rfl
  | short e rep hrep =>
    have h1 := getElem?_drop hdrop 1
    simp only [Piece.text, List.cons_append, List.getElem?_cons_zero, List.getElem?_cons_succ, ne_eq,
      not_true_eq_false, ↓reduceIte] at h1 ⊢
    rw [if_neg (by decide), h1]
    simp only [simpleEscape_short hrep]
    rfl
  | unicode h hlead htrail =>
    have h1 := getElem?_drop hdrop 1
    have hread : readEscaped d.buf 4 (d.input + 2) 0 = some (some h.value) := by
      have hbuf : d.buf.drop (d.input + 2) = h.text ++ (rest ++ [0]) := by
        rw [← List.drop_drop, hdrop, ← List.append_assoc]
        rfl
      exact readEscaped_text h hbuf
    have hl : isLeadSurrogate h.value = false := by
      rw [← Bool.not_eq_true, isLeadSurrogate_iff]
      exact hlead
    have ht : isTrailSurrogate h.value = false := by
      rw [← Bool.not_eq_true, isTrailSurrogate_iff]
      exact htrail
    simp only [Piece.text, List.cons_append, List.getElem?_cons_zero, List.getElem?_cons_succ, ne_eq,
      not_true_eq_false, ↓reduceIte] at h1 ⊢
    rw [if_neg (by decide), h1]
    simp only [show simpleEscape 117 = none from rfl, ↓reduceIte, decodeUnicode, hread, hl, ht, Bool.false_eq_true,
      Piece.bytes, utf8_eq (h.valid hlead htrail)]
    rfl
  | pair h t hlead htrail =>
    have h1 := getElem?_drop hdrop 1
    have h6 := getElem?_drop hdrop 6
    have h7 := getElem?_drop hdrop 7
    have hread : readEscaped d.buf 4 (d.input + 2) 0 = some (some h.value) := by
      have hbuf : d.buf.drop (d.input + 2) = h.text ++ 92 :: 117 :: (t.text ++ (rest ++ [0])) := by
        rw [← List.drop_drop, hdrop]
        simp [Piece.text]
      exact readEscaped_text h hbuf
    have hread' : readEscaped d.buf 4 (d.input + 8) 0 = some (some t.value) := by
      have hbuf : d.buf.drop (d.input + 8) = t.text ++ (rest ++ [0]) := by
        rw [← List.drop_drop, hdrop]
        simp [Piece.text, Hex4.text]
      exact readEscaped_text t hbuf
    have hl := (isLeadSurrogate_iff _).2 hlead
    have ht := (isTrailSurrogate_iff _).2 htrail
    simp only [Piece.text, Hex4.text, List.cons_append, List.nil_append, List.getElem?_cons_zero, List.getElem?_cons_succ,
      ne_eq, not_true_eq_false, ↓reduceIte] at h1 h6 h7 ⊢
    rw [if_neg (by decide), h1]
    simp only [show simpleEscape 117 = none from rfl, ↓reduceIte, decodeUnicode, hread, hl, decodeTrail, h6, h7, ne_eq,
      not_true_eq_false, hread', ht, Piece.bytes, utf8_eq (pair_valid hlead htrail), surrogateValue_eq htrail]
    rfl

theorem decodeTurn_nil : decodeTurn (decoderAt out mid []) = .done (out ++ 0 :: (mid ++ [0]).tail) out.length := by
  have h0 := getElem?_drop (drop_decoderAt out mid []) 0
  rw [Nat.add_zero] at h0
  unfold decodeTurn
  rw [h0]
  have hroom : (decoderAt out mid []).output < (decoderAt out mid []).buf.length := by simp [decoderAt]
  simp only [List.nil_append, List.getElem?_cons_zero, ↓reduceIte]
  rw [if_pos hroom]
  cases mid with
  | nil => simp [decoderAt]
  | cons c mid => simp [decoderAt]

/-- A turn goes on with a piece, or the string is refused. -/
theorem decodeTurn_cases {rest : Bytes} (hne : rest ≠ []) (hnul : 0 ∉ rest) :
    decodeTurn (decoderAt out mid rest) = .fail ∨ ∃ (p : Piece) (rest' : Bytes), rest = p.text ++ rest' := by
  have hdrop := drop_decoderAt out mid rest
  generalize decoderAt out mid rest = d at *
  obtain ⟨c, s, rfl⟩ := List.exists_cons_of_ne_nil hne
  have hc : c ≠ 0 := fun h => hnul (h ▸ List.mem_cons_self)
  by_cases hplain : c = 92
  swap
  · exact .inr ⟨.plain c hplain hc, s, rfl⟩
  subst hplain
  have h0 := getElem?_drop hdrop 0
  have h1 := getElem?_drop hdrop 1
  rw [Nat.add_zero] at h0
  simp only [List.cons_append, List.getElem?_cons_zero, List.getElem?_cons_succ] at h0 h1
  unfold decodeTurn
  simp only [h0, hc, ↓reduceIte, ne_eq, not_true_eq_false, h1]
  cases s with
  | nil => exact .inl rfl
  | cons e s =>
    simp only [List.cons_append, List.getElem?_cons_zero]
    cases hshort : simpleEscape e with
    | some rep => exact .inr ⟨.short e rep (short_of_simpleEscape hshort), s, rfl⟩
    | none =>
      simp only
      by_cases hu : e = 117
      swap
      · exact .inl (if_neg hu)
      subst hu
      rw [if_pos rfl]
      have hdrop2 : d.buf.drop (d.input + 2) = s ++ [0] := by
        rw [← List.drop_drop, hdrop]
        rfl
      unfold decodeUnicode
      obtain hbad | ⟨x, t, rfl, hread⟩ := readEscaped_hex4 hdrop2
      · rw [hbad]
        exact .inl rfl
      rw [hread]
      simp only
      by_cases hlead : LeadSurrogate x.value
      swap
      · by_cases htrail : TrailSurrogate x.value
        · left
          rw [if_neg (by rw [isLeadSurrogate_iff]; exact hlead), if_pos ((isTrailSurrogate_iff _).2 htrail)]
        · exact .inr ⟨.unicode x hlead htrail, t, rfl⟩
      rw [if_pos ((isLeadSurrogate_iff _).2 hlead)]
      have hdrop6 : d.buf.drop (d.input + 6) = t ++ [0] := by
        rw [show d.input + 6 = d.input + 2 + 4 from rfl, ← List.drop_drop, hdrop2]
        rfl
      have h6 := getElem?_drop hdrop6 0
      have h7 := getElem?_drop hdrop6 1
      rw [Nat.add_zero] at h6
      unfold decodeTrail
      rw [h6]
      cases t with
      | nil => exact .inl rfl
      | cons f t =>
        simp only [List.cons_append, List.getElem?_cons_zero, List.getElem?_cons_succ] at h7 ⊢
        by_cases hf : f = 92
        swap
        · exact .inl (if_pos hf)
        subst hf
        rw [if_neg (by simp), h7]
        cases t with
        | nil => exact .inl rfl
        | cons g t =>
          simp only [List.cons_append, List.getElem?_cons_zero]
          by_cases hg : g = 117
          swap
          · exact .inl (if_pos hg)
          subst hg
          rw [if_neg (by simp)]
          have hdrop8 : d.buf.drop (d.input + 8) = t ++ [0] := by
            rw [show d.input + 8 = d.input + 6 + 2 from rfl, ← List.drop_drop, hdrop6]
            rfl
          obtain hbad | ⟨y, u, rfl, hread'⟩ := readEscaped_hex4 hdrop8
          · rw [hbad]
            exact .inl rfl
          rw [hread']
          simp only
          by_cases htrail : TrailSurrogate y.value
          · exact .inr ⟨.pair x y hlead htrail, u, rfl⟩
          · left
            rw [if_neg (by rw [isTrailSurrogate_iff]; exact htrail)]

end

/-! ## The whole string -/

theorem Piece.text_pos (p : Piece) : 0 < p.text.length := by
  cases p <;> exact Nat.succ_pos _

/-- The pieces of a string are decoded one after the other. -/
theorem decodeTurns_pieces (ps : List Piece) (out mid : Bytes) {n : Nat} (hn : (textOf ps).length < n) :
    ∃ tail, decodeTurns n (decoderAt out mid (textOf ps)) =
      .done (out ++ bytesOf ps ++ 0 :: tail) (out ++ bytesOf ps).length := by
  induction ps generalizing out mid n with
  | nil =>
    obtain ⟨n, rfl⟩ : ∃ k, n = k + 1 := ⟨n - 1, by simp only [textOf, List.flatMap_nil, List.length_nil] at hn; omega⟩
    refine ⟨(mid ++ [0]).tail, ?_⟩
    rw [decodeTurns, textOf, List.flatMap_nil, decodeTurn_nil]
    simp [bytesOf]
  | cons p ps ih =>
    have hpos := p.text_pos
    rw [textOf, List.flatMap_cons, List.length_append] at hn
    obtain ⟨n, rfl⟩ : ∃ k, n = k + 1 := ⟨n - 1, by omega⟩
    obtain ⟨tail, hrun⟩ := ih (out ++ p.bytes) ((mid ++ p.text).drop p.bytes.length) (n := n) (by rw [textOf]; omega)
    refine ⟨tail, ?_⟩
    rw [decodeTurns, textOf, List.flatMap_cons, decodeTurn_piece]
    simp only
    rw [show List.flatMap Piece.text ps = textOf ps from rfl, hrun]
    simp only [bytesOf, List.flatMap_cons, List.append_assoc]

/-- A string without pieces is refused. -/
theorem decodeTurns_fail (n : Nat) (out mid : Bytes) {rest : Bytes} (hnul : 0 ∉ rest) (hn : rest.length < n)
    (hno : ¬ ∃ ps, rest = textOf ps) : decodeTurns n (decoderAt out mid rest) = .fail := by
  induction n generalizing out mid rest with
  | zero => omega
  | succ n ih =>
    have hne : rest ≠ [] := by
      rintro rfl
      exact hno ⟨[], rfl⟩
    rw [decodeTurns]
    obtain hfail | ⟨p, rest', rfl⟩ := decodeTurn_cases out mid hne hnul
    · rw [hfail]
    · have hpos := p.text_pos
      rw [List.length_append] at hn
      rw [decodeTurn_piece]
      refine ih _ _ (fun h => hnul (List.mem_append_right _ h)) (by omega) ?_
      rintro ⟨ps, rfl⟩
      exact hno ⟨p :: ps, by rw [textOf, textOf, List.flatMap_cons]⟩

/-- Nothing that is not read yet has been written to. -/
theorem Decodes.unread {s : Bytes} (hnul : 0 ∉ s) {d : Decoder} (h : Decodes ⟨s ++ [0], 0, 0⟩ d) :
    ∃ out mid eaten rest, s = eaten ++ rest ∧ d = decoderAt out mid rest ∧ d.input = eaten.length := by
  induction h with
  | refl => exact ⟨[], [], [], s, rfl, rfl, rfl⟩
  | turn _ hturn ih =>
    obtain ⟨out, mid, eaten, rest, rfl, rfl, hinput⟩ := ih
    by_cases hne : rest = []
    · subst hne
      rw [decodeTurn_nil] at hturn
      cases hturn
    · obtain hfail | ⟨p, rest', rfl⟩ := decodeTurn_cases out mid hne fun h => hnul (List.mem_append_right _ h)
      · rw [hfail] at hturn
        cases hturn
      · rw [decodeTurn_piece] at hturn
        obtain rfl := Turn.more.inj hturn
        refine ⟨_, _, eaten ++ p.text, rest', by rw [List.append_assoc], rfl, ?_⟩
        have hle := p.bytes_le
        simp only [decoderAt, List.length_append, List.length_drop] at hinput ⊢
        omega

theorem decodeStringInplace_eq (s : Bytes) :
    decodeStringInplace (s ++ [0]) = decodeTurns (s.length + 1) (decoderAt [] [] s) := by
  simp [decodeStringInplace, decoderAt]

/-! ## The reader's decoding -/

theorem readEscapedUnicodeChar_eq (h : Hex4) : readEscapedUnicodeChar h.a h.b h.c h.d = some h.value := by
  obtain ⟨ha, hb, hc, hd⟩ := h.hex
  simp only [readEscapedUnicodeChar, hexDigit_eq, ha, hb, hc, hd, ↓reduceIte, Hex4.value, Hex4.text, hexValue,
    List.foldl_cons, List.foldl_nil, Option.some.injEq]
  omega

theorem hex4_of_read {a b c d : UInt8} {u : Nat} (h : readEscapedUnicodeChar a b c d = some u) :
    ∃ x : Hex4, x.text = [a, b, c, d] ∧ x.value = u := by
  have hdigit : ∀ e v, hexDigit e = some v → isHexDigit e = true := by
    intro e v he
    rw [hexDigit_eq] at he
    by_contra hno
    rw [if_neg hno] at he
    cases he
  unfold readEscapedUnicodeChar at h
  cases ha : hexDigit a with
  | none => simp [ha] at h
  | some va =>
    cases hb : hexDigit b with
    | none => simp [ha, hb] at h
    | some vb =>
      cases hc : hexDigit c with
      | none => simp [ha, hb, hc] at h
      | some vc =>
        cases hd : hexDigit d with
        | none => simp [ha, hb, hc, hd] at h
        | some vd =>
          let x : Hex4 := ⟨a, b, c, d, hdigit a va ha, hdigit b vb hb, hdigit c vc hc, hdigit d vd hd⟩
          have hx := readEscapedUnicodeChar_eq x
          simp only [readEscapedUnicodeChar, x, ha, hb, hc, hd, Option.some.injEq] at h hx
          exact ⟨x, rfl, hx.symm.trans h⟩

theorem decodeString_piece (p : Piece) (rest : Bytes) :
    decodeString (p.text ++ rest) = (decodeString rest).map (p.bytes ++ ·) := by
  cases p with
  | plain c hc hnul => exact decodeString_plain hc hnul rest
  | short e rep hrep =>
    refine decodeString_simple (simpleEscape_short hrep) ?_ rest
    rintro rfl
    simp [shortEscapes] at hrep
  | unicode h hlead htrail =>
    have hl : isLeadSurrogate h.value = false := by
      rw [← Bool.not_eq_true, isLeadSurrogate_iff]
      exact hlead
    have ht : isTrailSurrogate h.value = false := by
      rw [← Bool.not_eq_true, isTrailSurrogate_iff]
      exact htrail
    simp only [Piece.text, Hex4.text, List.cons_append, List.nil_append, Piece.bytes, utf8_eq (h.valid hlead htrail)]
    rw [decodeString]
    simp [readEscapedUnicodeChar_eq, hl, ht]
  | pair h t hlead htrail =>
    have hl := (isLeadSurrogate_iff _).2 hlead
    have ht := (isTrailSurrogate_iff _).2 htrail
    simp only [Piece.text, Hex4.text, List.cons_append, List.nil_append, Piece.bytes, utf8_eq (pair_valid hlead htrail)]
    rw [decodeString, ← surrogateValue_eq htrail]
    simp [readEscapedUnicodeChar_eq, hl, ht]

theorem decodeString_pieces (ps : List Piece) : decodeString (textOf ps) = some (bytesOf ps) := by
  induction ps with
  | nil => simp [textOf, bytesOf, decodeString]
  | cons p ps ih =>
    rw [textOf, List.flatMap_cons, decodeString_piece, show List.flatMap Piece.text ps = textOf ps from rfl, ih]
    rfl

/-- What the reader decodes is made of pieces. -/
theorem pieces_of_decodeString (s : Bytes) (hnul : 0 ∉ s) {out : Bytes} (h : decodeString s = some out) :
    ∃ ps, s = textOf ps := by
  have hcons : ∀ (p : Piece) (rest : Bytes), (∃ ps, rest = textOf ps) → ∃ ps, p.text ++ rest = textOf ps := by
    rintro p rest ⟨ps, rfl⟩
    exact ⟨p :: ps, by rw [textOf, textOf, List.flatMap_cons]⟩
  have hrest : ∀ (p : Piece) (rest o : Bytes), decodeString (p.text ++ rest) = some o →
      ∃ out', decodeString rest = some out' := by
    intro p rest o hmap
    rw [decodeString_piece] at hmap
    cases hrest : decodeString rest with
    | none => simp [hrest] at hmap
    | some out' => exact ⟨out', rfl⟩
  induction s using decodeString.induct generalizing out with
  | case1 => exact ⟨[], rfl⟩
  | case4 a b c d u hu hlead a' b' c' d' r t ht htrail ih =>
    obtain ⟨x, hx, rfl⟩ := hex4_of_read hu
    obtain ⟨y, hy, rfl⟩ := hex4_of_read ht
    let p := Piece.pair x y ((isLeadSurrogate_iff _).1 hlead) ((isTrailSurrogate_iff _).1 htrail)
    have htext : 92 :: 117 :: a :: b :: c :: d :: 92 :: 117 :: a' :: b' :: c' :: d' :: r = p.text ++ r := by
      simp [p, Piece.text, hx, hy]
    rw [htext] at h ⊢
    obtain ⟨out', hout⟩ := hrest p r out h
    exact hcons p r (ih (fun hz => hnul (by simp [hz])) hout)
  | case8 a b c d r u hu hlead htrail ih =>
    obtain ⟨x, hx, rfl⟩ := hex4_of_read hu
    let p := Piece.unicode x (fun hl => hlead ((isLeadSurrogate_iff _).2 hl)) fun ht => htrail ((isTrailSurrogate_iff _).2 ht)
    have htext : 92 :: 117 :: a :: b :: c :: d :: r = p.text ++ r := by
      simp [p, Piece.text, hx]
    rw [htext] at h ⊢
    obtain ⟨out', hout⟩ := hrest p r out h
    exact hcons p r (ih (fun hz => hnul (by simp [hz])) hout)
  | case10 c r _ _ e he ih =>
    let p := Piece.short c e (short_of_simpleEscape he)
    obtain ⟨out', hout⟩ := hrest p r out h
    exact hcons p r (ih (fun hz => hnul (by simp [hz])) hout)
  | case14 c r _ _ hescape hlone hc ih =>
    have h92 : c ≠ 92 := by
      intro h92
      cases r with
      | nil => exact hlone h92 rfl
      | cons e r => exact hescape e r h92 rfl
    let p := Piece.plain c h92 hc
    obtain ⟨out', hout⟩ := hrest p r out h
    exact hcons p r (ih (fun hz => hnul (by simp [hz])) hout)
  | case13 r => exact absurd List.mem_cons_self hnul
  | case2 a b c d r hu => simp [decodeString, hu] at h
  | case3 a b c d u hu hlead a' b' c' d' r ht => simp [decodeString, hu, hlead, ht] at h
  | case5 a b c d u hu hlead a' b' c' d' r t ht htrail => simp [decodeString, hu, hlead, ht, htrail] at h
  | case6 a b c d r u hu hlead hno =>
    rw [decodeString] at h
    simp [hu, hlead] at h
  | case7 a b c d r u hu hlead htrail => simp [decodeString, hu, hlead, htrail] at h
  | case9 tail hno =>
    rw [decodeString] at h
    · cases h
    · exact hno
  | case11 c r h1 h2 he =>
    rw [decodeString] at h
    · simp [he] at h
    · exact h1
    · exact h2
  | case12 => simp [decodeString] at h

/-- The reader's decoding is the one in place. -/
theorem decodeString_iff_inplace {s out : Bytes} (hnul : 0 ∉ s) :
    decodeString s = some out ↔ ∃ tail, decodeStringInplace (s ++ [0]) = .done (out ++ 0 :: tail) out.length := by
  have hforward : ∀ o, decodeString s = some o →
      ∃ tail, decodeStringInplace (s ++ [0]) = .done (o ++ 0 :: tail) o.length := by
    intro o ho
    obtain ⟨ps, rfl⟩ := pieces_of_decodeString s hnul ho
    rw [decodeString_pieces, Option.some.injEq] at ho
    rw [← ho, decodeStringInplace_eq]
    exact decodeTurns_pieces ps [] [] (Nat.lt_succ_self _)
  refine ⟨hforward out, ?_⟩
  rintro ⟨tail, hdone⟩
  have hpieces : ∃ ps, s = textOf ps := by
    by_contra hno
    rw [decodeStringInplace_eq, decodeTurns_fail _ [] [] hnul (Nat.lt_succ_self _) hno] at hdone
    cases hdone
  obtain ⟨ps, rfl⟩ := hpieces
  obtain ⟨tail', hdone'⟩ := hforward _ (decodeString_pieces ps)
  rw [hdone] at hdone'
  obtain ⟨hbuf, hlen⟩ := Turn.done.inj hdone'
  rw [decodeString_pieces, (List.append_inj hbuf hlen).1]

theorem decodeString_iff_inplace_escape : decodeString [92, 110] = some [10] ↔
    ∃ tail, decodeStringInplace ([92, 110] ++ [0]) = .done ([10] ++ 0 :: tail) 1 :=
  decodeString_iff_inplace (by decide)

/-- The decoding never reads behind the terminator and never faults. It succeeds just on the strings that are made of
pieces, and leaves in the buffer what the pieces stand for, with a terminator; up to then the unread part of the
buffer is as it was. Code points are encoded in the shortest way. -/
theorem decode_string_inplace (s : Bytes) (hnul : 0 ∉ s) :
    ((∃ buf len, decodeStringInplace (s ++ [0]) = .done buf len) ↔ ∃ ps, s = textOf ps) ∧
      (∀ ps, s = textOf ps → ∃ tail,
        decodeStringInplace (s ++ [0]) = .done (bytesOf ps ++ 0 :: tail) (bytesOf ps).length) ∧
      ((¬ ∃ ps, s = textOf ps) → decodeStringInplace (s ++ [0]) = .fail) ∧
      (∀ d, Decodes ⟨s ++ [0], 0, 0⟩ d → d.output ≤ d.input ∧ d.buf.drop d.input = (s ++ [0]).drop d.input) ∧
      ∀ n : Nat, n.isValidChar →
        unicharToUtf8 n = String.utf8EncodeChar (Char.ofNat n) ∧ Utf8.Form n (unicharToUtf8 n) ∧
          ∀ bs, Utf8.Form n bs → bs = unicharToUtf8 n ∨ (unicharToUtf8 n).length < bs.length := by
  have hpieces : ∀ ps, s = textOf ps → ∃ tail,
      decodeStringInplace (s ++ [0]) = .done (bytesOf ps ++ 0 :: tail) (bytesOf ps).length := by
    rintro ps rfl
    rw [decodeStringInplace_eq]
    exact decodeTurns_pieces ps [] [] (Nat.lt_succ_self _)
  have hrefused : (¬ ∃ ps, s = textOf ps) → decodeStringInplace (s ++ [0]) = .fail := by
    intro hno
    rw [decodeStringInplace_eq]
    exact decodeTurns_fail _ [] [] hnul (Nat.lt_succ_self _) hno
  refine ⟨⟨?_, ?_⟩, hpieces, hrefused, ?_, ?_⟩
  · rintro ⟨buf, len, hdone⟩
    by_contra hno
    rw [hrefused hno] at hdone
    cases hdone
  · rintro ⟨ps, hps⟩
    obtain ⟨tail, hdone⟩ := hpieces ps hps
    exact ⟨_, _, hdone⟩
  · intro d hd
    obtain ⟨out, mid, eaten, rest, rfl, rfl, hinput⟩ := hd.unread hnul
    refine ⟨Nat.le_add_right _ _, ?_⟩
    rw [drop_decoderAt, hinput, List.append_assoc, List.drop_left]
  · intro n hn
    have hle : n ≤ 0x10FFFF := by
      obtain hlow | hhigh := hn <;> omega
    rw [unicharToUtf8_eq hle]
    exact ⟨Utf8.encode_char hn, Utf8.form_encode hle, fun bs hbs => Utf8.encode_shortest hbs⟩

/-- `\u0000a` -/
def nulPieces : List Piece :=
  [.unicode ⟨48, 48, 48, 48, by decide⟩ (fun h => absurd h.1 (by decide)) (fun h => absurd h.1 (by decide)),
    .plain 97 (by decide) (by decide)]

theorem bytesOf_nulPieces : bytesOf nulPieces = [0, 97] := rfl

/-- The escape of the NUL is decoded to a NUL. -/
theorem decode_string_inplace_nul :
    ∃ tail, decodeStringInplace ([92, 117, 48, 48, 48, 48, 97] ++ [0]) = .done ([0, 97] ++ 0 :: tail) 2 := by
  have hdone := (decode_string_inplace [92, 117, 48, 48, 48, 48, 97] (by decide)).2.1 nulPieces rfl
  rw [bytesOf_nulPieces] at hdone
  exact hdone

end SentryNative.Json
