import SentryNative.Lib.Scan
import SentryNative.Retry.CacheFile
import SentryNative.Utils.Url

/-!
# Text forms of event ids

`sentry_uuid_from_string_n` reads two digits to a byte and skips dashes and NULs wherever they stand.
A text that `sentry__uuid_is_valid` accepts has its dashes at the four places where they are printed.

* `uuidLoop_hexBytes`: the digits of some bytes are read as those bytes;
* `uuid_text`: both printed forms are read back, and what is valid is printed again.
-/

namespace SentryNative.Utils

open CLib Retry

/-! ## Reading -/

/-- The value of a digit in `sentry_uuid_from_string_n`. -/
def nibbleValue (c : UInt8) : Option UInt8 :=
  if 97 ≤ c ∧ c ≤ 102 then some (10 + (c - 97))
  else if 65 ≤ c ∧ c ≤ 70 then some (10 + (c - 65))
  else if 48 ≤ c ∧ c ≤ 57 then some (c - 48)
  else none

/-- `sentry_uuid_nil` -/
def uuidNil : Uuid := fun _ => 0

structure UuidReader where
  rv : Uuid
  pos : Nat
  isNibble : Bool
  nibble : UInt8

def uuidLoop : Bytes → UuidReader → Uuid
  | [], r => r.rv
  | c :: s, r =>
    if r.pos < 16 then
      if c = 0 ∨ c = 45 then uuidLoop s r
      else
        match nibbleValue c with
        | none => uuidNil
        | some val =>
          if r.isNibble then uuidLoop s { r with nibble := val, isNibble := false }
          else
            uuidLoop s
              { r with
                rv := Function.update r.rv (Fin.ofNat 16 r.pos) ((r.nibble <<< 4) ||| val)
                pos := r.pos + 1
                isNibble := true }
    else r.rv

/-- `sentry_uuid_from_string_n` -/
def uuidFromStringN (str : Bytes) : Uuid := uuidLoop str ⟨uuidNil, 0, true, 0⟩

/-- `sentry_uuid_from_string`; the nil uuid for a null pointer. -/
def uuidFromString (str : Option Bytes) : Uuid :=
  match str with
  | some str => uuidFromStringN (cstr str)
  | none => uuidNil

/-- `sentry__internal_uuid_as_string` -/
def internalUuidAsString (u : Uuid) : Bytes :=
  hexByte (u 0) ++ hexByte (u 1) ++ hexByte (u 2) ++ hexByte (u 3) ++ hexByte (u 4) ++ hexByte (u 5) ++ hexByte (u 6) ++
    hexByte (u 7) ++ hexByte (u 8) ++ hexByte (u 9) ++ hexByte (u 10) ++ hexByte (u 11) ++ hexByte (u 12) ++
    hexByte (u 13) ++ hexByte (u 14) ++ hexByte (u 15)

/-- `sentry__uuid_is_valid`; `isxdigit` of the C locale. -/
def uuidIsValid (id : Bytes) : Bool :=
  (id.length = 32 ∨ id.length = 36) ∧
    ∀ i < id.length,
      if id.length = 36 ∧ (i = 8 ∨ i = 13 ∨ i = 18 ∨ i = 23) then id.getD i 0 = 45
      else isHexDigit (id.getD i 0)

/-! ## Digits -/

/-- What `sentry_uuid_from_string_n` skips. -/
def skipped (c : UInt8) : Bool := c = 0 || c = 45

theorem not_skipped_hexDigit {c : UInt8} (h : isHexDigit c = true) : skipped c = false := by
  simp only [skipped, Bool.or_eq_false_iff, decide_eq_false_iff_not]
  constructor <;> rintro rfl <;> cases h

/-- Dashes and NULs can stand anywhere. -/
theorem uuidLoop_filter (s : Bytes) (r : UuidReader) : uuidLoop s r = uuidLoop (s.filter (!skipped ·)) r := by
  have hfull : ∀ s r, ¬ r.pos < 16 → uuidLoop s r = r.rv := by
    intro s r hpos
    cases s with
    | nil => rfl
    | cons c s => rw [uuidLoop, if_neg hpos]
  induction s generalizing r with
  | nil => rfl
  | cons c s ih =>
    by_cases hpos : r.pos < 16
    · by_cases hskip : c = 0 ∨ c = 45
      · have hdrop : skipped c = true := by simpa [skipped] using hskip
        rw [uuidLoop, if_pos hpos, if_pos hskip, List.filter_cons_of_neg (by simp [hdrop]), ih]
      · have hkeep : skipped c = false := by simpa [skipped] using hskip
        rw [List.filter_cons_of_pos (by simp [hkeep]), uuidLoop, uuidLoop, if_pos hpos, if_pos hpos, if_neg hskip,
          if_neg hskip]
        cases nibbleValue c with
        | none => rfl
        | some val =>
          simp only
          split
          · exact ih _
          · exact ih _
    · rw [hfull _ _ hpos, hfull _ _ hpos]

theorem nibbleValue_hexDigit {n : Nat} (h : n < 16) : nibbleValue (hexDigit n) = some (UInt8.ofNat n) := by
  revert n
  decide

theorem join_nibbles (b : UInt8) : (UInt8.ofNat (b.toNat / 16) <<< 4) ||| UInt8.ofNat (b.toNat % 16) = b := by
  have hall : ∀ n < 256, (UInt8.ofNat (n / 16) <<< 4) ||| UInt8.ofNat (n % 16) = UInt8.ofNat n := by decide +kernel
  rw [hall b.toNat b.toNat_lt, UInt8.ofNat_toNat]

/-- Two digits are one byte. -/
theorem uuidLoop_hexByte (b : UInt8) (s : Bytes) (rv : Uuid) (pos : Nat) (nibble : UInt8) (h : pos < 16) :
    ∃ nibble', uuidLoop (hexByte b ++ s) ⟨rv, pos, true, nibble⟩ =
      uuidLoop s ⟨Function.update rv (Fin.ofNat 16 pos) b, pos + 1, true, nibble'⟩ := by
  have hhigh := hexDigit_ne (hi_lt b)
  have hlow := hexDigit_ne (lo_lt b)
  refine ⟨UInt8.ofNat (b.toNat / 16), ?_⟩
  simp only [hexByte, List.cons_append, List.nil_append, uuidLoop, h, ↓reduceIte, hhigh, hlow, or_self,
    nibbleValue_hexDigit (hi_lt b), nibbleValue_hexDigit (lo_lt b), join_nibbles, Bool.false_eq_true]

/-- The digits of as many bytes as there is room for. -/
theorem uuidLoop_hexBytes (bs : Bytes) (rv : Uuid) (pos : Nat) (nibble : UInt8) (h : pos + bs.length ≤ 16) (i : Fin 16) :
    uuidLoop (bs.flatMap hexByte) ⟨rv, pos, true, nibble⟩ i =
      if pos ≤ i.val ∧ i.val < pos + bs.length then bs.getD (i.val - pos) 0 else rv i := by
  induction bs generalizing rv pos nibble with
  | nil =>
    rw [if_neg (by simp only [List.length_nil]; omega)]
    rfl
  | cons b bs ih =>
    rw [List.length_cons] at h
    obtain ⟨nibble', hstep⟩ := uuidLoop_hexByte b (bs.flatMap hexByte) rv pos nibble (by omega)
    rw [List.flatMap_cons, hstep, ih _ _ _ (by omega)]
    by_cases hi : i.val = pos
    · have hat : i = Fin.ofNat 16 pos := by
        apply Fin.ext
        rw [Fin.val_ofNat, Nat.mod_eq_of_lt (by omega)]
        exact hi
      rw [if_neg (by omega), if_pos (by simp only [List.length_cons]; omega), hat, Function.update_self]
      simp [show pos % 16 = pos by omega]
    · have hne : i ≠ Fin.ofNat 16 pos := by
        rintro rfl
        rw [Fin.val_ofNat, Nat.mod_eq_of_lt (by omega)] at hi
        exact hi rfl
      rw [Function.update_of_ne hne]
      by_cases hin : pos + 1 ≤ i.val ∧ i.val < pos + 1 + bs.length
      · have hsucc : i.val - pos = i.val - (pos + 1) + 1 := by omega
        rw [if_pos hin, if_pos (by simp only [List.length_cons]; omega), hsucc, List.getD_cons_succ]
      · rw [if_neg hin, if_neg (by simp only [List.length_cons]; omega)]

theorem uuidFromStringN_hexBytes {s bs : Bytes} (h : s.filter (!skipped ·) = bs.flatMap hexByte) (hlen : bs.length = 16) :
    uuidFromStringN s = fun i => bs.getD i.val 0 := by
  funext i
  rw [uuidFromStringN, uuidLoop_filter, h, uuidLoop_hexBytes bs _ _ _ (by omega), if_pos (by omega), Nat.sub_zero]

/-! ## Printing -/

/-- Dashes behind the eighth, twelfth, sixteenth and twentieth digit. -/
def dashed (t : Bytes) : Bytes :=
  t.take 8 ++ 45 :: ((t.drop 8).take 4 ++ 45 :: ((t.drop 12).take 4 ++ 45 :: ((t.drop 16).take 4 ++ 45 :: t.drop 20)))

theorem dashed_pieces {a b c d : Bytes} (ha : a.length = 8) (hb : b.length = 4) (hc : c.length = 4) (hd : d.length = 4)
    (e : Bytes) :
    dashed (a ++ (b ++ (c ++ (d ++ e)))) = a ++ 45 :: (b ++ 45 :: (c ++ 45 :: (d ++ 45 :: e))) := by
  have h8 : (a ++ (b ++ (c ++ (d ++ e)))).drop 8 = b ++ (c ++ (d ++ e)) := List.drop_left' ha
  have h12 : (a ++ (b ++ (c ++ (d ++ e)))).drop (8 + 4) = c ++ (d ++ e) := by
    rw [← List.drop_drop, h8, List.drop_left' hb]
  have h16 : (a ++ (b ++ (c ++ (d ++ e)))).drop (12 + 4) = d ++ e := by
    rw [← List.drop_drop, h12, List.drop_left' hc]
  have h20 : (a ++ (b ++ (c ++ (d ++ e)))).drop (16 + 4) = e := by
    rw [← List.drop_drop, h16, List.drop_left' hd]
  rw [dashed, h8, h12, h16, h20, List.take_left' ha, List.take_left' hb, List.take_left' hc, List.take_left' hd]

theorem asString_eq (u : Uuid) : u.asString = dashed ((List.ofFn u).flatMap hexByte) := rfl

theorem internalUuidAsString_eq (u : Uuid) : internalUuidAsString u = (List.ofFn u).flatMap hexByte := by
  simp only [internalUuidAsString, List.ofFn_succ, List.ofFn_zero, List.flatMap_cons, List.flatMap_nil, List.append_nil,
    List.append_assoc]
  rfl

theorem internalUuidAsString_length (u : Uuid) : (internalUuidAsString u).length = 32 := by
  have htwo : ∀ b, (hexByte b).length = 2 := fun _ => rfl
  simp only [internalUuidAsString, List.length_append, htwo]

theorem filter_solid {t : Bytes} (h : ∀ c ∈ t, isHexDigit c = true) : t.filter (!skipped ·) = t := by
  rw [List.filter_eq_self]
  intro c hc
  simp [not_skipped_hexDigit (h c hc)]

/-- The digits are what is left of a text with dashes. -/
theorem filter_dashed {t : Bytes} (h : ∀ c ∈ t, isHexDigit c = true) : (dashed t).filter (!skipped ·) = t := by
  have hdash : skipped 45 = true := rfl
  have htake : ∀ n m, ((t.drop n).take m).filter (!skipped ·) = (t.drop n).take m := fun n m =>
    filter_solid fun c hc => h c (List.mem_of_mem_drop (List.mem_of_mem_take hc))
  have hfirst : (t.take 8).filter (!skipped ·) = t.take 8 := filter_solid fun c hc => h c (List.mem_of_mem_take hc)
  have hlast : (t.drop 20).filter (!skipped ·) = t.drop 20 := filter_solid fun c hc => h c (List.mem_of_mem_drop hc)
  have hjoin : ∀ n m, (t.drop n).take m ++ t.drop (n + m) = t.drop n := fun n m => by
    rw [← List.drop_drop, List.take_append_drop]
  simp only [dashed, List.filter_append, List.filter_cons, hdash, Bool.not_true, Bool.false_eq_true, ↓reduceIte, htake,
    hfirst, hlast]
  rw [hjoin 16 4, hjoin 12 4, hjoin 8 4, List.take_append_drop]

theorem isHexDigit_hexDigit {n : Nat} (h : n < 16) : isHexDigit (hexDigit n) = true := by
  revert n
  decide

theorem hex_flatMap (bs : Bytes) : ∀ c ∈ bs.flatMap hexByte, isHexDigit c = true := by
  intro c hc
  obtain ⟨b, -, hb⟩ := List.mem_flatMap.mp hc
  simp only [hexByte, List.mem_cons, List.not_mem_nil, or_false] at hb
  obtain rfl | rfl := hb
  · exact isHexDigit_hexDigit (hi_lt b)
  · exact isHexDigit_hexDigit (lo_lt b)

theorem ofFn_getD {bs : Bytes} (h : bs.length = 16) : (List.ofFn fun i : Fin 16 => bs.getD i.val 0) = bs := by
  apply List.ext_getElem
  · rw [List.length_ofFn, h]
  · intro i hi hi'
    rw [List.getElem_ofFn]
    simp [hi']

/-! ## Upper case -/

/-- `sentry__string_ascii_lower` of one character. -/
def lower (c : UInt8) : UInt8 := if 65 ≤ c && c ≤ 90 then c + 32 else c

theorem asciiLower_eq (s : Bytes) : asciiLower s = s.map lower := rfl

theorem nibbleValue_lower (c : UInt8) : nibbleValue (lower c) = nibbleValue c := by
  revert c
  exact forall_byte (by decide +kernel)

theorem skipped_lower (c : UInt8) : skipped (lower c) = skipped c := by
  revert c
  exact forall_byte (by decide +kernel)

/-- A digit in lower case is the one that is printed. -/
theorem lower_eq_hexDigit {c : UInt8} (h : isHexDigit c = true) : ∃ n < 16, lower c = hexDigit n := by
  have hall : ∀ c : UInt8, isHexDigit c = true → ∃ n < 16, lower c = hexDigit n :=
    forall_byte (P := fun c => isHexDigit c = true → ∃ n < 16, lower c = hexDigit n) (by decide +kernel)
  exact hall c h

theorem uuidLoop_lower (s : Bytes) (r : UuidReader) : uuidLoop (s.map lower) r = uuidLoop s r := by
  induction s generalizing r with
  | nil => rfl
  | cons c s ih =>
    have hskip : (lower c = 0 ∨ lower c = 45) ↔ (c = 0 ∨ c = 45) := by
      have hsame : skipped (lower c) = true ↔ skipped c = true := by rw [skipped_lower]
      simpa only [skipped, Bool.or_eq_true, decide_eq_true_eq] using hsame
    rw [List.map_cons, uuidLoop, uuidLoop, nibbleValue_lower]
    simp only [hskip, ih]

/-- Digits in pairs are the digits of some bytes. -/
theorem hexBytes_of_digits (t : Bytes) (n : Nat) (hlen : t.length = 2 * n) (h : ∀ c ∈ t, isHexDigit c = true) :
    ∃ bs : Bytes, bs.length = n ∧ bs.flatMap hexByte = t.map lower := by
  induction n generalizing t with
  | zero =>
    rw [List.length_eq_zero_iff.mp hlen]
    exact ⟨[], rfl, rfl⟩
  | succ n ih =>
    match t, hlen with
    | c :: d :: t, hlen =>
      obtain ⟨bs, hbs, htext⟩ := ih t (by simp only [List.length_cons] at hlen; omega)
        fun e he => h e (List.mem_cons_of_mem _ (List.mem_cons_of_mem _ he))
      obtain ⟨x, hx, hc⟩ := lower_eq_hexDigit (h c (by simp))
      obtain ⟨y, hy, hd⟩ := lower_eq_hexDigit (h d (by simp))
      have hvalue : (UInt8.ofNat (16 * x + y)).toNat = 16 * x + y := by
        rw [UInt8.toNat_ofNat']
        omega
      have hbyte : hexByte (UInt8.ofNat (16 * x + y)) = [lower c, lower d] := by
        rw [hexByte, hvalue, hc, hd, show (16 * x + y) / 16 = x by omega, show (16 * x + y) % 16 = y by omega]
      exact ⟨UInt8.ofNat (16 * x + y) :: bs, by rw [List.length_cons, hbs], by
        rw [List.flatMap_cons, hbyte, htext]
        rfl⟩

/-- What is read of thirty-two digits is printed as they are, in lower case. -/
theorem asString_digits {s t : Bytes} (hs : s.filter (!skipped ·) = t) (hlen : t.length = 32)
    (h : ∀ c ∈ t, isHexDigit c = true) : (uuidFromStringN s).asString = dashed (asciiLower t) := by
  obtain ⟨bs, hbs, htext⟩ := hexBytes_of_digits t 16 hlen h
  have hlower : (s.map lower).filter (!skipped ·) = bs.flatMap hexByte := by
    have hcomp : ((!skipped ·) ∘ lower) = (!skipped ·) := by
      funext c
      simp only [Function.comp_apply, skipped_lower]
    rw [List.filter_map, hcomp, hs, htext]
  have hread : uuidFromStringN s = fun i => bs.getD i.val 0 := by
    rw [uuidFromStringN, ← uuidLoop_lower]
    exact uuidFromStringN_hexBytes hlower hbs
  rw [hread, asString_eq, ofFn_getD hbs, htext, asciiLower_eq]

/-! ## Valid ids -/

theorem uuidIsValid_plain {s : Bytes} (hlen : s.length = 32) (h : uuidIsValid s = true) : ∀ c ∈ s, isHexDigit c = true := by
  intro c hc
  obtain ⟨i, hi, rfl⟩ := List.mem_iff_getElem.mp hc
  simp only [uuidIsValid, decide_eq_true_eq] at h
  have := h.2 i hi
  rw [if_neg (by omega)] at this
  simpa [hi] using this

/-- A valid id of thirty-six characters is thirty-two digits with dashes. -/
theorem uuidIsValid_dashed {s : Bytes} (hlen : s.length = 36) (h : uuidIsValid s = true) :
    ∃ t, s = dashed t ∧ t.length = 32 ∧ ∀ c ∈ t, isHexDigit c = true := by
  simp only [uuidIsValid, decide_eq_true_eq] at h
  have hat : ∀ i, i = 8 ∨ i = 13 ∨ i = 18 ∨ i = 23 → s.drop i = 45 :: s.drop (i + 1) := by
    intro i hi
    have hdash := h.2 i (by omega)
    rw [if_pos ⟨hlen, hi⟩] at hdash
    rw [List.drop_eq_getElem_cons (show i < s.length by omega)]
    rw [show s.getD i 0 = s[i] by simp [show i < s.length by omega]] at hdash
    rw [hdash]
  have hpart : ∀ n m, n + m ≤ 36 → (∀ i, n ≤ i → i < n + m → ¬(i = 8 ∨ i = 13 ∨ i = 18 ∨ i = 23)) →
      ∀ c ∈ (s.drop n).take m, isHexDigit c = true := by
    intro n m hnm hno c hc
    obtain ⟨i, hi, rfl⟩ := List.mem_iff_getElem.mp hc
    rw [List.length_take, List.length_drop] at hi
    have hdigit := h.2 (n + i) (by omega)
    rw [if_neg fun hd => hno (n + i) (by omega) (by omega) hd.2,
      show s.getD (n + i) 0 = s[n + i] by simp [show n + i < s.length by omega]] at hdigit
    simpa using hdigit
  refine ⟨(s.drop 0).take 8 ++ ((s.drop 9).take 4 ++ ((s.drop 14).take 4 ++ ((s.drop 19).take 4 ++ (s.drop 24).take 12))),
    ?_, by simp [hlen], ?_⟩
  · have hjoin : ∀ n m, s.drop n = (s.drop n).take m ++ s.drop (n + m) := fun n m => by
      rw [← List.drop_drop, List.take_append_drop]
    have hlast : (s.drop 24).take 12 = s.drop 24 := List.take_of_length_le (by rw [List.length_drop]; omega)
    have hlength : ∀ n m, n + m ≤ 36 → ((s.drop n).take m).length = m := fun n m hnm => by
      rw [List.length_take, List.length_drop]
      omega
    rw [dashed_pieces (hlength 0 8 (by omega)) (hlength 9 4 (by omega)) (hlength 14 4 (by omega)) (hlength 19 4 (by omega)),
      hlast, ← hat 23 (by omega), ← hjoin 19 4, ← hat 18 (by omega), ← hjoin 14 4, ← hat 13 (by omega), ← hjoin 9 4,
      ← hat 8 (by omega), ← hjoin 0 8, List.drop_zero]
  · intro c hc
    simp only [List.mem_append] at hc
    obtain hc | hc | hc | hc | hc := hc
    · exact hpart 0 8 (by omega) (by omega) c hc
    · exact hpart 9 4 (by omega) (by omega) c hc
    · exact hpart 14 4 (by omega) (by omega) c hc
    · exact hpart 19 4 (by omega) (by omega) c hc
    · exact hpart 24 12 (by omega) (by omega) c hc

theorem asciiLower_dashed (t : Bytes) : asciiLower (dashed t) = dashed (asciiLower t) := by
  have hdash : lower 45 = 45 := rfl
  simp only [asciiLower_eq, dashed, List.map_append, List.map_cons, List.map_take, List.map_drop, hdash]

theorem uuidFromStringN_printed {s : Bytes} {u : Uuid} (h : s.filter (!skipped ·) = (List.ofFn u).flatMap hexByte) :
    uuidFromStringN s = u := by
  rw [uuidFromStringN_hexBytes h (List.length_ofFn)]
  funext i
  have hi : i.val < (List.ofFn u).length := by rw [List.length_ofFn]; exact i.isLt
  rw [List.getD_eq_getElem?_getD, List.getElem?_eq_getElem hi, List.getElem_ofFn]
  rfl

theorem cstr_valid {s : Bytes} (h : uuidIsValid s = true) : cstr s = s := by
  apply cstr_of_not_mem
  intro hzero
  obtain ⟨i, hi, hi0⟩ := List.mem_iff_getElem.mp hzero
  simp only [uuidIsValid, decide_eq_true_eq] at h
  have hc := h.2 i hi
  rw [show s.getD i 0 = 0 by simp [hi, hi0]] at hc
  split at hc
  · cases hc
  · cases hc

/-- An id is read back from its thirty-six characters and from its thirty-two; and a valid text is printed again in
lower case, with the dashes where they belong. -/
theorem uuid_text :
    (∀ u : Uuid, u.asString.length = 36 ∧ uuidFromStringN u.asString = u ∧
      (internalUuidAsString u).length = 32 ∧ uuidFromStringN (internalUuidAsString u) = u) ∧
    ∀ s, uuidIsValid s = true →
      (uuidFromString (some s)).asString = if s.length = 36 then asciiLower s else dashed (asciiLower s) := by
  refine ⟨fun u => ⟨asString_length u, ?_, internalUuidAsString_length u, ?_⟩, fun s hs => ?_⟩
  · apply uuidFromStringN_printed
    rw [asString_eq]
    exact filter_dashed (hex_flatMap _)
  · apply uuidFromStringN_printed
    rw [internalUuidAsString_eq]
    exact filter_solid (hex_flatMap _)
  · rw [uuidFromString, cstr_valid hs]
    have hlen : s.length = 32 ∨ s.length = 36 := by
      simp only [uuidIsValid, decide_eq_true_eq] at hs
      exact hs.1
    obtain hlen | hlen := hlen
    · have hdigits := uuidIsValid_plain hlen hs
      rw [if_neg (by omega), asString_digits (filter_solid hdigits) hlen hdigits]
    · obtain ⟨t, rfl, ht, hdigits⟩ := uuidIsValid_dashed hlen hs
      rw [if_pos hlen, asString_digits (filter_dashed hdigits) ht hdigits, asciiLower_dashed]

theorem uuid_text_upper :
    (uuidFromString (some (List.replicate 32 65))).asString = dashed (List.replicate 32 97) :=
  (uuid_text.2 (List.replicate 32 65) (by decide +kernel)).trans (by decide +kernel)

end SentryNative.Utils
