import SentryNative.Minidump.Writer

/-!
# Strings in a minidump

`sentry__minidump_write_string`: a C string is decoded as UTF-8, replacing what is not valid, and
written as UTF-16 behind its length.

* `decodeUtf8_segment`: one round takes a character, or a sequence that is none;
* `toUtf16_append`: a character boundary splits the conversion;
* `minidump_strings`: what the conversion writes for every string.
-/

namespace SentryNative.Minidump

open CLib

/-- The loop over the continuation bytes; nothing when one is missing. -/
def readContinuation : Nat → Nat → Bytes → Option Nat × Bytes
  | 0, cp, r => (some cp, r)
  | _ + 1, _, [] => (none, [])
  | n + 1, cp, c :: r =>
    if c.toNat &&& 0xC0 ≠ 0x80 then (none, c :: r) else readContinuation n (cp <<< 6 ||| (c.toNat &&& 0x3F)) r

/-- The second half of `decode_utf8`: overlong forms and surrogates are rejected. -/
def decodeExtra (extraBytes cp : Nat) (r : Bytes) : Nat × Bytes :=
  match readContinuation extraBytes cp r with
  | (none, r) => (0xFFFD, r)
  | (some cp, r) =>
    if (extraBytes = 1 ∧ cp < 0x80) ∨ (extraBytes = 2 ∧ cp < 0x800) ∨ (extraBytes = 3 ∧ cp < 0x10000) ∨
        (0xD800 ≤ cp ∧ cp ≤ 0xDFFF) ∨ 0x10FFFF < cp then (0xFFFD, r)
    else (cp, r)

/-- `decode_utf8`: the code point and what is left of the text. -/
def decodeUtf8 : Bytes → Nat × Bytes
  | [] => (0xFFFD, [])
  | c :: r =>
    if c.toNat < 0x80 then (c.toNat, r)
    else if c.toNat &&& 0xE0 = 0xC0 then decodeExtra 1 (c.toNat &&& 0x1F) r
    else if c.toNat &&& 0xF0 = 0xE0 then decodeExtra 2 (c.toNat &&& 0x0F) r
    else if c.toNat &&& 0xF8 = 0xF0 then decodeExtra 3 (c.toNat &&& 0x07) r
    else (0xFFFD, r)

/-- The units that are stored for a code point. -/
def storeUnits (cp : Nat) : List UInt16 :=
  if cp ≤ 0xFFFF then [UInt16.ofNat cp]
  else [UInt16.ofNat (0xD800 ||| (cp - 0x10000) >>> 10), UInt16.ofNat (0xDC00 ||| ((cp - 0x10000) &&& 0x3FF))]

theorem readContinuation_length (n cp : Nat) (s : Bytes) : (readContinuation n cp s).2.length ≤ s.length := by
  induction n generalizing cp s with
  | zero => exact Nat.le_refl _
  | succ n ih =>
    cases s with
    | nil => exact Nat.le_refl _
    | cons c r =>
      rw [readContinuation]
      split
      · exact Nat.le_refl _
      · exact Nat.le_succ_of_le (ih _ r)

theorem decodeExtra_length (n cp : Nat) (s : Bytes) : (decodeExtra n cp s).2.length ≤ s.length := by
  have hlen := readContinuation_length n cp s
  unfold decodeExtra
  split
  · rename_i heq
    rw [heq] at hlen
    exact hlen
  · rename_i heq
    rw [heq] at hlen
    split <;> exact hlen

/-- Every round takes at least one byte. -/
theorem decodeUtf8_length (c : UInt8) (r : Bytes) : (decodeUtf8 (c :: r)).2.length ≤ r.length := by
  simp only [decodeUtf8]
  split
  · exact Nat.le_refl _
  · split
    · exact decodeExtra_length _ _ _
    · split
      · exact decodeExtra_length _ _ _
      · split
        · exact decodeExtra_length _ _ _
        · exact Nat.le_refl _

/-- The conversion loop. -/
def toUtf16 : Bytes → List UInt16
  | [] => []
  | c :: r => storeUnits (decodeUtf8 (c :: r)).1 ++ toUtf16 (decodeUtf8 (c :: r)).2
termination_by s => s.length
decreasing_by exact Nat.lt_succ_of_le (decodeUtf8_length c r)

/-- A number of two or four bytes in memory. -/
def le16 (u : UInt16) : Bytes := [UInt8.ofNat u.toNat, UInt8.ofNat (u.toNat / 256)]

def le32 (n : Nat) : Bytes :=
  [UInt8.ofNat n, UInt8.ofNat (n / 256), UInt8.ofNat (n / 65536), UInt8.ofNat (n / 16777216)]

/-- What is in the buffer. -/
def stringBytes (utf8 : Bytes) : Bytes :=
  le32 ((toUtf16 utf8).length * 2) ++ (toUtf16 utf8).flatMap le16 ++ [0, 0]

/-- `sentry__minidump_write_string`; `buf` says whether the buffer was allocated. -/
def writeString (w : Writer) (utf8 : Option Bytes) (buf : Bool) (first second : Option Nat) : UInt32 × Writer :=
  match utf8 with
  | none => (0, w)
  | some utf8 =>
    if 32768 < utf8.length then (0, w)
    else if buf then writeData w (stringBytes utf8) first second
    else (0, w)

/-! ## One round -/

/-- A continuation byte. -/
def Continues (c : UInt8) : Prop := 128 ≤ c.toNat ∧ c.toNat < 192

/-- The text is over or goes on with a byte that is no continuation. -/
def Boundary (s : Bytes) : Prop := ∀ c ∈ s.head?, ¬Continues c

theorem mask_continues (c : UInt8) : c.toNat &&& 0xC0 = 0x80 ↔ Continues c := by
  have hall : ∀ n < 256, n &&& 0xC0 = 0x80 ↔ 128 ≤ n ∧ n < 192 := by decide +kernel
  exact hall c.toNat c.toNat_lt

theorem mask_lead (c : UInt8) :
    (c.toNat &&& 0xE0 = 0xC0 ↔ 192 ≤ c.toNat ∧ c.toNat < 224) ∧
      (c.toNat &&& 0xF0 = 0xE0 ↔ 224 ≤ c.toNat ∧ c.toNat < 240) ∧
      (c.toNat &&& 0xF8 = 0xF0 ↔ 240 ≤ c.toNat ∧ c.toNat < 248) := by
  have hall : ∀ n < 256, (n &&& 0xE0 = 0xC0 ↔ 192 ≤ n ∧ n < 224) ∧ (n &&& 0xF0 = 0xE0 ↔ 224 ≤ n ∧ n < 240) ∧
      (n &&& 0xF8 = 0xF0 ↔ 240 ≤ n ∧ n < 248) := by decide +kernel
  exact hall c.toNat c.toNat_lt

theorem mask_value (c : UInt8) :
    c.toNat &&& 0x3F = c.toNat % 64 ∧ c.toNat &&& 0x1F = c.toNat % 32 ∧ c.toNat &&& 0x0F = c.toNat % 16 ∧
      c.toNat &&& 0x07 = c.toNat % 8 := by
  have hall : ∀ n < 256, n &&& 0x3F = n % 64 ∧ n &&& 0x1F = n % 32 ∧ n &&& 0x0F = n % 16 ∧ n &&& 0x07 = n % 8 := by
    decide +kernel
  exact hall c.toNat c.toNat_lt

theorem shift_or (cp : Nat) (c : UInt8) : cp <<< 6 ||| (c.toNat &&& 0x3F) = cp * 64 + c.toNat % 64 := by
  rw [(mask_value c).1, ← Nat.shiftLeft_add_eq_or_of_lt (Nat.mod_lt _ (by decide)), Nat.shiftLeft_eq]

/-- The value of a lead with its continuation bytes. -/
def accumulate (cp : Nat) (bs : Bytes) : Nat := bs.foldl (fun v b => v * 64 + b.toNat % 64) cp

/-- The same round, with the lead bytes as ranges. -/
theorem decodeUtf8_cons (c : UInt8) (r : Bytes) :
    decodeUtf8 (c :: r) =
      if c.toNat < 128 then (c.toNat, r)
      else if 192 ≤ c.toNat ∧ c.toNat < 224 then decodeExtra 1 (c.toNat % 32) r
      else if 224 ≤ c.toNat ∧ c.toNat < 240 then decodeExtra 2 (c.toNat % 16) r
      else if 240 ≤ c.toNat ∧ c.toNat < 248 then decodeExtra 3 (c.toNat % 8) r
      else (0xFFFD, r) := by
  obtain ⟨-, h32, h16, h8⟩ := mask_value c
  obtain ⟨htwo, hthree, hfour⟩ := mask_lead c
  simp only [decodeUtf8, htwo, hthree, hfour, h32, h16, h8]

theorem readContinuation_spec (n cp : Nat) (s : Bytes) :
    ∃ bs, (∀ b ∈ bs, Continues b) ∧ s = bs ++ (readContinuation n cp s).2 ∧
      ((readContinuation n cp s).1 = some (accumulate cp bs) ∧ bs.length = n ∨
        (readContinuation n cp s).1 = none ∧ bs.length < n ∧ Boundary (readContinuation n cp s).2) := by
  induction n generalizing cp s with
  | zero => exact ⟨[], by simp, rfl, Or.inl ⟨rfl, rfl⟩⟩
  | succ n ih =>
    cases s with
    | nil => exact ⟨[], by simp, rfl, Or.inr ⟨rfl, Nat.succ_pos n, by simp [readContinuation, Boundary]⟩⟩
    | cons c r =>
      rw [readContinuation]
      split
      · rename_i hno
        rw [ne_eq, mask_continues] at hno
        refine ⟨[], by simp, rfl, Or.inr ⟨rfl, Nat.succ_pos n, ?_⟩⟩
        intro d hd
        cases hd
        exact hno
      · rename_i hyes
        rw [not_not, mask_continues] at hyes
        rw [shift_or]
        obtain ⟨bs, hbs, hsplit, hcases⟩ := ih (cp * 64 + c.toNat % 64) r
        refine ⟨c :: bs, ?_, congrArg (c :: ·) hsplit, ?_⟩
        · intro b hb
          obtain rfl | hb := List.mem_cons.1 hb
          · exact hyes
          · exact hbs b hb
        · obtain ⟨hsome, hlen⟩ | ⟨hnone, hlen, hbound⟩ := hcases
          · exact Or.inl ⟨hsome, congrArg (· + 1) hlen⟩
          · exact Or.inr ⟨hnone, Nat.succ_lt_succ hlen, hbound⟩

theorem readContinuation_append {b : Bytes} (hb : Boundary b) (n cp : Nat) (s : Bytes) :
    readContinuation n cp (s ++ b) = ((readContinuation n cp s).1, (readContinuation n cp s).2 ++ b) := by
  induction n generalizing cp s with
  | zero => rfl
  | succ n ih =>
    cases s with
    | nil =>
      cases b with
      | nil => rfl
      | cons d b =>
        have hno : d.toNat &&& 0xC0 ≠ 0x80 := (mask_continues d).not.2 (hb d rfl)
        simp only [List.nil_append, readContinuation, if_pos hno]
    | cons c r =>
      rw [List.cons_append, readContinuation, readContinuation]
      split
      · rfl
      · exact ih _ r

theorem decodeExtra_append {b : Bytes} (hb : Boundary b) (n cp : Nat) (s : Bytes) :
    decodeExtra n cp (s ++ b) = ((decodeExtra n cp s).1, (decodeExtra n cp s).2 ++ b) := by
  unfold decodeExtra
  rw [readContinuation_append hb]
  cases readContinuation n cp s with
  | mk got r =>
    cases got with
    | none => rfl
    | some v =>
      dsimp only
      split <;> rfl

theorem decodeUtf8_append {b : Bytes} (hb : Boundary b) (c : UInt8) (r : Bytes) :
    decodeUtf8 (c :: (r ++ b)) = ((decodeUtf8 (c :: r)).1, (decodeUtf8 (c :: r)).2 ++ b) := by
  simp only [decodeUtf8, decodeExtra_append hb]
  split
  · rfl
  · split
    · rfl
    · split
      · rfl
      · split <;> rfl

/-- No round reads across a boundary, so the conversion splits there. -/
theorem toUtf16_append {b : Bytes} (hb : Boundary b) (a : Bytes) : toUtf16 (a ++ b) = toUtf16 a ++ toUtf16 b := by
  induction a using toUtf16.induct with
  | case1 => rw [List.nil_append, toUtf16, List.nil_append]
  | case2 c r ih =>
    rw [List.cons_append, toUtf16, toUtf16, decodeUtf8_append hb, ih, List.append_assoc]

/-! ## Characters -/

/-- The standard encoding of a character in UTF-16. -/
def utf16Encode (ch : Char) : List UInt16 :=
  if ch.val.toNat < 0x10000 then [UInt16.ofNat ch.val.toNat]
  else [UInt16.ofNat (0xD800 + (ch.val.toNat - 0x10000) / 0x400), UInt16.ofNat (0xDC00 + (ch.val.toNat - 0x10000) % 0x400)]

theorem char_range (ch : Char) : ch.val.toNat < 0xD800 ∨ 0xDFFF < ch.val.toNat ∧ ch.val.toNat < 0x110000 := ch.valid

theorem storeUnits_char (ch : Char) : storeUnits ch.val.toNat = utf16Encode ch := by
  have hrange := char_range ch
  obtain ⟨v, hv⟩ : ∃ v, ch.val.toNat = v := ⟨_, rfl⟩
  simp only [storeUnits, utf16Encode, hv] at hrange ⊢
  split
  · rw [if_pos (by omega)]
  · rw [if_neg (by omega)]
    have hhigh : 0xD800 ||| (v - 0x10000) >>> 10 = 0xD800 + (v - 0x10000) / 0x400 := by
      have hlt : (v - 0x10000) / 2 ^ 10 < 2 ^ 10 := by omega
      rw [Nat.shiftRight_eq_div_pow, show 0xD800 = 54 <<< 10 from rfl, ← Nat.shiftLeft_add_eq_or_of_lt hlt]
      rfl
    have hlow : 0xDC00 ||| ((v - 0x10000) &&& 0x3FF) = 0xDC00 + (v - 0x10000) % 0x400 := by
      have hlt : (v - 0x10000) % 2 ^ 10 < 2 ^ 10 := Nat.mod_lt _ (by decide)
      rw [show 0x3FF = 2 ^ 10 - 1 from rfl, Nat.and_two_pow_sub_one_eq_mod, show 0xDC00 = 55 <<< 10 from rfl,
        ← Nat.shiftLeft_add_eq_or_of_lt hlt]
      rfl
    rw [hhigh, hlow]

/-- A lead byte for `n` continuation bytes, with the bits it holds of the value. -/
def Leads (c : UInt8) (n cp : Nat) : Prop :=
  n = 0 ∧ c.toNat < 128 ∧ cp = c.toNat ∨
    n = 1 ∧ (192 ≤ c.toNat ∧ c.toNat < 224) ∧ cp = c.toNat % 32 ∨
      n = 2 ∧ (224 ≤ c.toNat ∧ c.toNat < 240) ∧ cp = c.toNat % 16 ∨
        n = 3 ∧ (240 ≤ c.toNat ∧ c.toNat < 248) ∧ cp = c.toNat % 8

/-- The values a form of `n` continuation bytes is for. -/
def Fits (n v : Nat) : Prop :=
  (v < 0xD800 ∨ 0xDFFF < v ∧ v < 0x110000) ∧
    (n = 0 ∧ v < 0x80 ∨ n = 1 ∧ 0x80 ≤ v ∧ v < 0x800 ∨ n = 2 ∧ 0x800 ≤ v ∧ v < 0x10000 ∨ n = 3 ∧ 0x10000 ≤ v)

theorem utf8EncodeChar_spec (ch : Char) :
    ∃ c bs cp, String.utf8EncodeChar ch = c :: bs ∧ (∀ b ∈ bs, Continues b) ∧ Leads c bs.length cp ∧
      accumulate cp bs = ch.val.toNat ∧ Fits bs.length ch.val.toNat := by
  have hrange := char_range ch
  obtain ⟨v, hv⟩ : ∃ v, ch.val.toNat = v := ⟨_, rfl⟩
  simp only [String.utf8EncodeChar, hv] at hrange ⊢
  split
  · refine ⟨_, _, v, rfl, by simp, Or.inl ⟨rfl, ?_⟩, rfl, hrange, Or.inl ⟨rfl, by omega⟩⟩
    simp only [UInt8.toNat_ofNat']
    omega
  · split
    · refine ⟨_, _, v / 64, rfl, ?_, Or.inr (Or.inl ⟨rfl, ?_⟩), ?_, hrange, Or.inr (Or.inl ⟨rfl, by omega⟩)⟩
      · simp only [Continues, List.mem_singleton, forall_eq, UInt8.toNat_ofNat']
        omega
      · simp only [UInt8.toNat_ofNat']
        omega
      · simp only [accumulate, List.foldl_cons, List.foldl_nil, UInt8.toNat_ofNat']
        omega
    · split
      · refine ⟨_, _, v / 4096, rfl, ?_, Or.inr (Or.inr (Or.inl ⟨rfl, ?_⟩)), ?_, hrange,
          Or.inr (Or.inr (Or.inl ⟨rfl, by omega⟩))⟩
        · simp only [Continues, List.mem_cons, List.not_mem_nil, or_false, forall_eq_or_imp, forall_eq,
            UInt8.toNat_ofNat']
          omega
        · simp only [UInt8.toNat_ofNat']
          omega
        · simp only [accumulate, List.foldl_cons, List.foldl_nil, UInt8.toNat_ofNat']
          omega
      · refine ⟨_, _, v / 262144, rfl, ?_, Or.inr (Or.inr (Or.inr ⟨rfl, ?_⟩)), ?_, hrange,
          Or.inr (Or.inr (Or.inr ⟨rfl, by omega⟩))⟩
        · simp only [Continues, List.mem_cons, List.not_mem_nil, or_false, forall_eq_or_imp, forall_eq,
            UInt8.toNat_ofNat']
          omega
        · simp only [UInt8.toNat_ofNat']
          omega
        · simp only [accumulate, List.foldl_cons, List.foldl_nil, UInt8.toNat_ofNat']
          omega

theorem accumulate_inj {bs bs' : Bytes} (hbs : ∀ b ∈ bs, Continues b) (hbs' : ∀ b ∈ bs', Continues b)
    (hlen : bs.length = bs'.length) {cp cp' : Nat} (h : accumulate cp bs = accumulate cp' bs') :
    cp = cp' ∧ bs = bs' := by
  induction bs generalizing bs' cp cp' with
  | nil =>
    cases bs' with
    | nil => exact ⟨h, rfl⟩
    | cons b' bs' => cases hlen
  | cons b bs ih =>
    cases bs' with
    | nil => cases hlen
    | cons b' bs' =>
      rw [List.forall_mem_cons] at hbs hbs'
      obtain ⟨hcp, rfl⟩ := ih hbs.2 hbs'.2 (Nat.succ.inj hlen) h
      have hb := hbs.1
      have hb' := hbs'.1
      unfold Continues at hb hb'
      dsimp only at hcp
      have heq : b = b' := UInt8.toNat_inj.1 (by omega)
      exact ⟨by omega, congrArg (· :: bs) heq⟩

theorem accumulate_lt (cp : Nat) (bs : Bytes) : accumulate cp bs < (cp + 1) * 64 ^ bs.length := by
  induction bs generalizing cp with
  | nil => exact Nat.lt_of_lt_of_eq (Nat.lt_succ_self cp) (Nat.mul_one _).symm
  | cons b bs ih =>
    calc accumulate cp (b :: bs) < (cp * 64 + b.toNat % 64 + 1) * 64 ^ bs.length := ih _
      _ ≤ ((cp + 1) * 64) * 64 ^ bs.length := Nat.mul_le_mul_right _ (by omega)
      _ = (cp + 1) * 64 ^ (b :: bs).length := by rw [List.length_cons, Nat.pow_succ]; ring

theorem Fits.unique {n m v : Nat} (hn : Fits n v) (hm : Fits m v) : n = m := by
  unfold Fits at hn hm
  omega

theorem Leads.unique {c c' : UInt8} {n m cp cp' : Nat} (h : Leads c n cp) (h' : Leads c' m cp') :
    (c = c' → n = m ∧ cp = cp') ∧ (n = m → cp = cp' → c = c') := by
  unfold Leads at h h'
  constructor
  · rintro rfl
    omega
  · intro hn hcp
    exact UInt8.toNat_inj.1 (by omega)

/-- A lead byte with its continuation bytes and a value of its form encodes a character. -/
theorem encodes_of_fits {c : UInt8} {bs : Bytes} {cp : Nat} (hlead : Leads c bs.length cp)
    (hbs : ∀ b ∈ bs, Continues b) (hfits : Fits bs.length (accumulate cp bs)) :
    ∃ ch : Char, String.utf8EncodeChar ch = c :: bs ∧ ch.val.toNat = accumulate cp bs := by
  have hvalid : (accumulate cp bs).isValidChar := hfits.1
  obtain ⟨ch, hch⟩ : ∃ ch : Char, ch.val.toNat = accumulate cp bs :=
    ⟨Char.ofNat _, by rw [Char.ofNat, dif_pos hvalid]; rfl⟩
  obtain ⟨c', bs', cp', henc, hbs', hlead', hval, hfits'⟩ := utf8EncodeChar_spec ch
  rw [hch] at hval hfits'
  have hlen : bs'.length = bs.length := hfits'.unique hfits
  obtain ⟨rfl, rfl⟩ := accumulate_inj hbs' hbs hlen hval
  have hc : c' = c := (hlead'.unique hlead).2 rfl rfl
  exact ⟨ch, by rw [henc, hc], hch⟩

/-- What the second half of a round rejects. -/
theorem rejects_iff {c : UInt8} {bs : Bytes} {cp : Nat} (hlead : Leads c bs.length cp) :
    ((bs.length = 1 ∧ accumulate cp bs < 0x80) ∨ (bs.length = 2 ∧ accumulate cp bs < 0x800) ∨
        (bs.length = 3 ∧ accumulate cp bs < 0x10000) ∨ (0xD800 ≤ accumulate cp bs ∧ accumulate cp bs ≤ 0xDFFF) ∨
        0x10FFFF < accumulate cp bs) ↔ ¬Fits bs.length (accumulate cp bs) := by
  have hlt := accumulate_lt cp bs
  unfold Fits
  obtain ⟨hn, hc, hcp⟩ | ⟨hn, hc, hcp⟩ | ⟨hn, hc, hcp⟩ | ⟨hn, hc, hcp⟩ := hlead <;> rw [hn] at hlt ⊢ <;> omega

theorem decodeUtf8_leads {c : UInt8} {n cp : Nat} (h : Leads c n cp) (r : Bytes) :
    decodeUtf8 (c :: r) = decodeExtra n cp r := by
  rw [decodeUtf8_cons]
  obtain ⟨rfl, hc, rfl⟩ | ⟨rfl, hc, rfl⟩ | ⟨rfl, hc, rfl⟩ | ⟨rfl, hc, rfl⟩ := h
  · rw [if_pos hc, decodeExtra, readContinuation]
    dsimp only
    rw [if_neg (by omega)]
  · rw [if_neg (by omega), if_pos hc]
  · rw [if_neg (by omega), if_neg (by omega), if_pos hc]
  · rw [if_neg (by omega), if_neg (by omega), if_neg (by omega), if_pos hc]

theorem leads_or (c : UInt8) :
    (∃ n cp, Leads c n cp) ∨ (∀ n cp, ¬Leads c n cp) ∧ ∀ r, decodeUtf8 (c :: r) = (0xFFFD, r) := by
  by_cases hlead : ∃ n cp, Leads c n cp
  · exact Or.inl hlead
  · have hno : ∀ n cp, ¬Leads c n cp := fun n cp h => hlead ⟨n, cp, h⟩
    refine Or.inr ⟨hno, fun r => ?_⟩
    rw [decodeUtf8_cons, if_neg fun h => hno 0 _ (Or.inl ⟨rfl, h, rfl⟩), if_neg fun h => hno 1 _ (Or.inr (Or.inl ⟨rfl, h, rfl⟩)),
      if_neg fun h => hno 2 _ (Or.inr (Or.inr (Or.inl ⟨rfl, h, rfl⟩))),
      if_neg fun h => hno 3 _ (Or.inr (Or.inr (Or.inr ⟨rfl, h, rfl⟩)))]

/-- The sequence holds no complete character. -/
def Rejected (seq : Bytes) : Prop := ∀ ch x y, seq ≠ x ++ String.utf8EncodeChar ch ++ y

/-- A character inside a lead byte and continuation bytes starts with the lead byte. -/
theorem encode_at_lead {c : UInt8} {bs x y : Bytes} {ch : Char} (hbs : ∀ b ∈ bs, Continues b)
    (h : c :: bs = x ++ String.utf8EncodeChar ch ++ y) :
    ∃ bs' cp, String.utf8EncodeChar ch = c :: bs' ∧ bs = bs' ++ y ∧ (∀ b ∈ bs', Continues b) ∧
      Leads c bs'.length cp ∧ Fits bs'.length (accumulate cp bs') := by
  obtain ⟨c', bs', cp, henc, hbs', hlead, hval, hfits⟩ := utf8EncodeChar_spec ch
  rw [henc] at h
  cases x with
  | nil =>
    obtain ⟨rfl, hsplit⟩ := List.cons.inj h
    rw [← hval] at hfits
    exact ⟨bs', cp, henc, hsplit, hbs', hlead, hfits⟩
  | cons x₀ x =>
    obtain ⟨-, hsplit⟩ := List.cons.inj h
    have hmem : c' ∈ bs := by rw [hsplit]; simp
    have hcont := hbs c' hmem
    unfold Continues at hcont
    unfold Leads at hlead
    omega

/-- One round takes a character, or a sequence that holds none. -/
theorem decodeUtf8_segment (c : UInt8) (r : Bytes) :
    ∃ bs, c :: r = c :: bs ++ (decodeUtf8 (c :: r)).2 ∧ (∀ b ∈ bs, Continues b) ∧
      ((∃ ch : Char, String.utf8EncodeChar ch = c :: bs ∧ (decodeUtf8 (c :: r)).1 = ch.val.toNat) ∨
        (decodeUtf8 (c :: r)).1 = 0xFFFD ∧ Rejected (c :: bs)) := by
  obtain ⟨n, cp, hlead⟩ | ⟨hno, hstray⟩ := leads_or c
  · rw [decodeUtf8_leads hlead, decodeExtra]
    obtain ⟨bs, hbs, hsplit, hcases⟩ := readContinuation_spec n cp r
    obtain ⟨hsome, hlen⟩ | ⟨hnone, hlen, -⟩ := hcases
    · subst hlen
      rw [show readContinuation bs.length cp r = (some (accumulate cp bs), (readContinuation bs.length cp r).2) from
        Prod.ext hsome rfl]
      refine ⟨bs, ?_⟩
      dsimp only
      by_cases hfits : Fits bs.length (accumulate cp bs)
      · obtain ⟨ch, henc, hval⟩ := encodes_of_fits hlead hbs hfits
        rw [if_neg (mt (rejects_iff hlead).1 (not_not.2 hfits))]
        exact ⟨congrArg (c :: ·) hsplit, hbs, Or.inl ⟨ch, henc, hval.symm⟩⟩
      · rw [if_pos ((rejects_iff hlead).2 hfits)]
        refine ⟨congrArg (c :: ·) hsplit, hbs, Or.inr ⟨rfl, ?_⟩⟩
        intro ch x y heq
        obtain ⟨bs', cp', -, happ, -, hlead', hfits'⟩ := encode_at_lead hbs heq
        obtain ⟨hlen, rfl⟩ := (hlead.unique hlead').1 rfl
        have hy : y = [] := by
          rw [happ, List.length_append] at hlen
          exact List.eq_nil_of_length_eq_zero (by omega)
        rw [hy, List.append_nil] at happ
        exact hfits (happ ▸ hfits')
    · rw [show readContinuation n cp r = (none, (readContinuation n cp r).2) from Prod.ext hnone rfl]
      refine ⟨bs, congrArg (c :: ·) hsplit, hbs, Or.inr ⟨rfl, ?_⟩⟩
      intro ch x y heq
      obtain ⟨bs', cp', -, happ, -, hlead', -⟩ := encode_at_lead hbs heq
      have hsame := ((hlead.unique hlead').1 rfl).1
      rw [happ, List.length_append] at hlen
      omega
  · rw [hstray r]
    refine ⟨[], rfl, by simp, Or.inr ⟨rfl, ?_⟩⟩
    intro ch x y heq
    obtain ⟨bs', cp', -, -, -, hlead', -⟩ := encode_at_lead (by simp) heq
    exact hno _ _ hlead'

/-- A character at the head of the text is the next round. -/
theorem decodeUtf8_encode (ch : Char) (r : Bytes) :
    decodeUtf8 (String.utf8EncodeChar ch ++ r) = (ch.val.toNat, r) := by
  obtain ⟨c, bs, cp, henc, hbs, hlead, hval, hfits⟩ := utf8EncodeChar_spec ch
  have hread : ∀ (bs : Bytes) cp, (∀ b ∈ bs, Continues b) →
      readContinuation bs.length cp (bs ++ r) = (some (accumulate cp bs), r) := by
    intro bs
    induction bs with
    | nil => intro cp _; rfl
    | cons b bs ih =>
      intro cp hbs
      rw [List.forall_mem_cons] at hbs
      rw [List.length_cons, List.cons_append, readContinuation, if_neg (not_not.2 ((mask_continues b).2 hbs.1)),
        shift_or, ih _ hbs.2]
      rfl
  rw [← hval] at hfits
  rw [henc, List.cons_append, decodeUtf8_leads hlead, decodeExtra, hread bs cp hbs]
  dsimp only
  rw [if_neg (mt (rejects_iff hlead).1 (not_not.2 hfits)), hval]

theorem boundary_encode (ch : Char) (r : Bytes) : Boundary (String.utf8EncodeChar ch ++ r) := by
  obtain ⟨c, bs, cp, henc, -, hlead, -, -⟩ := utf8EncodeChar_spec ch
  rw [henc]
  intro d hd hcont
  cases hd
  unfold Continues at hcont
  unfold Leads at hlead
  omega

theorem toUtf16_encode (ch : Char) (r : Bytes) :
    toUtf16 (String.utf8EncodeChar ch ++ r) = utf16Encode ch ++ toUtf16 r := by
  have hround := decodeUtf8_encode ch r
  obtain ⟨c, bs, cp, henc, -, -, -, -⟩ := utf8EncodeChar_spec ch
  rw [henc, List.cons_append] at hround ⊢
  rw [toUtf16, hround, storeUnits_char]

/-- A character anywhere in the text comes out between what stands before and after it. -/
theorem toUtf16_around (a : Bytes) (ch : Char) (b : Bytes) :
    toUtf16 (a ++ String.utf8EncodeChar ch ++ b) = toUtf16 a ++ utf16Encode ch ++ toUtf16 b := by
  rw [List.append_assoc, toUtf16_append (boundary_encode ch b), toUtf16_encode, List.append_assoc]

theorem toUtf16_valid (chs : List Char) :
    toUtf16 (chs.flatMap String.utf8EncodeChar) = chs.flatMap utf16Encode := by
  induction chs with
  | nil => rw [List.flatMap_nil, List.flatMap_nil, toUtf16]
  | cons ch chs ih => rw [List.flatMap_cons, List.flatMap_cons, toUtf16_encode, ih]

/-- A text is cut into characters and sequences that hold none: a byte with the continuation bytes
that were taken for it. These give U+FFFD. -/
structure Cut (seq : Bytes) (ch : Char) : Prop where
  shape : ∃ c bs, seq = c :: bs ∧ ∀ b ∈ bs, Continues b
  decoded : seq = String.utf8EncodeChar ch ∨ ch.val.toNat = 0xFFFD ∧ Rejected seq

theorem toUtf16_cut (s : Bytes) :
    ∃ cuts : List (Bytes × Char), (∀ cut ∈ cuts, Cut cut.1 cut.2) ∧ s = cuts.flatMap (·.1) ∧
      toUtf16 s = cuts.flatMap (utf16Encode ·.2) := by
  induction s using toUtf16.induct with
  | case1 => exact ⟨[], by simp, rfl, by rw [toUtf16]; rfl⟩
  | case2 c r ih =>
    obtain ⟨cuts, hcuts, hsplit, hunits⟩ := ih
    obtain ⟨bs, hround, hbs, hdecoded⟩ := decodeUtf8_segment c r
    obtain ⟨ch, hcut, hval⟩ : ∃ ch : Char, Cut (c :: bs) ch ∧ (decodeUtf8 (c :: r)).1 = ch.val.toNat := by
      obtain ⟨ch, henc, hval⟩ | ⟨hval, hrej⟩ := hdecoded
      · exact ⟨ch, ⟨⟨c, bs, rfl, hbs⟩, Or.inl henc.symm⟩, hval⟩
      · exact ⟨Char.ofNat 0xFFFD, ⟨⟨c, bs, rfl, hbs⟩, Or.inr ⟨rfl, hrej⟩⟩, hval⟩
    refine ⟨(c :: bs, ch) :: cuts, ?_, ?_, ?_⟩
    · intro cut hmem
      obtain rfl | hmem := List.mem_cons.1 hmem
      · exact hcut
      · exact hcuts cut hmem
    · rw [List.flatMap_cons, ← hsplit]
      exact hround
    · rw [toUtf16, hval, storeUnits_char, hunits, List.flatMap_cons]

/-! ## The buffer -/

theorem Cut.units {seq : Bytes} {ch : Char} (h : Cut seq ch) : (utf16Encode ch).length ≤ seq.length := by
  have hpos : 0 < seq.length := by
    obtain ⟨c, bs, hseq, -⟩ := h.shape
    rw [hseq]
    exact Nat.succ_pos _
  unfold utf16Encode
  split
  · exact hpos
  · rename_i hbig
    obtain heq | ⟨hval, -⟩ := h.decoded
    · obtain ⟨c, bs, cp, henc, -, -, -, hfits⟩ := utf8EncodeChar_spec ch
      unfold Fits at hfits
      rw [heq, henc, List.length_cons]
      simp only [List.length_cons, List.length_nil]
      omega
    · omega

/-- The buffer that was sized from the bytes is never exceeded. -/
theorem toUtf16_length (s : Bytes) : (toUtf16 s).length ≤ s.length := by
  obtain ⟨cuts, hcuts, hsplit, hunits⟩ := toUtf16_cut s
  rw [hunits]
  conv_rhs => rw [hsplit]
  clear hsplit hunits
  induction cuts with
  | nil => exact Nat.le_refl _
  | cons cut cuts ih =>
    rw [List.forall_mem_cons] at hcuts
    rw [List.flatMap_cons, List.flatMap_cons, List.length_append, List.length_append]
    exact Nat.add_le_add hcuts.1.units (ih hcuts.2)

/-- Units read from their bytes. -/
def ofLe16 : Bytes → List UInt16
  | lo :: hi :: r => UInt16.ofNat (lo.toNat + 256 * hi.toNat) :: ofLe16 r
  | _ => []

theorem ofLe_le32 {n : Nat} (h : n ≤ 65536) : ofLe (le32 n) = n := by
  simp only [ofLe, le32, List.foldr_cons, List.foldr_nil, UInt8.toNat_ofNat']
  omega

theorem ofLe16_le16 (u : UInt16) (r : Bytes) : ofLe16 (le16 u ++ r) = u :: ofLe16 r := by
  have hlt := u.toNat_lt
  have hunit : UInt16.ofNat ((UInt8.ofNat u.toNat).toNat + 256 * (UInt8.ofNat (u.toNat / 256)).toNat) = u := by
    apply UInt16.toNat_inj.1
    simp only [UInt8.toNat_ofNat', UInt16.toNat_ofNat']
    omega
  simp only [le16, List.cons_append, List.nil_append, ofLe16, hunit]

theorem ofLe16_units (us : List UInt16) : ofLe16 (us.flatMap le16) = us := by
  induction us with
  | nil => rfl
  | cons u us ih => rw [List.flatMap_cons, ofLe16_le16, ih]

theorem units_bytes (us : List UInt16) : (us.flatMap le16).length = 2 * us.length := by
  induction us with
  | nil => rfl
  | cons u us ih =>
    rw [List.flatMap_cons, List.length_append, ih, List.length_cons]
    exact Nat.add_comm 2 _

/-- What is written for a string: its length, its units and a terminator, in the buffer's room. -/
structure WritesUnits (s data : Bytes) : Prop where
  fits : data.length ≤ 4 + s.length * 2 + 2
  lengthField : ofLe (data.take 4) = 2 * (toUtf16 s).length
  units : ofLe16 ((data.drop 4).take (2 * (toUtf16 s).length)) = toUtf16 s
  terminator : data.drop (4 + 2 * (toUtf16 s).length) = [0, 0]

theorem stringBytes_writes {s : Bytes} (h : s.length ≤ 32768) : WritesUnits s (stringBytes s) := by
  have hlen := toUtf16_length s
  have hbytes := units_bytes (toUtf16 s)
  have hfour : (le32 ((toUtf16 s).length * 2)).length = 4 := rfl
  unfold stringBytes
  refine ⟨?_, ?_, ?_, ?_⟩
  · simp only [List.length_append, hfour, hbytes, List.length_cons, List.length_nil]
    omega
  · rw [List.append_assoc, List.take_left' hfour, ofLe_le32 (by omega), Nat.mul_comm]
  · rw [List.append_assoc, List.drop_left' hfour, List.take_left' hbytes, ofLe16_units]
  · rw [List.drop_left' (by rw [List.length_append, hfour, hbytes])]

/-- Every string of at most 32768 bytes is written as the UTF-16 of its characters. -/
theorem minidump_strings (s : Bytes) (h : s.length ≤ 32768) :
    (toUtf16 s).length ≤ s.length ∧ WritesUnits s (stringBytes s) ∧
      (∀ w first second, writeString w (some s) true first second = writeData w (stringBytes s) first second) ∧
      (∀ chs : List Char, s = chs.flatMap String.utf8EncodeChar → toUtf16 s = chs.flatMap utf16Encode) ∧
      (∃ cuts : List (Bytes × Char), (∀ cut ∈ cuts, Cut cut.1 cut.2) ∧ s = cuts.flatMap (·.1) ∧
        toUtf16 s = cuts.flatMap (utf16Encode ·.2)) ∧
      ∀ a ch b, s = a ++ String.utf8EncodeChar ch ++ b → toUtf16 s = toUtf16 a ++ utf16Encode ch ++ toUtf16 b := by
  refine ⟨toUtf16_length s, stringBytes_writes h, ?_, ?_, toUtf16_cut s, ?_⟩
  · intro w first second
    simp only [writeString]
    rw [if_neg (by omega), if_pos trivial]
  · rintro chs rfl
    exact toUtf16_valid chs
  · rintro a ch b rfl
    exact toUtf16_around a ch b

/-- A truncated sequence, an overlong one and a character of four bytes. -/
theorem truncated_overlong_supplementary :
    ([0xE2, 0x82, 0xC0, 0x80, 0xF0, 0x9F, 0x98, 0x80] : Bytes).length ≤ 32768 ∧
      (toUtf16 [0xE2, 0x82, 0xC0, 0x80, 0xF0, 0x9F, 0x98, 0x80]).length ≤ 8 ∧
      toUtf16 [0xE2, 0x82, 0xC0, 0x80, 0xF0, 0x9F, 0x98, 0x80] = [0xFFFD, 0xFFFD, 0xD83D, 0xDE00] :=
  ⟨by decide, (minidump_strings _ (by decide)).1, by simp [toUtf16, decodeUtf8, decodeExtra, readContinuation, storeUnits]⟩

end SentryNative.Minidump
