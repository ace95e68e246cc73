import SentryNative.Lib.CNumber

/-!
# Names of cached envelopes

A cached envelope is named by its event id; one that is queued for a retry also
carries a timestamp and the number of failures so far. The names are read back
with `strtoull` and `strtol`.
-/

namespace SentryNative.Retry

open CLib

/-! ## Event ids -/

/-- The sixteen bytes of a `sentry_uuid_t`. -/
abbrev Uuid := Fin 16 → UInt8

instance uuidBytes : NeZero 16 := ⟨by decide⟩

def hexDigit (n : Nat) : UInt8 := UInt8.ofNat (if n < 10 then 48 + n else 87 + n)

/-- `%02hhx`. -/
def hexByte (b : UInt8) : Bytes := [hexDigit (b.toNat / 16), hexDigit (b.toNat % 16)]

/-- `sentry_uuid_as_string`. -/
def Uuid.asString (u : Uuid) : Bytes :=
  hexByte (u 0) ++ hexByte (u 1) ++ hexByte (u 2) ++ hexByte (u 3) ++ 45 ::
    (hexByte (u 4) ++ hexByte (u 5) ++ 45 :: (hexByte (u 6) ++ hexByte (u 7) ++ 45 ::
      (hexByte (u 8) ++ hexByte (u 9) ++ 45 :: (hexByte (u 10) ++ hexByte (u 11) ++
        hexByte (u 12) ++ hexByte (u 13) ++ hexByte (u 14) ++ hexByte (u 15)))))

@[simp] theorem asString_length (u : Uuid) : u.asString.length = 36 := rfl

theorem hexDigit_toNat {n : Nat} (h : n < 16) :
    (hexDigit n).toNat = if n < 10 then 48 + n else 87 + n := by
  have hlt : (if n < 10 then 48 + n else 87 + n) < 256 := by split <;> omega
  simp only [hexDigit, UInt8.toNat_ofNat']
  exact Nat.mod_eq_of_lt hlt

theorem hexDigit_ne {n : Nat} (h : n < 16) : hexDigit n ≠ 45 ∧ hexDigit n ≠ 0 := by
  have ht := hexDigit_toNat h
  constructor
  · intro e
    rw [e] at ht
    simp at ht
    split at ht <;> omega
  · intro e
    rw [e] at ht
    simp at ht
    split at ht <;> omega

theorem hexDigit_inj {m n : Nat} (hm : m < 16) (hn : n < 16) (h : hexDigit m = hexDigit n) :
    m = n := by
  have ht := congrArg UInt8.toNat h
  rw [hexDigit_toNat hm, hexDigit_toNat hn] at ht
  split at ht <;> split at ht <;> omega

theorem hi_lt (b : UInt8) : b.toNat / 16 < 16 := by
  have hb : b.toNat < 256 := b.toNat_lt
  omega

theorem lo_lt (b : UInt8) : b.toNat % 16 < 16 := Nat.mod_lt _ (by decide)

theorem hexByte_ne {b c : UInt8} (h : c ∈ hexByte b) : c ≠ 45 ∧ c ≠ 0 := by
  rcases List.mem_cons.mp h with rfl | h
  · exact hexDigit_ne (hi_lt b)
  · rw [List.mem_singleton.mp h]
    exact hexDigit_ne (lo_lt b)

theorem hexByte_inj {b c : UInt8} (h : hexByte b = hexByte c) : b = c := by
  simp only [hexByte, List.cons.injEq, and_true] at h
  have hhi := hexDigit_inj (hi_lt b) (hi_lt c) h.1
  have hlo := hexDigit_inj (lo_lt b) (lo_lt c) h.2
  apply UInt8.toNat_inj.mp
  omega

theorem asString_ne_zero (u : Uuid) : 0 ∉ u.asString := by
  intro h
  simp only [Uuid.asString, List.mem_append, List.mem_cons] at h
  have hz : ∀ b, (0 : UInt8) ∉ hexByte b := fun b hb => (hexByte_ne hb).2 rfl
  simp [hz] at h

/-- An event id up to its first dash, and the three bytes after it. -/
theorem asString_dash (u : Uuid) : ∃ h a b c t, u.asString = h ++ 45 :: a :: b :: c :: t ∧
    45 ∉ h ∧ c ≠ 45 := by
  refine ⟨hexByte (u 0) ++ hexByte (u 1) ++ hexByte (u 2) ++ hexByte (u 3), _, _, _, _, rfl, ?_,
    (hexDigit_ne (hi_lt (u 5))).1⟩
  have hz : ∀ b, (45 : UInt8) ∉ hexByte b := fun b hb => (hexByte_ne hb).1 rfl
  simp only [List.mem_append, hz, or_self, not_false_eq_true]

/-! ## Names -/

/-- `.envelope` -/
def extension : Bytes := [46, 101, 110, 118, 101, 108, 111, 112, 101]

/-- `%02d` of a count that is not negative. -/
def pad2 (n : Nat) : Bytes := if n < 10 then 48 :: printNat n else printNat n

/-- `sentry__run_make_cache_path`, the last part of the path. The 128 bytes of
the buffer are enough for any timestamp and count. -/
def makeCachePath (ts : Nat) (count : Int) (uuid : Bytes) : Bytes :=
  if 0 ≤ count then
    printNat ts ++ 45 :: (pad2 count.toNat ++ 45 :: ((cstr uuid).take 36 ++ extension))
  else (cstr uuid).take 36 ++ extension

structure CacheName where
  ts : Nat
  count : Int
  uuid : Bytes
  deriving DecidableEq, Repr

/-- The conversion from `long` to `int`. -/
def toInt (n : Int) : Int := n.bmod (2 ^ 32)

/-- `sentry__parse_cache_filename`. The event id is what the caller copies, the
36 bytes before the extension. -/
def parseCacheFilename (filename : Bytes) : Option CacheName :=
  if filename.length = 36 + 9 ∧ filename.drop 36 = extension then
    some ⟨0, -1, filename.take 36⟩
  else if filename.length ≤ 45 then none
  else
    let ts := strtoull filename
    match ts.rest with
    | 45 :: countStr =>
      let count := strtoll countStr
      match count.rest with
      | 45 :: uuid =>
        if count.value < 0 ∨ uuid.length ≠ 36 + 9 ∨ uuid.drop 36 ≠ extension then none
        else some ⟨ts.value.toNat, toInt count.value, uuid.take 36⟩
      | _ => none
    | _ => none

theorem toInt_of_lt {n : Nat} (h : n < 2 ^ 31) : toInt n = n := by
  simp only [toInt, Int.bmod]
  omega

theorem noDigitHead_dash (r : Bytes) : NoDigitHead (45 :: r) := by
  intro c hc
  simp only [List.head?_cons, Option.mem_def, Option.some.injEq] at hc
  subst hc
  decide

section

variable {uuid : Bytes}

theorem cstr_take_uuid (h0 : 0 ∉ uuid) (h36 : uuid.length = 36) : (cstr uuid).take 36 = uuid := by
  rw [cstr_of_not_mem h0]
  exact List.take_of_length_le (by omega)

theorem makeCachePath_retry (ts n : Nat) (h0 : 0 ∉ uuid) (h36 : uuid.length = 36) :
    makeCachePath ts n uuid = printNat ts ++ 45 :: (pad2 n ++ 45 :: (uuid ++ extension)) := by
  rw [makeCachePath, if_pos (by omega), cstr_take_uuid h0 h36, Int.toNat_natCast]

theorem makeCachePath_plain (ts : Nat) {count : Int} (hcount : count < 0) (h0 : 0 ∉ uuid) (h36 : uuid.length = 36) :
    makeCachePath ts count uuid = uuid ++ extension := by
  rw [makeCachePath, if_neg (by omega), cstr_take_uuid h0 h36]

end

theorem makeCachePath_uuid (ts n : Nat) (u : Uuid) : makeCachePath ts n u.asString =
    printNat ts ++ 45 :: (pad2 n ++ 45 :: (u.asString ++ extension)) :=
  makeCachePath_retry ts n (asString_ne_zero u) (asString_length u)

theorem makeCachePath_bare (ts : Nat) (u : Uuid) :
    makeCachePath ts (-1) u.asString = u.asString ++ extension :=
  makeCachePath_plain ts (by decide) (asString_ne_zero u) (asString_length u)

theorem isDigit_of_mem_pad2 {n : Nat} {c : UInt8} (h : c ∈ pad2 n) : isDigit c = true := by
  simp only [pad2] at h
  split at h
  · rcases List.mem_cons.mp h with rfl | h
    · rfl
    · exact isDigit_of_mem_printNat h
  · exact isDigit_of_mem_printNat h

theorem pad2_digit {n : Nat} (h : n < 10) : pad2 n = [48, digitByte n] := by
  simp only [pad2, if_pos h, printNat]
  split
  · rename_i h0
    rw [h0]
    rfl
  · rename_i h0
    rw [Nat.digits_of_lt 10 n h0 h]
    rfl

theorem pad2_ne_nil (n : Nat) : pad2 n ≠ [] := by
  simp only [pad2]
  split
  · simp
  · exact printNat_ne_nil n

theorem digitsValue_pad2 (n : Nat) : digitsValue (pad2 n) = n := by
  have h := digitsValue_printNat n
  simp only [pad2]
  split
  · simpa [digitsValue] using h
  · exact h

/-- A name that was made for a retry is read back. -/
theorem parse_retry_name {ts n : Nat} {uuid : Bytes} (h0 : 0 ∉ uuid) (h36 : uuid.length = 36) (hts : ts < 2 ^ 64)
    (hn : n < 2 ^ 31) : parseCacheFilename (makeCachePath ts n uuid) = some ⟨ts, n, uuid⟩ := by
  have hlen : 45 < (makeCachePath ts n uuid).length := by
    have hp : 0 < (pad2 n).length := List.length_pos_iff.mpr (pad2_ne_nil n)
    simp only [makeCachePath_retry ts n h0 h36, List.length_append, List.length_cons, h36, extension, List.length_nil]
    omega
  have hull := strtoull_printNat hts (noDigitHead_dash (pad2 n ++ 45 :: (uuid ++ extension)))
  have hll := strtoll_digits (pad2_ne_nil n) (fun c hc => isDigit_of_mem_pad2 hc)
    (by rw [digitsValue_pad2]; omega) (noDigitHead_dash (uuid ++ extension))
  rw [digitsValue_pad2] at hll
  rw [parseCacheFilename, if_neg (by omega), if_neg (by omega), makeCachePath_retry ts n h0 h36, hull]
  simp only [hll]
  have htail : (uuid ++ extension).length = 36 + 9 := by simp [extension, h36]
  rw [if_neg, toInt_of_lt hn]
  · simp [List.take_left' h36]
  · simp only [not_or, not_not, htail, List.drop_left' h36, and_true]
    omega

/-- A bare name is read back with the count -1. -/
theorem parse_bare_name (ts : Nat) {count : Int} {uuid : Bytes} (hcount : count < 0) (h0 : 0 ∉ uuid)
    (h36 : uuid.length = 36) : parseCacheFilename (makeCachePath ts count uuid) = some ⟨0, -1, uuid⟩ := by
  rw [makeCachePath_plain ts hcount h0 h36, parseCacheFilename, if_pos]
  · rw [List.take_left' h36]
  · exact ⟨by simp [extension, h36], List.drop_left' h36⟩

theorem parse_makeCachePath {ts n : Nat} (u : Uuid) (hts : ts < 2 ^ 64) (hn : n < 2 ^ 31) :
    parseCacheFilename (makeCachePath ts n u.asString) = some ⟨ts, n, u.asString⟩ :=
  parse_retry_name (asString_ne_zero u) (asString_length u) hts hn

theorem parse_bare (u : Uuid) :
    parseCacheFilename (makeCachePath 0 (-1) u.asString) = some ⟨0, -1, u.asString⟩ :=
  parse_bare_name 0 (by decide) (asString_ne_zero u) (asString_length u)

/-! ## Siblings -/

/-- `is_cache_sibling`: other files of an event, whose names start with its id. -/
def isCacheSibling (name uuid : Bytes) : Bool :=
  name.take 36 = uuid.take 36 ∧
    (name[36]? = some 45 ∨ name[36]? = some 46 ∧ name.drop 36 ≠ extension)

theorem eq_of_first_dash {p q x y : Bytes} (hp : 45 ∉ p) (hq : 45 ∉ q)
    (h : p ++ 45 :: x = q ++ 45 :: y) : x = y := by
  have hcut : ∀ {r z : Bytes}, 45 ∉ r → (r ++ 45 :: z).dropWhile (· ≠ 45) = 45 :: z := by
    intro r z hr
    rw [List.dropWhile_append_of_pos fun c hc => by simpa using fun e : c = 45 => hr (e ▸ hc)]
    simp
  have hd := congrArg (List.dropWhile (· ≠ 45)) h
  rw [hcut hp, hcut hq] at hd
  exact (List.cons.inj hd).2

theorem dash_not_digit {ds : Bytes} (h : ∀ c ∈ ds, isDigit c = true) : 45 ∉ ds := by
  intro hd
  have hdig := h 45 hd
  revert hdig
  decide

/-- No file that is queued for a retry is a sibling of another event. -/
theorem makeCachePath_not_sibling (ts : Nat) {n : Nat} (hn : n < 10) (u v : Uuid) :
    isCacheSibling (makeCachePath ts n u.asString) v.asString = false := by
  rw [Bool.eq_false_iff]
  intro h
  simp only [isCacheSibling, decide_eq_true_eq] at h
  obtain ⟨p, a, b, c, t, hv, hp, hc⟩ := asString_dash v
  have htake : v.asString.take 36 = v.asString := List.take_of_length_le (by simp)
  have hname := List.take_append_drop 36 (makeCachePath ts n u.asString)
  rw [h.1, htake, hv, makeCachePath_uuid, List.append_assoc] at hname
  simp only [List.cons_append] at hname
  -- the count has one digit behind its padding, so the third byte after the dash is a dash
  have htail := eq_of_first_dash hp
    (dash_not_digit fun c hc => isDigit_of_mem_printNat (n := ts) hc) hname
  rw [pad2_digit hn] at htail
  simp only [List.cons_append, List.nil_append, List.cons.injEq] at htail
  exact hc htail.2.2.1

end SentryNative.Retry
