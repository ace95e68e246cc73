import SentryNative.Lib.Scan
import SentryNative.Retry.CacheFile

/-!
# Names of cached envelopes, read back

* `cache_names`: a name of either form gives back what it was made from, and no name of an envelope is
  that of a sibling.
-/

namespace SentryNative.Retry

open CLib

/-- An event id of 36 characters that can be part of a file name. -/
structure UuidText (uuid : Bytes) : Prop where
  length : uuid.length = 36
  noNul : 0 ∉ uuid
  noSlash : 47 ∉ uuid

def dashes : List Nat := [8, 13, 18, 23]

/-- Hexadecimal digits with dashes in their places. -/
structure Canonical (uuid : Bytes) : Prop where
  length : uuid.length = 36
  dash : ∀ i ∈ dashes, uuid[i]? = some 45
  digit : ∀ i c, i ∉ dashes → uuid[i]? = some c → isHexDigit c = true

variable {uuid u v : Bytes}

theorem Canonical.not_mem (h : Canonical uuid) {c : UInt8} (hhex : isHexDigit c = false) (hdash : c ≠ 45) : c ∉ uuid := by
  intro hc
  obtain ⟨i, hi⟩ := List.mem_iff_getElem?.1 hc
  by_cases hin : i ∈ dashes
  · exact hdash (Option.some.inj (hi.symm.trans (h.dash i hin)))
  · rw [h.digit i c hin hi] at hhex
    cases hhex

theorem Canonical.text (h : Canonical uuid) : UuidText uuid :=
  ⟨h.length, h.not_mem rfl (by decide), h.not_mem rfl (by decide)⟩

/-- A dash of an event id stands in one of four places. -/
theorem Canonical.place (h : Canonical uuid) {i : Nat} (hi : uuid[i]? = some 45) : i ∈ dashes := by
  by_contra hne
  have hhex := h.digit i 45 hne hi
  cases hhex

/-- A run of digits up to a dash ends where the event id has its next dash. -/
theorem Canonical.run (h : Canonical uuid) (rest : Bytes) {ds : Bytes} {lo hi : Nat} (hds : ∀ c ∈ ds, isDigit c = true)
    (hhi : hi ∈ dashes) (hle : lo ≤ hi) (hnext : ∀ i ∈ dashes, lo ≤ i → hi ≤ i)
    (hstands : ∀ i, lo + i < 36 → uuid[lo + i]? = (ds ++ 45 :: rest)[i]?) : lo + ds.length = hi := by
  have hbound : ∀ i ∈ dashes, i < 36 := by decide
  have hlt := hbound hi hhi
  by_cases hshort : lo + ds.length < hi
  · -- the dash behind the digits stands where the id has none
    have hdash : uuid[lo + ds.length]? = some 45 := by
      rw [hstands _ (by omega), List.getElem?_append_right (Nat.le_refl _), Nat.sub_self, List.getElem?_cons_zero]
    have := hnext _ (h.place hdash) (by omega)
    omega
  · by_contra hlong
    -- the id has a dash where the digits go on
    have hdash := h.dash hi hhi
    have hat := hstands (hi - lo) (by omega)
    rw [Nat.add_sub_cancel' hle, hdash, List.getElem?_append_left (by omega)] at hat
    exact dash_not_digit hds (List.mem_of_getElem? hat.symm)

/-- The name of an envelope is not that of a sibling. -/
theorem Canonical.not_sibling (hu : Canonical u) (hv : Canonical v) (ts : Nat) (count : Int) :
    isCacheSibling (makeCachePath ts count u) v = false := by
  rw [Bool.eq_false_iff]
  intro hsib
  simp only [isCacheSibling, decide_eq_true_eq] at hsib
  obtain ⟨htake, hrest⟩ := hsib
  by_cases hcount : count < 0
  · rw [makeCachePath_plain ts hcount hu.text.noNul hu.length] at hrest
    rw [List.getElem?_append_right (by rw [hu.length]), hu.length, List.drop_left' hu.length] at hrest
    simp [extension] at hrest
  · obtain ⟨n, rfl⟩ := Int.eq_ofNat_of_zero_le (Int.not_lt.1 hcount)
    have hname : makeCachePath ts (Int.ofNat n) u = printNat ts ++ 45 :: (pad2 n ++ 45 :: (u ++ extension)) :=
      makeCachePath_retry ts n hu.text.noNul hu.length
    have hstands (i : Nat) (hi : i < 36) : v[i]? = (printNat ts ++ 45 :: (pad2 n ++ 45 :: (u ++ extension)))[i]? := by
      have hget := congrArg (fun l : Bytes => l[i]?) htake
      simp only [List.getElem?_take_of_lt hi] at hget
      rw [← hget, ← hname]
      rfl
    have hts : 0 + (printNat ts).length = 8 :=
      hv.run (pad2 n ++ 45 :: (u ++ extension)) (fun c hc => isDigit_of_mem_printNat hc) (by decide) (by decide) (by decide)
        fun i hi => by simpa using hstands (0 + i) hi
    rw [Nat.zero_add] at hts
    have hcountLen : 9 + (pad2 n).length = 13 := by
      refine hv.run (u ++ extension) (fun c hc => isDigit_of_mem_pad2 hc) (by decide) (by decide) (by decide)
        fun i hi => ?_
      rw [hstands (9 + i) hi, List.getElem?_append_right (by omega), hts, show 9 + i - 8 = i + 1 by omega,
        List.getElem?_cons_succ]
    -- the third dash of one id is the fifth digit of the other
    have hdash := hv.dash 18 (by decide)
    rw [hstands 18 (by decide), List.getElem?_append_right (by omega), hts, List.getElem?_cons_succ,
      List.getElem?_append_right (by omega), show 9 - (pad2 n).length = 4 + 1 by omega, List.getElem?_cons_succ,
      List.getElem?_append_left (by rw [hu.length]; decide)] at hdash
    exact absurd (hu.place hdash) (by decide)

/-- The file names of cached envelopes are read back exactly, the two forms are never confused, and neither is
taken for a sibling. -/
theorem cache_names :
    (∀ (ts n : Nat) (uuid : Bytes), UuidText uuid → ts < 2 ^ 64 → n < 2 ^ 31 →
      parseCacheFilename (makeCachePath ts n uuid) = some ⟨ts, n, uuid⟩) ∧
    (∀ (ts : Nat) (count : Int) (uuid : Bytes), UuidText uuid → count < 0 →
      parseCacheFilename (makeCachePath ts count uuid) = some ⟨0, -1, uuid⟩) ∧
    (∀ (ts ts' n : Nat) (count : Int) (uuid uuid' : Bytes), UuidText uuid → UuidText uuid' → ts < 2 ^ 64 →
      n < 2 ^ 31 → count < 0 → makeCachePath ts n uuid ≠ makeCachePath ts' count uuid') ∧
    ∀ (ts : Nat) (count : Int) (u v : Bytes), Canonical u → Canonical v →
      isCacheSibling (makeCachePath ts count u) v = false := by
  refine ⟨fun ts n uuid h hts hn => parse_retry_name h.noNul h.length hts hn,
    fun ts count uuid h hcount => parse_bare_name ts hcount h.noNul h.length, ?_,
    fun ts count u v hu hv => hu.not_sibling hv ts count⟩
  intro ts ts' n count uuid uuid' h h' hts hn hcount heq
  have hretry := parse_retry_name h.noNul h.length hts hn
  rw [heq, parse_bare_name ts' hcount h'.noNul h'.length] at hretry
  have hbad := congrArg CacheName.count (Option.some.inj hretry)
  simp only at hbad
  omega

/-- `12345678-1234-1234-1234-123456789abc` -/
def sampleId : Bytes :=
  [49, 50, 51, 52, 53, 54, 55, 56, 45, 49, 50, 51, 52, 45, 49, 50, 51, 52, 45, 49, 50, 51, 52, 45,
    49, 50, 51, 52, 53, 54, 55, 56, 57, 97, 98, 99]

/-- A time and a count that look like the first two parts of an event id. -/
theorem cache_names_sample : isCacheSibling (makeCachePath 12345678 1234 sampleId) sampleId = false := by
  have hcanonical : Canonical sampleId := by
    refine ⟨rfl, by decide, fun i c hi hc => ?_⟩
    obtain ⟨hlt, rfl⟩ := List.getElem?_eq_some_iff.1 hc
    have hall : ∀ i (h : i < sampleId.length), i ∉ dashes → isHexDigit sampleId[i] = true := by decide
    exact hall i hlt hi
  exact cache_names.2.2.2 12345678 1234 sampleId sampleId hcanonical hcanonical

end SentryNative.Retry
