import SentryNative.Breadcrumb.RingFile
import SentryNative.Lib.Scan

/-!
# Timestamps

`sentry__iso8601_to_usec` reads what `sentry__usec_time_to_iso8601` writes. It takes texts of two lengths
only, those of a year with four digits; the writer goes on to the year 10900.

* `scanSeconds_text`: the fields are read back;
* `timestamp_round_trip`: the time is, up to the year 9999; and the texts are in the order of the times.
-/

namespace SentryNative.Utils

open CLib
open Breadcrumb (usecTimeToIso8601)

/-- `%d-%d-%dT%d:%d:%d`, and the text that is left. -/
def scanSeconds (iso : Bytes) : Option (Broken × Bytes) := do
  let (year, s) ← scanInt iso
  let s ← scanChar 45 s
  let (month, s) ← scanInt s
  let s ← scanChar 45 s
  let (day, s) ← scanInt s
  let s ← scanChar 84 s
  let (hour, s) ← scanInt s
  let s ← scanChar 58 s
  let (minute, s) ← scanInt s
  let s ← scanChar 58 s
  let (second, s) ← scanInt s
  return (⟨year, month, day, hour, minute, second⟩, s)

/-- The microseconds, where there are any, and the text that is left. -/
def scanFraction (iso : Bytes) : Option (Int × Bytes) :=
  if iso.head? = some 46 then
    match scanInt iso.tail with
    | none => none
    | some (usec, s) => if iso.length - s.length ≠ 7 then none else some (usec, s)
  else some (0, iso)

/-- `sentry__iso8601_to_usec`; the length of a null pointer is 0. -/
def iso8601ToUsec (iso : Option Bytes) : UInt64 :=
  let iso := cstr (iso.getD [])
  if iso.length ≠ 20 ∧ iso.length ≠ 27 then 0
  else
    match scanSeconds iso with
    | none => 0
    | some (tm, s) =>
      if iso.length - s.length ≠ 19 then 0
      else
        match scanFraction s with
        | none => 0
        | some (usec, s) =>
          if s.head? ≠ some 90 then 0
          else
            let time := timegm tm
            if time = -1 then 0 else UInt64.ofInt (time * 1000000 + usec)

/-! ## Reading what was written -/

theorem scanInt_printPadded (w n : Nat) {r : Bytes} (hr : NoDigitHead r) :
    scanInt (printPadded w n ++ r) = some ((n : Int), r) := by
  rw [scanInt_digits (printPadded_ne_nil w n) (fun _ => isDigit_of_mem_printPadded) hr, digitsValue_printPadded]

theorem scanInt_printNat (n : Nat) {r : Bytes} (hr : NoDigitHead r) : scanInt (printNat n ++ r) = some ((n : Int), r) := by
  rw [scanInt_digits (printNat_ne_nil n) (fun _ => isDigit_of_mem_printNat) hr, digitsValue_printNat]

theorem noDigitHead_cons {c : UInt8} (h : isDigit c = false) (s : Bytes) : NoDigitHead (c :: s) := by
  intro d hd
  rw [List.head?_cons, Option.mem_def, Option.some.injEq] at hd
  rwa [← hd]

theorem scanSeconds_text (tm : Tm) {r : Bytes} (hr : NoDigitHead r) :
    scanSeconds (strftimeSeconds tm ++ r) = some (tm.broken, r) := by
  simp only [strftimeSeconds, List.append_assoc, List.cons_append, List.nil_append]
  unfold scanSeconds
  rw [scanInt_printNat _ (noDigitHead_cons rfl _)]
  simp only [Option.bind_eq_bind, Option.bind_some, scanChar, ↓reduceIte]
  rw [scanInt_printPadded _ _ (noDigitHead_cons rfl _)]
  simp only [Option.bind_some, ↓reduceIte]
  rw [scanInt_printPadded _ _ (noDigitHead_cons rfl _)]
  simp only [Option.bind_some, ↓reduceIte]
  rw [scanInt_printPadded _ _ (noDigitHead_cons rfl _)]
  simp only [Option.bind_some, ↓reduceIte]
  rw [scanInt_printPadded _ _ (noDigitHead_cons rfl _)]
  simp only [Option.bind_some, ↓reduceIte]
  rw [scanInt_printPadded _ _ hr]
  rfl

/-- What is behind the seconds, before the `Z`. -/
def fractionText (usecs : Nat) : Bytes := if usecs ≠ 0 then 46 :: printPadded 6 usecs else []

theorem scanFraction_text {usecs : Nat} (h : usecs < 1000000) :
    scanFraction (fractionText usecs ++ [90]) = some ((usecs : Int), [90]) := by
  unfold fractionText
  split
  · have hlength : (46 :: printPadded 6 usecs ++ [90]).length = 8 := by
      rw [List.cons_append, List.length_cons, List.length_append, length_printPadded (by decide) h]
      rfl
    have hhead : (46 :: printPadded 6 usecs ++ [90]).head? = some 46 := rfl
    have htail : (46 :: printPadded 6 usecs ++ [90]).tail = printPadded 6 usecs ++ [90] := rfl
    rw [scanFraction, hlength, if_pos hhead, htail, scanInt_printPadded _ _ (noDigitHead_cons rfl _)]
    rfl
  · rename_i hzero
    rw [not_not.mp hzero]
    rfl

theorem fractionText_length {usecs : Nat} (h : usecs < 1000000) :
    (fractionText usecs).length = if usecs ≠ 0 then 7 else 0 := by
  unfold fractionText
  split
  · rw [List.length_cons, length_printPadded (by decide) h]
  · rfl

theorem noDigitHead_fraction (usecs : Nat) : NoDigitHead (fractionText usecs ++ [90]) := by
  unfold fractionText
  split
  · exact noDigitHead_cons rfl _
  · exact noDigitHead_cons rfl _

/-- The text of a time. -/
theorem usecTimeToIso8601_some {t : UInt64} {s : Bytes} (h : usecTimeToIso8601 t = some s) :
    s = strftimeSeconds (gmtime (t.toNat / 1000000)) ++ (fractionText (t.toNat % 1000000) ++ [90]) ∧
      (gmtime (t.toNat / 1000000)).year ≤ 10900 := by
  unfold usecTimeToIso8601 at h
  simp only at h
  split at h
  · cases h
  · rename_i hyear
    refine ⟨?_, by omega⟩
    rw [← Option.some.inj h, List.append_assoc]
    rfl

/-! ## Years -/

theorem gmtime_year_mono {a b : Nat} (h : a ≤ b) : (gmtime a).year ≤ (gmtime b).year := by
  obtain rfl | hlt := Nat.eq_or_lt_of_le h
  · exact Nat.le_refl _
  · obtain hyear | ⟨hyear, -⟩ := gmtime_before hlt <;> omega

/-- The first second with a year of five digits. -/
def fiveDigits : Nat := 253402300800

theorem year_lt_iff (secs : Nat) : (gmtime secs).year < 10000 ↔ secs < fiveDigits := by
  have hlast : (gmtime 253402300799).year = 9999 := by decide +kernel
  have hfirst : (gmtime fiveDigits).year = 10000 := by decide +kernel
  constructor
  · intro hyear
    by_contra hge
    have := gmtime_year_mono (Nat.le_of_not_lt hge)
    omega
  · intro hsecs
    have := gmtime_year_mono (show secs ≤ 253402300799 by unfold fiveDigits at hsecs; omega)
    omega

theorem year_ge (secs : Nat) : 1970 ≤ (gmtime secs).year := by
  have hfirst : (gmtime 0).year = 1970 := by decide +kernel
  have := gmtime_year_mono (Nat.zero_le secs)
  omega

theorem printNat_year_length {year : Nat} (hlow : 1970 ≤ year) (hhigh : year ≤ 10900) :
    (printNat year).length = if year < 10000 then 4 else 5 := by
  have hdigits : ∀ w, 0 < w → ((printNat year).length ≤ w ↔ year < 10 ^ w) := by
    intro w hw
    unfold printNat
    rw [if_neg (by omega), List.length_map, List.length_reverse]
    exact Nat.digits_length_le_iff (by decide) year
  have h3 := hdigits 3 (by decide)
  have h4 := hdigits 4 (by decide)
  have h5 := hdigits 5 (by decide)
  split <;> omega

/-! ## Both ways -/

/-- The length of the text of a time. -/
theorem text_length {t : UInt64} {s : Bytes} (h : usecTimeToIso8601 t = some s) :
    s.length = (if t.toNat / 1000000 < fiveDigits then 4 else 5) + 16 + if t.toNat % 1000000 ≠ 0 then 7 else 0 := by
  obtain ⟨htext, hyear⟩ := usecTimeToIso8601_some h
  have hdigits := printNat_year_length (year_ge (t.toNat / 1000000)) hyear
  simp only [year_lt_iff] at hdigits
  rw [htext, List.length_append, List.length_append, length_strftimeSeconds (gmtime_ranged _), hdigits,
    fractionText_length (Nat.mod_lt _ (by decide)), List.length_singleton]
  omega

theorem zero_not_mem_text {t : UInt64} {s : Bytes} (h : usecTimeToIso8601 t = some s) : 0 ∉ s := by
  rw [(usecTimeToIso8601_some h).1, List.mem_append, List.mem_append]
  have hfraction : 0 ∉ fractionText (t.toNat % 1000000) := by
    unfold fractionText
    split <;> simp [zero_not_mem_printPadded]
  simp [zero_not_mem_strftimeSeconds, hfraction]

theorem iso8601ToUsec_text {t : UInt64} {s : Bytes} (h : usecTimeToIso8601 t = some s) :
    iso8601ToUsec (some s) = if t.toNat / 1000000 < fiveDigits then t else 0 := by
  have hlength := text_length h
  unfold iso8601ToUsec
  simp only [Option.getD_some, cstr_of_not_mem (zero_not_mem_text h)]
  by_cases hfour : t.toNat / 1000000 < fiveDigits
  · rw [if_pos hfour] at hlength ⊢
    have husecs : t.toNat % 1000000 < 1000000 := Nat.mod_lt _ (by decide)
    have hrest : (fractionText (t.toNat % 1000000) ++ [90]).length = s.length - 19 := by
      rw [List.length_append, List.length_singleton, fractionText_length husecs, hlength]
      omega
    have hread : scanSeconds s = some ((gmtime (t.toNat / 1000000)).broken, fractionText (t.toNat % 1000000) ++ [90]) := by
      rw [(usecTimeToIso8601_some h).1]
      exact scanSeconds_text _ (noDigitHead_fraction _)
    have hlong : 19 ≤ s.length := by omega
    have hnot : ¬(s.length ≠ 20 ∧ s.length ≠ 27) := by
      split at hlength <;> omega
    have hvalue : UInt64.ofInt (((t.toNat / 1000000 : Nat) : Int) * 1000000 + ((t.toNat % 1000000 : Nat) : Int)) = t := by
      have hnat : ((t.toNat / 1000000 : Nat) : Int) * 1000000 + ((t.toNat % 1000000 : Nat) : Int) = (t.toNat : Int) := by
        omega
      have hmod : (t.toNat : Int) % 2 ^ 64 = t.toNat := Int.emod_eq_of_lt (by omega) (by have := t.toNat_lt; omega)
      rw [hnat, UInt64.ofInt, hmod, Int.toNat_natCast, UInt64.ofNat_toNat]
    have htime : ((t.toNat / 1000000 : Nat) : Int) ≠ -1 := by omega
    rw [if_neg hnot, hread]
    simp only [hrest, scanFraction_text husecs, timegm_gmtime, hvalue]
    rw [if_neg (by omega), if_neg (by simp), if_neg htime]
  · rw [if_neg hfour] at hlength ⊢
    rw [if_pos]
    split at hlength <;> omega

/-- Times with texts of one length have their texts in their order. -/
theorem strcmp_text {t u : UInt64} {s r : Bytes} (hs : usecTimeToIso8601 t = some s) (hr : usecTimeToIso8601 u = some r)
    (hlen : r.length = s.length) (h : t < u) : strcmp s r < 0 := by
  have hlt : t.toNat < u.toNat := UInt64.lt_iff_toNat_lt.mp h
  have hslen := text_length hs
  have hrlen := text_length hr
  obtain ⟨hstext, hsyear⟩ := usecTimeToIso8601_some hs
  obtain ⟨hrtext, hryear⟩ := usecTimeToIso8601_some hr
  rw [hstext, hrtext]
  have hfraction : t.toNat % 1000000 ≠ 0 ↔ u.toNat % 1000000 ≠ 0 := by
    split at hslen <;> split at hslen <;> split at hrlen <;> split at hrlen <;> omega
  have hwidth : t.toNat / 1000000 < fiveDigits ↔ u.toNat / 1000000 < fiveDigits := by
    split at hslen <;> split at hslen <;> split at hrlen <;> split at hrlen <;> omega
  by_cases hsecs : t.toNat / 1000000 = u.toNat / 1000000
  · have husecs : t.toNat % 1000000 < u.toNat % 1000000 := by omega
    rw [hsecs, strcmp_append]
    simp only [fractionText, if_pos (show t.toNat % 1000000 ≠ 0 by omega), if_pos (show u.toNat % 1000000 ≠ 0 by omega)]
    rw [List.cons_append, List.cons_append, strcmp, if_pos rfl]
    exact strcmp_printPadded (by decide) (Nat.mod_lt _ (by decide)) (Nat.mod_lt _ (by decide)) (.inl husecs)
  · have hdigits : (printNat (gmtime (t.toNat / 1000000)).year).length = (printNat (gmtime (u.toNat / 1000000)).year).length := by
      rw [printNat_year_length (year_ge _) hsyear, printNat_year_length (year_ge _) hryear]
      simp only [year_lt_iff, hwidth]
    exact strcmp_strftimeSeconds (gmtime_ranged _) (gmtime_ranged _) hdigits (gmtime_before (by omega)) _ _

/-- A time that has a text is read back from it just when its year has four digits; and texts of one length are in
the order of their times. -/
theorem timestamp_round_trip (t : UInt64) (s : Bytes) (h : usecTimeToIso8601 t = some s) :
    (iso8601ToUsec (some s) = t ↔ t.toNat < 253402300800000000) ∧
      ∀ u r, usecTimeToIso8601 u = some r → r.length = s.length →
        (strcmp s r < 0 ↔ t < u) ∧ (strcmp s r = 0 ↔ t = u) := by
  refine ⟨?_, fun u r hr hlen => ?_⟩
  · rw [iso8601ToUsec_text h]
    unfold fiveDigits
    split
    · exact iff_of_true rfl (by omega)
    · refine iff_of_false ?_ (by omega)
      rintro rfl
      rename_i hlate
      exact hlate (by decide)
  · have hcases : t < u ∨ t = u ∨ u < t := by
      rw [UInt64.lt_iff_toNat_lt, UInt64.lt_iff_toNat_lt, ← UInt64.toNat_inj]
      omega
    have hlt : ∀ {a b : UInt64}, a < b → ¬ b < a ∧ a ≠ b := by
      intro a b hab
      rw [UInt64.lt_iff_toNat_lt] at hab
      rw [UInt64.lt_iff_toNat_lt, ne_eq, ← UInt64.toNat_inj]
      omega
    obtain hearlier | rfl | hlater := hcases
    · have hneg := strcmp_text h hr hlen hearlier
      exact ⟨iff_of_true hneg hearlier, iff_of_false (Int.ne_of_lt hneg) (hlt hearlier).2⟩
    · rw [h] at hr
      obtain rfl := Option.some.inj hr
      have hself : ¬ t < t := fun hself => (hlt hself).1 hself
      rw [strcmp_self]
      exact ⟨iff_of_false (by decide) hself, iff_of_true rfl rfl⟩
    · have hneg := strcmp_text hr h hlen.symm hlater
      have hswap := strcmp_swap r s
      exact ⟨iff_of_false (by omega) (hlt hlater).1, iff_of_false (by omega) (Ne.symm (hlt hlater).2)⟩

/-- The tenth second of the epoch. -/
theorem timestamp_round_trip_epoch : iso8601ToUsec (some (ascii "1970-01-01T00:00:10Z")) = 10000000 :=
  (timestamp_round_trip 10000000 (ascii "1970-01-01T00:00:10Z") (by decide +kernel)).1.2 (by decide)

/-- The first text with a year of five digits is refused. -/
theorem timestamp_five_digits :
    usecTimeToIso8601 253402300800000000 = some (ascii "10000-01-01T00:00:00Z") ∧
      iso8601ToUsec (some (ascii "10000-01-01T00:00:00Z")) = 0 :=
  ⟨by decide +kernel, by decide +kernel⟩

end SentryNative.Utils
