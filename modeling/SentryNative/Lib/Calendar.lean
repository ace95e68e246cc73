import Mathlib.Data.Nat.Digits.Lemmas
import SentryNative.Lib.CNumber

/-!
# Calendar time of the C library

`gmtime` for times from the epoch on, the conversions of `strftime` that print its fields,
and `timegm`.

* `timegm_gmtime`: the two are inverse;
* `civil_lt`: later days have later dates.
-/

namespace CLib

/-- `struct tm`, with the year and the month as they are printed. -/
structure Tm where
  year : Nat
  month : Nat
  day : Nat
  hour : Nat
  minute : Nat
  second : Nat
  deriving DecidableEq, Repr

/-- Year, month and day of a day since the epoch in the Gregorian calendar. Years are counted
from March on, in eras of 400. -/
def civilFromDays (days : Nat) : Nat × Nat × Nat :=
  let z := days + 719468
  let dayOfEra := z % 146097
  let yearOfEra := (dayOfEra - dayOfEra / 1460 + dayOfEra / 36524 - dayOfEra / 146096) / 365
  let dayOfYear := dayOfEra - (365 * yearOfEra + yearOfEra / 4 - yearOfEra / 100)
  let m := (5 * dayOfYear + 2) / 153
  let month := if m < 10 then m + 3 else m - 9
  let year := yearOfEra + z / 146097 * 400 + if month ≤ 2 then 1 else 0
  (year, month, dayOfYear - (153 * m + 2) / 5 + 1)

/-- `gmtime_r`. -/
def gmtime (secs : Nat) : Tm :=
  let (year, month, day) := civilFromDays (secs / 86400)
  { year, month, day, hour := secs / 3600 % 24, minute := secs / 60 % 60, second := secs % 60 }

/-- `%0wd` of a number that is not negative. -/
def printPadded (w n : Nat) : Bytes :=
  List.replicate (w - (printNat n).length) 48 ++ printNat n

/-- `strftime` with `%Y-%m-%dT%H:%M:%S`. -/
def strftimeSeconds (tm : Tm) : Bytes :=
  printNat tm.year ++ [45] ++ printPadded 2 tm.month ++ [45] ++ printPadded 2 tm.day ++ [84] ++
    printPadded 2 tm.hour ++ [58] ++ printPadded 2 tm.minute ++ [58] ++ printPadded 2 tm.second

/-- The last second before 1 March 2024. -/
example : gmtime 1709251199 = ⟨2024, 2, 29, 23, 59, 59⟩ := by decide

/-- The days from the epoch to a day of a month. -/
def daysFromCivil (year month day : Int) : Int :=
  let y := if month ≤ 2 then year - 1 else year
  365 * y + y / 4 - y / 100 + y / 400 + (153 * ((month + 9) % 12) + 2) / 5 + (day - 1) - 719468

/-- A broken-down time as `sscanf` reads it. -/
structure Broken where
  year : Int
  month : Int
  day : Int
  hour : Int
  minute : Int
  second : Int
  deriving DecidableEq, Repr

/-- `timegm`. Fields that are out of their range are carried over. -/
def timegm (b : Broken) : Int :=
  let months := 12 * b.year + (b.month - 1)
  (daysFromCivil (months / 12) (months % 12 + 1) 1 + (b.day - 1)) * 86400 + b.hour * 3600 + b.minute * 60 + b.second

def Tm.broken (tm : Tm) : Broken := ⟨tm.year, tm.month, tm.day, tm.hour, tm.minute, tm.second⟩

/-- Two texts that agree up to some point are compared from there on. -/
theorem strcmp_append (p a b : Bytes) : strcmp (p ++ a) (p ++ b) = strcmp a b := by
  induction p with
  | nil => rfl
  | cons c p ih => simpa [strcmp] using ih

/-! ## Years from March on -/

theorem day_of_era {doe : Nat} (h : doe < 146097) :
    ∃ s q t r, s ≤ 3 ∧ q ≤ 24 ∧ t ≤ 3 ∧ doe = 36524 * s + 1461 * q + 365 * t + r ∧
      (r ≤ 364 ∨ r = 365 ∧ t = 3 ∧ (q < 24 ∨ s = 3)) := by
  obtain ⟨s, u, hs, hdoe, hu⟩ : ∃ s u, s ≤ 3 ∧ doe = 36524 * s + u ∧ (u < 36524 ∨ u = 36524 ∧ s = 3) :=
    ⟨min (doe / 36524) 3, doe - 36524 * min (doe / 36524) 3, by omega, by omega, by omega⟩
  obtain ⟨q, v, hq, hu', hv⟩ : ∃ q v, q ≤ 24 ∧ u = 1461 * q + v ∧ (v < 1460 ∨ v = 1460 ∧ (q < 24 ∨ s = 3)) :=
    ⟨u / 1461, u % 1461, by omega, by omega, by omega⟩
  exact ⟨s, q, min (v / 365) 3, v - 365 * min (v / 365) 3, hs, hq, by omega, by omega, by omega⟩

theorem year_of_era {s q t r doe : Nat} (hs : s ≤ 3) (hq : q ≤ 24) (ht : t ≤ 3)
    (hdoe : doe = 36524 * s + 1461 * q + 365 * t + r) (hr : r ≤ 364 ∨ r = 365 ∧ t = 3 ∧ (q < 24 ∨ s = 3)) :
    (doe - doe / 1460 + doe / 36524 - doe / 146096) / 365 = 100 * s + 4 * q + t := by
  have h1 : doe / 1460 = 25 * s + q + if 1460 ≤ 24 * s + q + 365 * t + r then 1 else 0 := by
    split <;> omega
  have h2 : doe / 36524 = s ∧ doe / 146096 = 0 ∨ doe / 36524 = s + 1 ∧ doe / 146096 = 1 := by
    by_cases hlast : q = 24 ∧ r = 365
    · obtain ⟨rfl, rfl⟩ := hlast
      right
      omega
    · left
      have hsmall : 1461 * q + 365 * t + r < 36524 := by omega
      omega
  have hfold : doe - doe / 1460 + doe / 36524 - doe / 146096 = doe - doe / 1460 + s := by
    omega
  rw [hfold, h1]
  split <;> omega


/-- The days before the first of March of a year, in years that are counted from March on. -/
def yearStart (y : Nat) : Nat := 365 * y + y / 4 + y / 400 - y / 100

def fromMarch (y dayOfYear : Nat) : Nat × Nat × Nat :=
  let m := (5 * dayOfYear + 2) / 153
  let month := if m < 10 then m + 3 else m - 9
  (y + if month ≤ 2 then 1 else 0, month, dayOfYear - (153 * m + 2) / 5 + 1)

theorem yearStart_eq {s q t : Nat} (hq : q ≤ 24) (ht : t ≤ 3) (hs : s ≤ 3) (era : Nat) :
    yearStart (100 * s + 4 * q + t + era * 400) = 146097 * era + (36524 * s + 1461 * q + 365 * t) := by
  have h4 : (100 * s + 4 * q + t + era * 400) / 4 = 25 * s + q + 100 * era := by omega
  have h100 : (100 * s + 4 * q + t + era * 400) / 100 = s + 4 * era := by omega
  have h400 : (100 * s + 4 * q + t + era * 400) / 400 = era := by omega
  unfold yearStart
  omega

theorem yearStart_succ (y : Nat) :
    yearStart (y + 1) = yearStart y + if 4 ∣ y + 1 ∧ (¬ 100 ∣ y + 1 ∨ 400 ∣ y + 1) then 366 else 365 := by
  have hle : y / 100 ≤ y / 4 := by omega
  unfold yearStart
  by_cases h4 : 4 ∣ y + 1
  · have e4 : (y + 1) / 4 = y / 4 + 1 := by omega
    by_cases h100 : 100 ∣ y + 1
    · have e100 : (y + 1) / 100 = y / 100 + 1 := by omega
      by_cases h400 : 400 ∣ y + 1
      · have e400 : (y + 1) / 400 = y / 400 + 1 := by omega
        rw [if_pos ⟨h4, .inr h400⟩, e4, e100, e400]
        omega
      · have e400 : (y + 1) / 400 = y / 400 := by omega
        rw [if_neg fun h => h.2.elim (· h100) h400, e4, e100, e400]
        omega
    · have e100 : (y + 1) / 100 = y / 100 := by omega
      have e400 : (y + 1) / 400 = y / 400 := by omega
      rw [if_pos ⟨h4, .inl h100⟩, e4, e100, e400]
      omega
  · have e4 : (y + 1) / 4 = y / 4 := by omega
    have e100 : (y + 1) / 100 = y / 100 := by omega
    have e400 : (y + 1) / 400 = y / 400 := by omega
    rw [if_neg fun h => h4 h.1, e4, e100, e400]
    omega

theorem yearStart_mono {y y' : Nat} (h : y ≤ y') : yearStart y ≤ yearStart y' := by
  induction h with
  | refl => exact Nat.le_refl _
  | step h ih =>
    rw [Nat.succ_eq_add_one, yearStart_succ]
    omega

theorem era_start {s q t : Nat} (hs : s ≤ 3) (hq : q ≤ 24) (ht : t ≤ 3) :
    365 * (100 * s + 4 * q + t) + (100 * s + 4 * q + t) / 4 - (100 * s + 4 * q + t) / 100 =
      36524 * s + 1461 * q + 365 * t := by
  have h4 : (100 * s + 4 * q + t) / 4 = 25 * s + q := by omega
  have h100 : (100 * s + 4 * q + t) / 100 = s := by omega
  rw [h4, h100]
  omega

theorem leap_last {s q : Nat} (hs : s ≤ 3) (hq : q ≤ 24) (hlast : q < 24 ∨ s = 3) (era : Nat) :
    4 ∣ 100 * s + 4 * q + 3 + era * 400 + 1 ∧
      (¬ 100 ∣ 100 * s + 4 * q + 3 + era * 400 + 1 ∨ 400 ∣ 100 * s + 4 * q + 3 + era * 400 + 1) := by
  refine ⟨by omega, ?_⟩
  obtain hshort | rfl := hlast
  · exact .inl (by omega)
  · by_cases hfull : q = 24
    · exact .inr (by omega)
    · exact .inl (by omega)

/-- A day is a year from March on and a day in it. -/
theorem civil_march (days : Nat) :
    ∃ y r, days + 719468 = yearStart y + r ∧ yearStart y + r < yearStart (y + 1) ∧
      civilFromDays days = fromMarch y r := by
  have hz := Nat.div_add_mod (days + 719468) 146097
  have hlt := Nat.mod_lt (days + 719468) (show 0 < 146097 by decide)
  simp only [civilFromDays]
  generalize (days + 719468) / 146097 = era at *
  generalize (days + 719468) % 146097 = doe at *
  obtain ⟨s, q, t, r, hs, hq, ht, hdoe, hr⟩ := day_of_era hlt
  have hfirst := yearStart_eq hq ht hs era
  have hday : doe - (36524 * s + 1461 * q + 365 * t) = r := by omega
  refine ⟨100 * s + 4 * q + t + era * 400, r, by omega, ?_, ?_⟩
  · rw [yearStart_succ]
    obtain hshort | ⟨rfl, rfl, hlast⟩ := hr
    · split <;> omega
    · rw [if_pos (leap_last hs hq hlast era)]
      omega
  · simp only [year_of_era hs hq ht hdoe hr, era_start hs hq ht, hday, fromMarch]

theorem march_lt {y r : Nat} (h : yearStart y + r < yearStart (y + 1)) : r ≤ 365 := by
  rw [yearStart_succ] at h
  split at h <;> omega

/-- Months and days of a year from March on. -/
theorem fromMarch_spec {r : Nat} (h : r ≤ 365) (y : Nat) :
    ∃ year month day, fromMarch y r = (year, month, day) ∧ 1 ≤ month ∧ month ≤ 12 ∧ 1 ≤ day ∧ day ≤ 31 ∧
      12 * year + month = 12 * y + 3 + (5 * r + 2) / 153 ∧ day = r - (153 * ((5 * r + 2) / 153) + 2) / 5 + 1 := by
  have hm : (5 * r + 2) / 153 ≤ 11 := by omega
  have hday : r - (153 * ((5 * r + 2) / 153) + 2) / 5 ≤ 30 := by omega
  refine ⟨_, _, _, rfl, ?_⟩
  generalize (5 * r + 2) / 153 = m at *
  by_cases hfirst : m < 10
  · rw [if_pos hfirst, if_neg (by omega)]
    omega
  · rw [if_neg hfirst, if_pos (by omega)]
    omega

/-! ## Dates -/

/-- What the fields of a date are. -/
theorem civil_spec (days : Nat) :
    ∃ y r year month day, days + 719468 = yearStart y + r ∧ r ≤ 365 ∧ yearStart y + r < yearStart (y + 1) ∧
      civilFromDays days = (year, month, day) ∧ 1 ≤ month ∧ month ≤ 12 ∧ 1 ≤ day ∧ day ≤ 31 ∧
      12 * year + month = 12 * y + 3 + (5 * r + 2) / 153 ∧ day = r - (153 * ((5 * r + 2) / 153) + 2) / 5 + 1 := by
  obtain ⟨y, r, hdays, hlt, hcivil⟩ := civil_march days
  obtain ⟨year, month, day, hfrom, hspec⟩ := fromMarch_spec (march_lt hlt) y
  exact ⟨y, r, year, month, day, hdays, march_lt hlt, hlt, hcivil.trans hfrom, hspec⟩

theorem daysFromCivil_civilFromDays (days : Nat) :
    daysFromCivil (civilFromDays days).1 (civilFromDays days).2.1 (civilFromDays days).2.2 = days := by
  obtain ⟨y, r, year, month, day, hdays, hr, hlt, hcivil, hm1, hm12, -, -, hindex, hday⟩ := civil_spec days
  rw [hcivil]
  have hm : (5 * r + 2) / 153 ≤ 11 := by omega
  have hback : (153 * ((5 * r + 2) / 153) + 2) / 5 ≤ r := by omega
  generalize (5 * r + 2) / 153 = m at *
  have hyear : (if (month : Int) ≤ 2 then (year : Int) - 1 else year) = y := by
    split <;> omega
  have hmonth : ((month : Int) + 9) % 12 = m := by omega
  have hstart : (yearStart y : Int) = 365 * y + (y : Int) / 4 - (y : Int) / 100 + (y : Int) / 400 := by
    have hle : y / 100 ≤ y / 4 := by omega
    unfold yearStart
    omega
  simp only [daysFromCivil, hyear, hmonth, ← hstart]
  omega

/-- A later day has a later date. -/
theorem civil_lt {a b : Nat} (h : a < b) :
    (civilFromDays a).1 < (civilFromDays b).1 ∨ (civilFromDays a).1 = (civilFromDays b).1 ∧
      ((civilFromDays a).2.1 < (civilFromDays b).2.1 ∨ (civilFromDays a).2.1 = (civilFromDays b).2.1 ∧
        (civilFromDays a).2.2 < (civilFromDays b).2.2) := by
  obtain ⟨y, r, year, month, day, hdays, hr, hlt, hcivil, hm1, hm12, -, -, hindex, hday⟩ := civil_spec a
  obtain ⟨y', r', year', month', day', hdays', hr', hlt', hcivil', hm1', hm12', -, -, hindex', hday'⟩ := civil_spec b
  rw [hcivil, hcivil']
  simp only
  have hyear : y < y' ∨ y = y' ∧ r < r' := by
    by_cases hgt : y' < y
    · have := yearStart_mono (show y' + 1 ≤ y from hgt)
      omega
    · by_cases heq : y = y'
      · subst heq
        omega
      · omega
  have hmonth : 12 * year + month < 12 * year' + month' ∨ 12 * year + month = 12 * year' + month' ∧ day < day' := by
    obtain hyear | ⟨rfl, hrr⟩ := hyear
    · omega
    · by_cases hm : (5 * r + 2) / 153 = (5 * r' + 2) / 153
      · right
        rw [← hm] at hday' hindex'
        refine ⟨by omega, ?_⟩
        have hback : (153 * ((5 * r + 2) / 153) + 2) / 5 ≤ r := by omega
        omega
      · left
        have hle : (5 * r + 2) / 153 ≤ (5 * r' + 2) / 153 := Nat.div_le_div_right (by omega)
        omega
  omega

theorem timegm_gmtime (secs : Nat) : timegm (gmtime secs).broken = secs := by
  have hdays := daysFromCivil_civilFromDays (secs / 86400)
  obtain ⟨y, r, year, month, day, -, -, -, hcivil, hm1, hm12, hd1, -⟩ := civil_spec (secs / 86400)
  have hgm : (gmtime secs).broken =
      ⟨year, month, day, (secs / 3600 % 24 : Nat), (secs / 60 % 60 : Nat), (secs % 60 : Nat)⟩ := by
    simp only [gmtime, Tm.broken, hcivil]
  rw [hcivil] at hdays
  have hyear : (12 * (year : Int) + (month - 1)) / 12 = year := by omega
  have hmonth : (12 * (year : Int) + (month - 1)) % 12 + 1 = month := by omega
  have hfirst : daysFromCivil year month 1 + (day - 1) = (secs / 86400 : Nat) := by
    rw [← hdays]
    simp only [daysFromCivil]
    omega
  simp only [hgm, timegm, hyear, hmonth, hfirst]
  omega

/-! ## Numbers of a fixed width -/

theorem digitsValue_cons (c : UInt8) (s : Bytes) :
    digitsValue (c :: s) = (c.toNat - 48) * 10 ^ s.length + digitsValue s := by
  have hfold : ∀ (s : Bytes) (n : Nat),
      s.foldl (fun n c => 10 * n + (c.toNat - 48)) n = n * 10 ^ s.length + digitsValue s := by
    intro s
    induction s with
    | nil => intro n; simp [digitsValue]
    | cons d s ih =>
      intro n
      rw [digitsValue, List.foldl_cons, List.foldl_cons, ih, ih, List.length_cons, Nat.pow_succ]
      ring
  simp only [digitsValue, List.foldl_cons, Nat.mul_zero, Nat.zero_add]
  exact hfold s _

theorem digitsValue_lt {s : Bytes} (h : ∀ c ∈ s, isDigit c = true) : digitsValue s < 10 ^ s.length := by
  induction s with
  | nil => exact Nat.one_pos
  | cons c s ih =>
    have hs := ih fun d hd => h d (List.mem_cons_of_mem _ hd)
    have hc := h c List.mem_cons_self
    simp only [isDigit, Bool.and_eq_true, decide_eq_true_eq, UInt8.le_iff_toNat_le] at hc
    simp only [UInt8.reduceToNat] at hc
    rw [digitsValue_cons, List.length_cons, Nat.pow_succ]
    have hle : (c.toNat - 48) * 10 ^ s.length ≤ 9 * 10 ^ s.length := Nat.mul_le_mul_right _ (by omega)
    omega

/-- Numbers with as many digits are compared by their values. -/
theorem strcmp_digits {a b : Bytes} (ha : ∀ c ∈ a, isDigit c = true) (hb : ∀ c ∈ b, isDigit c = true)
    (hlen : a.length = b.length) (h : digitsValue a < digitsValue b) (r r' : Bytes) : strcmp (a ++ r) (b ++ r') < 0 := by
  induction a generalizing b with
  | nil =>
    rw [List.length_eq_zero_iff.mp hlen.symm] at h
    exact absurd h (Nat.lt_irrefl _)
  | cons c a ih =>
    match b, hlen with
    | d :: b, hlen =>
      have hlen : a.length = b.length := by simpa using hlen
      have ha' : ∀ e ∈ a, isDigit e = true := fun e he => ha e (List.mem_cons_of_mem _ he)
      have hb' : ∀ e ∈ b, isDigit e = true := fun e he => hb e (List.mem_cons_of_mem _ he)
      rw [digitsValue_cons, digitsValue_cons, hlen] at h
      rw [List.cons_append, List.cons_append, strcmp]
      by_cases heq : c = d
      · rw [if_pos heq]
        rw [heq] at h
        exact ih ha' hb' hlen (by omega)
      · rw [if_neg heq]
        have hc := ha c List.mem_cons_self
        have hd := hb d List.mem_cons_self
        simp only [isDigit, Bool.and_eq_true, decide_eq_true_eq, UInt8.le_iff_toNat_le] at hc hd
        simp only [UInt8.reduceToNat] at hc hd
        have hlt : c < d := by
          rw [UInt8.lt_iff_toNat_lt]
          by_contra hge
          have hne : c.toNat ≠ d.toNat := fun e => heq (UInt8.toNat_inj.mp e)
          have hstep : (d.toNat - 48 + 1) * 10 ^ b.length ≤ (c.toNat - 48) * 10 ^ b.length :=
            Nat.mul_le_mul_right _ (by omega)
          have hsmall := digitsValue_lt hb'
          rw [Nat.add_mul, Nat.one_mul] at hstep
          omega
        rw [if_pos hlt]
        decide

theorem isDigit_of_mem_printPadded {w n : Nat} {c : UInt8} (h : c ∈ printPadded w n) : isDigit c = true := by
  obtain hzero | hdigit := List.mem_append.mp h
  · rw [List.eq_of_mem_replicate hzero]
    rfl
  · exact isDigit_of_mem_printNat hdigit

theorem digitsValue_printPadded (w n : Nat) : digitsValue (printPadded w n) = n := by
  have hzeros : ∀ k, digitsValue (List.replicate k 48 ++ printNat n) = digitsValue (printNat n) := by
    intro k
    induction k with
    | zero => rfl
    | succ k ih =>
      rw [List.replicate_succ, List.cons_append, digitsValue_cons, ih]
      simp
  rw [printPadded, hzeros, digitsValue_printNat]

theorem printPadded_ne_nil (w n : Nat) : printPadded w n ≠ [] := by
  simp [printPadded, printNat_ne_nil]

theorem length_printNat_le {w n : Nat} (hw : 0 < w) (h : n < 10 ^ w) : (printNat n).length ≤ w := by
  unfold printNat
  split
  · exact hw
  · rw [List.length_map, List.length_reverse]
    exact (Nat.digits_length_le_iff (by decide) n).2 h

theorem length_printPadded {w n : Nat} (hw : 0 < w) (h : n < 10 ^ w) : (printPadded w n).length = w := by
  have := length_printNat_le hw h
  rw [printPadded, List.length_append, List.length_replicate]
  omega

theorem strcmp_printPadded {w a b : Nat} {r r' : Bytes} (hw : 0 < w) (ha : a < 10 ^ w) (hb : b < 10 ^ w)
    (h : a < b ∨ a = b ∧ strcmp r r' < 0) : strcmp (printPadded w a ++ r) (printPadded w b ++ r') < 0 := by
  obtain hlt | ⟨rfl, hrest⟩ := h
  · refine strcmp_digits (fun _ => isDigit_of_mem_printPadded) (fun _ => isDigit_of_mem_printPadded) ?_ ?_ r r'
    · rw [length_printPadded hw ha, length_printPadded hw hb]
    · rwa [digitsValue_printPadded, digitsValue_printPadded]
  · rwa [strcmp_append]

/-! ## Texts of times -/

theorem zero_not_mem_printPadded (w k : Nat) : 0 ∉ printPadded w k := by
  have hdigit : (0 : UInt8) ∉ printNat k := by
    intro h
    exact absurd (isDigit_of_mem_printNat h) (by decide)
  unfold printPadded
  rw [List.mem_append, List.mem_replicate]
  rintro (⟨-, hzero⟩ | hmem)
  · exact absurd hzero (by decide)
  · exact hdigit hmem

theorem zero_not_mem_strftimeSeconds (tm : Tm) : 0 ∉ strftimeSeconds tm := by
  have hyear : (0 : UInt8) ∉ printNat tm.year := by
    intro h
    exact absurd (isDigit_of_mem_printNat h) (by decide)
  simp [strftimeSeconds, hyear, zero_not_mem_printPadded]

/-- The fields are in the ranges that are printed. -/
structure Tm.Ranged (tm : Tm) : Prop where
  month : tm.month < 10 ^ 2
  day : tm.day < 10 ^ 2
  hour : tm.hour < 10 ^ 2
  minute : tm.minute < 10 ^ 2
  second : tm.second < 10 ^ 2

theorem gmtime_ranged (secs : Nat) : (gmtime secs).Ranged := by
  obtain ⟨y, r, year, month, day, -, -, -, hcivil, -, hm12, -, hd31, -⟩ := civil_spec (secs / 86400)
  constructor <;> simp only [gmtime, hcivil] <;> omega

theorem length_strftimeSeconds {tm : Tm} (h : tm.Ranged) :
    (strftimeSeconds tm).length = (printNat tm.year).length + 15 := by
  simp only [strftimeSeconds, List.length_append, List.length_singleton, length_printPadded (show 0 < 2 by decide) h.month,
    length_printPadded (show 0 < 2 by decide) h.day, length_printPadded (show 0 < 2 by decide) h.hour,
    length_printPadded (show 0 < 2 by decide) h.minute, length_printPadded (show 0 < 2 by decide) h.second]

/-- Later, field by field. -/
def Tm.Before (a b : Tm) : Prop :=
  a.year < b.year ∨ a.year = b.year ∧ (a.month < b.month ∨ a.month = b.month ∧ (a.day < b.day ∨ a.day = b.day ∧
    (a.hour < b.hour ∨ a.hour = b.hour ∧ (a.minute < b.minute ∨ a.minute = b.minute ∧ a.second < b.second))))

theorem gmtime_before {a b : Nat} (h : a < b) : (gmtime a).Before (gmtime b) := by
  by_cases hday : a / 86400 = b / 86400
  · have hclock : a / 3600 % 24 < b / 3600 % 24 ∨ a / 3600 % 24 = b / 3600 % 24 ∧
        (a / 60 % 60 < b / 60 % 60 ∨ a / 60 % 60 = b / 60 % 60 ∧ a % 60 < b % 60) := by
      have hmin : a / 60 ≤ b / 60 := Nat.div_le_div_right (Nat.le_of_lt h)
      have hhour : a / 3600 ≤ b / 3600 := Nat.div_le_div_right (Nat.le_of_lt h)
      omega
    simp only [Tm.Before, gmtime, hday]
    exact .inr ⟨trivial, .inr ⟨trivial, .inr ⟨trivial, hclock⟩⟩⟩
  · have hlt := civil_lt (show a / 86400 < b / 86400 by omega)
    simp only [Tm.Before, gmtime]
    obtain hyear | ⟨hyear, hmonth | ⟨hmonth, hd⟩⟩ := hlt
    · exact .inl hyear
    · exact .inr ⟨hyear, .inl hmonth⟩
    · exact .inr ⟨hyear, .inr ⟨hmonth, .inl hd⟩⟩

theorem strcmp_strftimeSeconds {a b : Tm} (ha : a.Ranged) (hb : b.Ranged)
    (hyear : (printNat a.year).length = (printNat b.year).length) (h : a.Before b) (r r' : Bytes) :
    strcmp (strftimeSeconds a ++ r) (strftimeSeconds b ++ r') < 0 := by
  have hcons : ∀ (c : UInt8) (s s' : Bytes), strcmp (c :: s) (c :: s') = strcmp s s' := fun c s s' =>
    strcmp_append [c] s s'
  simp only [strftimeSeconds, List.append_assoc, List.cons_append, List.nil_append]
  unfold Tm.Before at h
  obtain hlt | ⟨heq, h⟩ := h
  · refine strcmp_digits (fun _ => isDigit_of_mem_printNat) (fun _ => isDigit_of_mem_printNat) hyear ?_ _ _
    rwa [digitsValue_printNat, digitsValue_printNat]
  rw [heq, strcmp_append, hcons]
  refine strcmp_printPadded (by decide) ha.month hb.month (h.imp_right (And.imp_right fun h => ?_))
  rw [hcons]
  refine strcmp_printPadded (by decide) ha.day hb.day (h.imp_right (And.imp_right fun h => ?_))
  rw [hcons]
  refine strcmp_printPadded (by decide) ha.hour hb.hour (h.imp_right (And.imp_right fun h => ?_))
  rw [hcons]
  refine strcmp_printPadded (by decide) ha.minute hb.minute (h.imp_right (And.imp_right fun h => ?_))
  rw [hcons]
  exact strcmp_printPadded (by decide) ha.second hb.second (.inl h)

end CLib
