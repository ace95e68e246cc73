import Mathlib.Data.Nat.Digits.Defs
import Mathlib.Data.List.TakeWhile

/-!
# Decimal text of the C library

Byte strings, the decimal output of `printf` and the decimal input of the
`strto*` family, as the C standard documents them. A `strto*` call is described
by the value it returns, the text its end pointer is left at and whether it
sets `errno` to `ERANGE`.
-/

namespace CLib

abbrev Bytes := List UInt8

/-- The contents of a buffer read as a C string: everything before the first NUL. -/
def cstr (s : Bytes) : Bytes := s.takeWhile (· ≠ 0)

theorem cstr_of_not_mem {s : Bytes} (h : 0 ∉ s) : cstr s = s := by
  unfold cstr
  rw [List.takeWhile_eq_self_iff]
  intro c hc
  simpa using fun h0 : c = 0 => h (h0 ▸ hc)

theorem zero_not_mem_cstr (s : Bytes) : 0 ∉ cstr s := by
  intro h
  have := List.mem_takeWhile_imp h
  simp at this

/-- `strcmp` on the bytes before the terminator; only the sign of the result is
specified. -/
def strcmp : Bytes → Bytes → Int
  | [], [] => 0
  | [], _ :: _ => -1
  | _ :: _, [] => 1
  | a :: s, b :: t => if a = b then strcmp s t else if a < b then -1 else 1

def digitByte (d : Nat) : UInt8 := UInt8.ofNat (48 + d)

/-- `%u` and its wider variants. -/
def printNat (n : Nat) : Bytes :=
  if n = 0 then [48] else (Nat.digits 10 n).reverse.map digitByte

/-- `%d` and its wider variants. -/
def printInt (i : Int) : Bytes :=
  if i < 0 then 45 :: printNat i.natAbs else printNat i.natAbs

def isDigit (c : UInt8) : Bool := 48 ≤ c && c ≤ 57

/-- `isspace` in the C locale. -/
def isSpace (c : UInt8) : Bool := c == 32 || (9 ≤ c && c ≤ 13)

def digitsValue (ds : Bytes) : Nat := ds.foldl (fun n c => 10 * n + (c.toNat - 48)) 0

structure Strto where
  value : Int
  rest : Bytes
  erange : Bool
  deriving DecidableEq, Repr

/-- The part all `strto*` functions share: blanks, an optional sign, digits.
Without a digit nothing is consumed. -/
def scanInteger (s : Bytes) : Option (Bool × Nat × Bytes) :=
  let body := s.dropWhile isSpace
  let (neg, body) := match body with
    | 45 :: t => (true, t)
    | 43 :: t => (false, t)
    | t => (false, t)
  let ds := body.takeWhile isDigit
  if ds = [] then none else some (neg, digitsValue ds, body.dropWhile isDigit)

/-- `strtoull(s, &end, 10)`. A negated magnitude wraps as unsigned arithmetic does. -/
def strtoull (s : Bytes) : Strto :=
  match scanInteger s with
  | none => ⟨0, s, false⟩
  | some (neg, n, rest) =>
    if n ≥ 2 ^ 64 then ⟨2 ^ 64 - 1, rest, true⟩
    else if neg then ⟨((2 ^ 64 - n) % 2 ^ 64 : Nat), rest, false⟩
    else ⟨n, rest, false⟩

/-- `strtoll(s, &end, 10)`, and `strtol` where `long` has 64 bits. -/
def strtoll (s : Bytes) : Strto :=
  match scanInteger s with
  | none => ⟨0, s, false⟩
  | some (neg, n, rest) =>
    let v : Int := if neg then -n else n
    if v < -2 ^ 63 then ⟨-2 ^ 63, rest, true⟩
    else if v > 2 ^ 63 - 1 then ⟨2 ^ 63 - 1, rest, true⟩
    else ⟨v, rest, false⟩

/-! ## Order of texts -/

theorem strcmp_self (s : Bytes) : strcmp s s = 0 := by
  induction s with
  | nil => rfl
  | cons c s ih => simpa [strcmp] using ih

theorem strcmp_swap (a b : Bytes) : strcmp b a = -strcmp a b := by
  induction a generalizing b with
  | nil => cases b <;> rfl
  | cons x a ih =>
    cases b with
    | nil => rfl
    | cons y b =>
      have h := ih b
      simp only [strcmp]
      grind

theorem eq_of_strcmp {a b : Bytes} (h : strcmp a b = 0) : a = b := by
  induction a generalizing b with
  | nil =>
    cases b with
    | nil => rfl
    | cons y b => cases h
  | cons x a ih =>
    cases b with
    | nil => cases h
    | cons y b =>
      simp only [strcmp] at h
      split at h
      · rename_i hxy
        rw [hxy, ih h]
      · split at h <;> cases h

theorem strcmp_trans {a b c : Bytes} (hab : strcmp a b ≤ 0) (hbc : strcmp b c ≤ 0) :
    strcmp a c ≤ 0 := by
  induction a generalizing b c with
  | nil => cases c <;> simp [strcmp]
  | cons x a ih =>
    cases b with
    | nil => simp [strcmp] at hab
    | cons y b =>
      cases c with
      | nil => simp [strcmp] at hbc
      | cons z c =>
        simp only [strcmp] at hab hbc ⊢
        grind

/-! ## Digits -/

theorem digitByte_toNat {d : Nat} (h : d < 10) : (digitByte d).toNat = 48 + d := by
  simp only [digitByte, UInt8.toNat_ofNat']
  omega

theorem isDigit_digitByte {d : Nat} (h : d < 10) : isDigit (digitByte d) = true := by
  have := digitByte_toNat h
  simp only [isDigit, UInt8.le_iff_toNat_le, Bool.and_eq_true, decide_eq_true_eq, this]
  exact ⟨by simp, by simp; omega⟩

theorem digitsValue_append (a b : Bytes) :
    digitsValue (a ++ b) = b.foldl (fun n c => 10 * n + (c.toNat - 48)) (digitsValue a) := by
  simp [digitsValue]

theorem digitsValue_reverse {l : List Nat} (h : ∀ d ∈ l, d < 10) :
    digitsValue (l.reverse.map digitByte) = Nat.ofDigits 10 l := by
  induction l with
  | nil => rfl
  | cons d l ih =>
    have hd := digitByte_toNat (h d (by simp))
    rw [List.reverse_cons, List.map_append, digitsValue_append,
      ih (fun x hx => h x (List.mem_cons_of_mem d hx))]
    simp only [List.map_cons, List.map_nil, List.foldl_cons, List.foldl_nil, hd, Nat.ofDigits_cons]
    omega

theorem digitsValue_printNat (n : Nat) : digitsValue (printNat n) = n := by
  unfold printNat
  split
  · subst n; rfl
  · rw [digitsValue_reverse (fun d hd => Nat.digits_lt_base (by omega) hd), Nat.ofDigits_digits]

theorem isDigit_of_mem_printNat {n : Nat} {c : UInt8} (h : c ∈ printNat n) :
    isDigit c = true := by
  unfold printNat at h
  split at h
  · simp only [List.mem_singleton] at h; subst c; rfl
  · simp only [List.mem_map, List.mem_reverse] at h
    obtain ⟨d, hd, rfl⟩ := h
    exact isDigit_digitByte (Nat.digits_lt_base (by omega) hd)

theorem printNat_ne_nil (n : Nat) : printNat n ≠ [] := by
  unfold printNat
  split
  · simp
  · simp only [ne_eq, List.map_eq_nil_iff, List.reverse_eq_nil_iff]
    exact Nat.digits_ne_nil_iff_ne_zero.mpr ‹_›

/-- A run of bytes that is followed by none of its kind. -/
theorem takeWhile_part {p : UInt8 → Bool} {s t : Bytes} (hs : ∀ c ∈ s, p c = true)
    (ht : ∀ c ∈ t.head?, p c = false) : (s ++ t).takeWhile p = s ∧ (s ++ t).dropWhile p = t := by
  rw [List.takeWhile_append_of_pos hs, List.dropWhile_append_of_pos hs]
  cases t with
  | nil => simp
  | cons c t =>
    have hc : p c = false := ht c rfl
    simp [hc]

/-- A text that cannot continue a run of digits. -/
def NoDigitHead (r : Bytes) : Prop := ∀ c ∈ r.head?, isDigit c = false

theorem takeWhile_digits {ds r : Bytes} (hds : ∀ c ∈ ds, isDigit c = true) (hr : NoDigitHead r) :
    (ds ++ r).takeWhile isDigit = ds ∧ (ds ++ r).dropWhile isDigit = r := takeWhile_part hds hr

theorem head_of_isDigit {c : UInt8} (h : isDigit c = true) :
    isSpace c = false ∧ c ≠ 45 ∧ c ≠ 43 := by
  simp only [isDigit, isSpace, Bool.and_eq_true, decide_eq_true_eq, UInt8.le_iff_toNat_le] at *
  refine ⟨?_, ?_, ?_⟩
  · simp only [Bool.or_eq_false_iff, beq_eq_false_iff_ne, ne_eq, Bool.and_eq_false_iff,
      decide_eq_false_iff_not]
    refine ⟨?_, Or.inr ?_⟩
    · rintro rfl; revert h; decide
    · have : (13 : UInt8).toNat = 13 := rfl
      have : (48 : UInt8).toNat = 48 := rfl
      omega
  · rintro rfl; revert h; decide
  · rintro rfl; revert h; decide

theorem scanInteger_digits {ds r : Bytes} (hne : ds ≠ []) (hds : ∀ c ∈ ds, isDigit c = true)
    (hr : NoDigitHead r) : scanInteger (ds ++ r) = some (false, digitsValue ds, r) := by
  obtain ⟨ht, hd⟩ := takeWhile_digits hds hr
  cases hp : ds with
  | nil => exact absurd hp hne
  | cons c l =>
    obtain ⟨hs, hm, hpl⟩ := head_of_isDigit (hds c (by simp [hp]))
    rw [hp] at ht hd
    have hdrop : List.dropWhile isSpace (c :: l ++ r) = c :: l ++ r := by simp [hs]
    unfold scanInteger
    rw [hdrop]
    simp only [List.cons_append] at ht hd ⊢
    split
    · simp_all
    · simp_all
    · simp [ht, hd]

theorem scanInteger_printNat (n : Nat) {r : Bytes} (hr : NoDigitHead r) :
    scanInteger (printNat n ++ r) = some (false, n, r) := by
  rw [scanInteger_digits (printNat_ne_nil n) (fun c hc => isDigit_of_mem_printNat hc) hr,
    digitsValue_printNat]

theorem scanInteger_neg_printNat (n : Nat) {r : Bytes} (hr : NoDigitHead r) :
    scanInteger (45 :: printNat n ++ r) = some (true, n, r) := by
  obtain ⟨ht, hd⟩ := takeWhile_digits (fun c hc => isDigit_of_mem_printNat (n := n) hc) hr
  have hdrop : List.dropWhile isSpace (45 :: printNat n ++ r) = 45 :: printNat n ++ r := by
    simp [isSpace]
  unfold scanInteger
  rw [hdrop]
  simp [ht, hd, printNat_ne_nil, digitsValue_printNat]

theorem strtoull_printNat {n : Nat} (h : n < 2 ^ 64) {r : Bytes} (hr : NoDigitHead r) :
    strtoull (printNat n ++ r) = ⟨n, r, false⟩ := by
  unfold strtoull
  rw [scanInteger_printNat n hr]
  simp only [ge_iff_le, Bool.false_eq_true, ↓reduceIte]
  rw [if_neg (by omega)]

theorem strtoll_digits {ds r : Bytes} (hne : ds ≠ []) (hds : ∀ c ∈ ds, isDigit c = true)
    (h : digitsValue ds < 2 ^ 63) (hr : NoDigitHead r) :
    strtoll (ds ++ r) = ⟨digitsValue ds, r, false⟩ := by
  unfold strtoll
  rw [scanInteger_digits hne hds hr]
  simp only [Bool.false_eq_true, ↓reduceIte]
  rw [if_neg (by omega), if_neg (by omega)]

theorem strtoll_printNat {n : Nat} (h : n < 2 ^ 63) {r : Bytes} (hr : NoDigitHead r) :
    strtoll (printNat n ++ r) = ⟨n, r, false⟩ := by
  have hv := digitsValue_printNat n
  rw [strtoll_digits (printNat_ne_nil n) (fun c hc => isDigit_of_mem_printNat hc) (by rwa [hv]) hr,
    hv]

theorem strtoll_neg_printNat {n : Nat} (h : n ≤ 2 ^ 63) {r : Bytes} (hr : NoDigitHead r) :
    strtoll (45 :: printNat n ++ r) = ⟨-n, r, false⟩ := by
  unfold strtoll
  rw [scanInteger_neg_printNat n hr]
  simp only [↓reduceIte]
  rw [if_neg (by omega), if_neg (by omega)]

/-! ## The last occurrence of a byte -/

/-- `strrchr`: the string from the last occurrence on. -/
def strrchr (c : UInt8) : Bytes → Option Bytes
  | [] => none
  | b :: s =>
    match strrchr c s with
    | some t => some t
    | none => if b = c then some (b :: s) else none

theorem strrchr_append {c : UInt8} {t : Bytes} (h : c ∉ t) (p : Bytes) : strrchr c (p ++ c :: t) = some (c :: t) := by
  have hnone : strrchr c t = none := by
    induction t with
    | nil => rfl
    | cons b t ih =>
      rw [List.mem_cons, not_or] at h
      rw [strrchr, ih h.2]
      exact if_neg (Ne.symm h.1)
  induction p with
  | nil => simp [strrchr, hnone]
  | cons b p ih => rw [List.cons_append, strrchr, ih]

theorem strrchr_cases (c : UInt8) (s : Bytes) :
    strrchr c s = none ∧ c ∉ s ∨ ∃ p t, s = p ++ c :: t ∧ c ∉ t ∧ strrchr c s = some (c :: t) := by
  induction s with
  | nil => exact Or.inl ⟨rfl, by simp⟩
  | cons b s ih =>
    obtain ⟨hnone, hnot⟩ | ⟨p, t, rfl, ht, hsome⟩ := ih
    · by_cases heq : b = c
      · subst heq
        exact Or.inr ⟨[], s, rfl, hnot, by simp [strrchr, hnone]⟩
      · exact Or.inl ⟨by simp [strrchr, hnone, heq], by simp [Ne.symm heq, hnot]⟩
    · exact Or.inr ⟨b :: p, t, rfl, ht, strrchr_append ht (b :: p)⟩

end CLib
