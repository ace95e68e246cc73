import SentryNative.Lib.CNumber

/-!
# Input of the C library

The conversions of `sscanf` and the lines of `fgets`, as the C standard documents them.
A conversion gives what it read and the text that is left, or fails.
-/

namespace CLib

def isHexDigit (c : UInt8) : Bool := (48 ≤ c && c ≤ 57) || (65 ≤ c && c ≤ 70) || (97 ≤ c && c ≤ 102)

def hexDigitValue (c : UInt8) : Nat :=
  if c ≤ 57 then c.toNat - 48 else if c ≤ 70 then c.toNat - 55 else c.toNat - 87

def hexValue (ds : Bytes) : Nat := ds.foldl (fun n c => 16 * n + hexDigitValue c) 0

/-- A blank of a format takes all blanks there are. -/
def scanSpace (s : Bytes) : Bytes := s.dropWhile isSpace

def scanSign : Bytes → Bool × Bytes
  | 45 :: t => (true, t)
  | 43 :: t => (false, t)
  | t => (false, t)

/-- The `0x` that may stand before the digits. -/
def scanBase : Bytes → Bytes
  | 48 :: 120 :: t => t
  | 48 :: 88 :: t => t
  | t => t

/-- A value that does not fit is the largest one. -/
def hexResult (neg : Bool) (ds rest : Bytes) : Option (UInt64 × Bytes) :=
  if ds = [] then none
  else
    let n := UInt64.ofNat (min (hexValue ds) (2 ^ 64 - 1))
    some (if neg then -n else n, rest)

/-- `%llx`. -/
def scanHex (s : Bytes) : Option (UInt64 × Bytes) :=
  let (neg, body) := scanSign (scanSpace s)
  let digits := scanBase body
  hexResult neg (digits.takeWhile isHexDigit) (digits.dropWhile isHexDigit)

/-- `%d`, of a number that fits. -/
def scanInt (s : Bytes) : Option (Int × Bytes) :=
  (scanInteger s).map fun (neg, n, rest) => (if neg then -(n : Int) else n, rest)

def isOctDigit (c : UInt8) : Bool := 48 ≤ c && c ≤ 55

/-- The digits behind a sign, in the base that their beginning tells. -/
def autoValue (s : Bytes) : Nat :=
  match s with
  | 48 :: x :: t =>
    if (x = 120 ∨ x = 88) ∧ (t.head?.any isHexDigit) = true then hexValue (t.takeWhile isHexDigit)
    else ((x :: t).takeWhile isOctDigit).foldl (fun n c => 8 * n + (c.toNat - 48)) 0
  | s => digitsValue (s.takeWhile isDigit)

/-- The value of `strtoll(s, NULL, 0)`. -/
def strtollAuto (s : Bytes) : Int :=
  let (neg, body) := scanSign (scanSpace s)
  let v : Int := if neg then -autoValue body else autoValue body
  if v < -2 ^ 63 then -2 ^ 63 else if v > 2 ^ 63 - 1 then 2 ^ 63 - 1 else v

/-- A character of a format that is no blank and no `%`. -/
def scanChar (c : UInt8) : Bytes → Option Bytes
  | d :: t => if d = c then some t else none
  | [] => none

/-- `%s`, with the most characters it may take. -/
def scanWord (width : Nat) (s : Bytes) : Option (Bytes × Bytes) :=
  let body := scanSpace s
  let word := (body.take width).takeWhile (!isSpace ·)
  if word = [] then none else some (word, body.drop word.length)

/-- `fgets` with a buffer of so many bytes: a line with its end, or what fits of it. -/
def fgets (size : Nat) (s : Bytes) : Option (Bytes × Bytes) :=
  if s = [] then none
  else
    let line := (s.takeWhile (· ≠ 10)).length + 1
    some (s.take (min line (size - 1)), s.drop (min line (size - 1)))

/-! ## What they read -/

/-- What is decided of every byte. -/
theorem forall_byte {P : UInt8 → Prop} (h : ∀ n < 256, P (UInt8.ofNat n)) (c : UInt8) : P c := by
  have hc := h c.toNat c.toNat_lt
  rwa [UInt8.ofNat_toNat] at hc

theorem not_isSpace_of_isHexDigit {c : UInt8} (h : isHexDigit c = true) : isSpace c = false := by
  simp only [isHexDigit, isSpace, Bool.or_eq_true, Bool.and_eq_true, decide_eq_true_eq, Bool.or_eq_false_iff,
    beq_eq_false_iff_ne, Bool.and_eq_false_iff, decide_eq_false_iff_not, UInt8.le_iff_toNat_le, ne_eq,
    ← UInt8.toNat_inj] at h ⊢
  simp only [UInt8.reduceToNat] at h ⊢
  omega

theorem scanSpace_of_head {c : UInt8} {s : Bytes} (h : isSpace c = false) : scanSpace (c :: s) = c :: s := by
  simp [scanSpace, h]

theorem scanSpace_append {blanks s : Bytes} (h : ∀ c ∈ blanks, isSpace c = true) :
    scanSpace (blanks ++ s) = scanSpace s := by
  simp only [scanSpace, List.dropWhile_append_of_pos h]

theorem scanSign_of_digit {d : UInt8} {s : Bytes} (h : isHexDigit d = true) :
    scanSign (d :: s) = (false, d :: s) := by
  unfold scanSign
  split
  · rename_i heq
    rw [(List.cons.inj heq).1] at h
    cases h
  · rename_i heq
    rw [(List.cons.inj heq).1] at h
    cases h
  · rfl

theorem scanBase_of_digits {ds s : Bytes} {c : UInt8} (hds : ∀ d ∈ ds, isHexDigit d = true)
    (hx : c ≠ 120) (hX : c ≠ 88) (hc : c ≠ 48) : scanBase (ds ++ c :: s) = ds ++ c :: s := by
  have hsecond : ∀ b : UInt8, isHexDigit b = false → c ≠ b → ∀ t, ds ++ c :: s ≠ 48 :: b :: t := by
    intro b hb hcb t heq
    match ds, hds with
    | [], _ => exact hc (List.cons.inj heq).1
    | [_], _ => exact hcb (List.cons.inj (List.cons.inj heq).2).1
    | _ :: e :: _, hds =>
      have he := hds e (List.mem_cons_of_mem _ List.mem_cons_self)
      rw [(List.cons.inj (List.cons.inj heq).2).1, hb] at he
      cases he
  unfold scanBase
  split
  · rename_i heq
    exact absurd heq (hsecond 120 rfl hx _)
  · rename_i heq
    exact absurd heq (hsecond 88 rfl hX _)
  · rfl

/-- Digits are read up to a character that is none. -/
theorem scanHex_digits {ds s : Bytes} {c : UInt8} (hne : ds ≠ []) (hds : ∀ d ∈ ds, isHexDigit d = true)
    (hfits : hexValue ds < 2 ^ 64) (hc : isHexDigit c = false) (hx : c ≠ 120) (hX : c ≠ 88) :
    scanHex (ds ++ c :: s) = some (UInt64.ofNat (hexValue ds), c :: s) := by
  have hzero : c ≠ 48 := by
    rintro rfl
    cases hc
  have hsign : scanSign (scanSpace (ds ++ c :: s)) = (false, ds ++ c :: s) := by
    obtain ⟨d, ds', rfl⟩ := List.exists_cons_of_ne_nil hne
    have hd := hds d List.mem_cons_self
    rw [List.cons_append, scanSpace_of_head (not_isSpace_of_isHexDigit hd), scanSign_of_digit hd]
  have htake : (ds ++ c :: s).takeWhile isHexDigit = ds := by
    rw [List.takeWhile_append_of_pos hds]
    simp [hc]
  have hdrop : (ds ++ c :: s).dropWhile isHexDigit = c :: s := by
    rw [List.dropWhile_append_of_pos hds]
    simp [hc]
  unfold scanHex
  rw [hsign]
  simp only [scanBase_of_digits hds hx hX hzero, htake, hdrop, hexResult, hne, if_false]
  rw [Nat.min_eq_left (by omega)]
  rfl

theorem hexValue_concat (s : Bytes) (c : UInt8) : hexValue (s ++ [c]) = 16 * hexValue s + hexDigitValue c := by
  simp [hexValue]

/-- Of hexadecimal digits behind a `0x` the value is taken as far as it is positive. -/
theorem strtollAuto_hex {ds : Bytes} (hne : ds ≠ []) (hds : ∀ d ∈ ds, isHexDigit d = true) :
    strtollAuto (48 :: 120 :: ds) = min (hexValue ds : Int) (2 ^ 63 - 1) := by
  obtain ⟨d, ds', rfl⟩ := List.exists_cons_of_ne_nil hne
  have hbody : scanSign (scanSpace (48 :: 120 :: d :: ds')) = (false, 48 :: 120 :: d :: ds') := by
    rw [scanSpace_of_head rfl, scanSign_of_digit rfl]
  have hvalue : autoValue (48 :: 120 :: d :: ds') = hexValue (d :: ds') := by
    have htake : (d :: ds').takeWhile isHexDigit = d :: ds' := by
      rw [List.takeWhile_eq_self_iff]
      exact hds
    rw [autoValue, if_pos ⟨.inl rfl, by simpa using hds d List.mem_cons_self⟩, htake]
  unfold strtollAuto
  rw [hbody]
  simp only [hvalue, Bool.false_eq_true, ↓reduceIte]
  rw [if_neg (by omega)]
  split <;> omega

theorem scanInt_digits {ds r : Bytes} (hne : ds ≠ []) (hds : ∀ c ∈ ds, isDigit c = true) (hr : NoDigitHead r) :
    scanInt (ds ++ r) = some ((digitsValue ds : Int), r) := by
  simp only [scanInt, scanInteger_digits hne hds hr, Option.map_some]
  rfl

/-- A word is read up to a blank. -/
theorem scanWord_word {width : Nat} {word s : Bytes} {c : UInt8} (hne : word ≠ [])
    (hword : ∀ d ∈ word, isSpace d = false) (hwidth : word.length ≤ width) (hc : isSpace c = true) :
    scanWord width (word ++ c :: s) = some (word, c :: s) := by
  obtain ⟨d, word', rfl⟩ := List.exists_cons_of_ne_nil hne
  have hspace : scanSpace (d :: word' ++ c :: s) = d :: word' ++ c :: s :=
    scanSpace_of_head (hword d List.mem_cons_self)
  have htake : ((d :: word' ++ c :: s).take width).takeWhile (!isSpace ·) = d :: word' := by
    rw [List.take_append, List.take_of_length_le hwidth, List.takeWhile_append_of_pos]
    · cases hrest : (c :: s).take (width - (d :: word').length) with
      | nil => simp
      | cons e rest =>
        have he : e = c := by
          cases hw : width - (d :: word').length with
          | zero =>
            rw [hw, List.take_zero] at hrest
            cases hrest
          | succ n =>
            rw [hw, List.take_succ_cons] at hrest
            exact (List.cons.inj hrest).1.symm
        simp [he, hc]
    · intro e he
      simp [hword e he]
  unfold scanWord
  rw [hspace]
  simp only [htake, hne, if_false, List.drop_left]

theorem fgets_line {size : Nat} {line s : Bytes} (hline : 10 ∉ line) (hsize : line.length + 1 < size) :
    fgets size (line ++ 10 :: s) = some (line ++ [10], s) := by
  have htake : (line ++ 10 :: s).takeWhile (· ≠ 10) = line := by
    rw [List.takeWhile_append_of_pos]
    · simp
    · intro c hc
      simp only [ne_eq, decide_eq_true_eq]
      rintro rfl
      exact hline hc
  have hmin : min (line.length + 1) (size - 1) = (line ++ [10]).length := by
    rw [List.length_append, List.length_singleton]
    omega
  have happ : line ++ 10 :: s = line ++ [10] ++ s := by simp
  unfold fgets
  rw [if_neg (by simp), htake]
  simp only [hmin]
  rw [happ, List.take_left, List.drop_left]

end CLib
