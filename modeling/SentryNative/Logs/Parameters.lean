import SentryNative.Value.Tree

/-!
# The parameters of a log message

`sentry_logs.c`: `populate_message_parameters` reads the format of a log message a second time, next
to `vsnprintf`, and stores every argument it meets as an attribute.

A pointer into the format is the list of the characters from there to the terminator, the
terminator included. The list that is empty lies behind the terminator, and no function here
gives a result where the source would read there. The variable arguments are a machine with a step
for each type: what a fetch gives where the argument has another type is up to the machine.
-/

namespace SentryNative.Logs

open CLib

/-- `printf_length_t` -/
inductive Length where
  | none
  | char
  | short
  | long
  | longLong
  | intmax
  | size
  | ptrdiff
  | longDouble
  deriving DecidableEq, Repr

/-- The types of arguments. The pointers that `%n` stores through have one type for each length. -/
inductive ArgType where
  | int
  | unsignedInt
  | long
  | unsignedLong
  | longLong
  | unsignedLongLong
  | intmax
  | uintmax
  | ssize
  | size
  | ptrdiff
  | uptrdiff
  | double
  | longDouble
  | wint
  | charPtr
  | wcharPtr
  | voidPtr
  | countPtr (length : Length)
  deriving DecidableEq, Repr

/-- What depends on the platform: the bits of `long` and of the types that hold a size or a
pointer, the type `long double`, and what `%p` prints. -/
structure Target where
  longBits : Nat
  wordBits : Nat
  long_le : longBits ≤ 64
  word_le : wordBits ≤ 64
  LongDouble : Type
  toDouble : LongDouble → UInt64
  pointerText : BitVec wordBits → Bytes
  pointerText_fits : ∀ v, (pointerText v).length < 32 ∧ 0 ∉ pointerText v

/-- The values of a type. A pointer to characters is null or names the bytes from there to the end
of its buffer, whether or not one of them is a terminator. -/
abbrev ArgType.Carrier (T : Target) : ArgType → Type
  | .int | .unsignedInt | .wint => BitVec 32
  | .long | .unsignedLong => BitVec T.longBits
  | .longLong | .unsignedLongLong | .intmax | .uintmax => BitVec 64
  | .ssize | .size | .ptrdiff | .uptrdiff => BitVec T.wordBits
  | .double => UInt64
  | .longDouble => T.LongDouble
  | .charPtr => Option Bytes
  | .wcharPtr | .voidPtr | .countPtr _ => BitVec T.wordBits

/-- A `va_list`, and the C string that `strlen` finds in a buffer. -/
structure VaList (T : Target) (σ : Type) where
  arg : (t : ArgType) → σ → t.Carrier T × σ
  text : Bytes → σ → Bytes × σ

def nul : Char := Char.ofNat 0

/-! ## Reading the format -/

/-- `while (*p && skipped(*p)) p++` -/
def skipWhile (skipped : Char → Bool) : List Char → Option (List Char)
  | [] => none
  | c :: rest => if c ≠ nul ∧ skipped c then skipWhile skipped rest else some (c :: rest)

def isFlag (c : Char) : Bool := c == '-' || c == '+' || c == ' ' || c == '#' || c == '0'

def isDecimal (c : Char) : Bool := '0' ≤ c && c ≤ '9'

/-- `skip_flags` -/
def skipFlags (p : List Char) : Option (List Char) := skipWhile isFlag p

/-- What `skip_width` and `skip_precision` share: a star takes an `int`, digits take nothing. -/
def skipNumber {T : Target} {σ : Type} (va : VaList T σ) : List Char → σ → Option (List Char × σ)
  | [], _ => none
  | c :: rest, s =>
    if c = '*' then some (rest, (va.arg .int s).2)
    else (skipWhile isDecimal (c :: rest)).map fun p => (p, s)

/-- `skip_width` -/
def skipWidth {T : Target} {σ : Type} (va : VaList T σ) (p : List Char) (s : σ) : Option (List Char × σ) :=
  skipNumber va p s

/-- `skip_precision` -/
def skipPrecision {T : Target} {σ : Type} (va : VaList T σ) : List Char → σ → Option (List Char × σ)
  | [], _ => none
  | c :: rest, s => if c = '.' then skipNumber va rest s else some (c :: rest, s)

/-- `parse_length`. The character behind an `h` or an `l` is read. -/
def parseLength : List Char → Option (Length × List Char)
  | [] => none
  | 'h' :: rest =>
    match rest with
    | [] => none
    | 'h' :: rest => some (.char, rest)
    | rest => some (.short, rest)
  | 'l' :: rest =>
    match rest with
    | [] => none
    | 'l' :: rest => some (.longLong, rest)
    | rest => some (.long, rest)
  | 'L' :: rest => some (.longDouble, rest)
  | 'j' :: rest => some (.intmax, rest)
  | 'z' :: rest => some (.size, rest)
  | 't' :: rest => some (.ptrdiff, rest)
  | p => some (.none, p)

/-- What stands between the percent sign and the conversion. -/
def parsePrefix {T : Target} {σ : Type} (va : VaList T σ) (p : List Char) (s : σ) :
    Option (Length × List Char × σ) := do
  let p ← skipFlags p
  let (p, s) ← skipWidth va p s
  let (p, s) ← skipPrecision va p s
  let (length, p) ← parseLength p
  pure (length, p, s)

/-! ## Reading the arguments -/

section
variable {T : Target} {σ : Type} (va : VaList T σ)

/-- The argument of `%d`, as an `int64_t`. -/
def signedArg (length : Length) (s : σ) : BitVec 64 × σ :=
  match length with
  | .none | .longDouble => ((va.arg .int s).1.signExtend 64, (va.arg .int s).2)
  | .char => (((va.arg .int s).1.setWidth 8).signExtend 64, (va.arg .int s).2)
  | .short => (((va.arg .int s).1.setWidth 16).signExtend 64, (va.arg .int s).2)
  | .long => ((va.arg .long s).1.signExtend 64, (va.arg .long s).2)
  | .longLong => va.arg .longLong s
  | .intmax => va.arg .intmax s
  | .size => ((va.arg .ssize s).1.signExtend 64, (va.arg .ssize s).2)
  | .ptrdiff => ((va.arg .ptrdiff s).1.signExtend 64, (va.arg .ptrdiff s).2)

/-- The argument of `%u`, as a `uint64_t`. -/
def unsignedArg (length : Length) (s : σ) : BitVec 64 × σ :=
  match length with
  | .none | .longDouble => ((va.arg .unsignedInt s).1.setWidth 64, (va.arg .unsignedInt s).2)
  | .char => (((va.arg .int s).1.setWidth 8).setWidth 64, (va.arg .int s).2)
  | .short => (((va.arg .int s).1.setWidth 16).setWidth 64, (va.arg .int s).2)
  | .long => ((va.arg .unsignedLong s).1.setWidth 64, (va.arg .unsignedLong s).2)
  | .longLong => va.arg .unsignedLongLong s
  | .intmax => va.arg .uintmax s
  | .size => ((va.arg .size s).1.setWidth 64, (va.arg .size s).2)
  | .ptrdiff => ((va.arg .uptrdiff s).1.setWidth 64, (va.arg .uptrdiff s).2)

/-- The argument of `%f`, as a `double`. -/
def doubleArg (length : Length) (s : σ) : UInt64 × σ :=
  if length = .longDouble then (T.toDouble (va.arg .longDouble s).1, (va.arg .longDouble s).2) else va.arg .double s

end

/-- A number in a base of at most 16, most significant digit first. -/
def printBase (base : Nat) (letter : Nat) (n : Nat) : Bytes :=
  if n = 0 then [48]
  else (Nat.digits base n).reverse.map fun d => UInt8.ofNat (if d < 10 then 48 + d else letter + (d - 10))

/-- `%llu`, `%llx`, `%llX` and `%llo`. -/
def printUnsigned (conversion : Char) (n : Nat) : Bytes :=
  if conversion = 'x' then printBase 16 97 n
  else if conversion = 'X' then printBase 16 65 n
  else if conversion = 'o' then printBase 8 97 n
  else printBase 10 97 n

/-- `value` -/
def valueKey : Bytes := [118, 97, 108, 117, 101]

/-- `type` -/
def typeKey : Bytes := [116, 121, 112, 101]

/-- `integer` -/
def integerType : Bytes := [105, 110, 116, 101, 103, 101, 114]

/-- `string` -/
def stringType : Bytes := [115, 116, 114, 105, 110, 103]

/-- `double` -/
def doubleType : Bytes := [100, 111, 117, 98, 108, 101]

/-- `(null)` -/
def nullText : Bytes := [40, 110, 117, 108, 108, 41]

/-- `(unknown)` -/
def unknownText : Bytes := [40, 117, 110, 107, 110, 111, 119, 110, 41]

/-- The object of a parameter. -/
def paramObj (value : Value) (type : Bytes) : Value :=
  ((Value.object []).setByKey valueKey value).setByKey typeKey (.string type)

/-- `construct_param_from_conversion` -/
def constructParamFromConversion {T : Target} {σ : Type} (va : VaList T σ) (conversion : Char)
    (length : Length) (s : σ) : Value × σ :=
  match conversion with
  | 'd' | 'i' =>
    let (val, s) := signedArg va length s
    (paramObj (.int64 (Int64.ofBitVec val)) integerType, s)
  | 'u' | 'x' | 'X' | 'o' =>
    let (val, s) := unsignedArg va length s
    -- into a buffer of 26 bytes
    (paramObj (.string ((printUnsigned conversion val.toNat).take 25)) stringType, s)
  | 'f' | 'F' | 'e' | 'E' | 'g' | 'G' =>
    let (val, s) := doubleArg va length s
    (paramObj (.double val) doubleType, s)
  | 'c' =>
    let (val, s) := va.arg .int s
    (paramObj (.string (cstr [UInt8.ofBitVec (val.setWidth 8)])) stringType, s)
  | 's' =>
    match va.arg .charPtr s with
    | (some buffer, s) =>
      let (text, s) := va.text buffer s
      (paramObj (.string text) stringType, s)
    | (none, s) => (paramObj (.string nullText) stringType, s)
  | 'p' =>
    let (val, s) := va.arg .voidPtr s
    -- into a buffer of 32 bytes
    (paramObj (.string ((T.pointerText val).take 31)) stringType, s)
  | _ => (paramObj (.string unknownText) stringType, (va.arg .voidPtr s).2)

/-- `sentry.message.parameter.` -/
def parameterPrefix : Bytes :=
  [115, 101, 110, 116, 114, 121, 46, 109, 101, 115, 115, 97, 103, 101, 46,
    112, 97, 114, 97, 109, 101, 116, 101, 114, 46]

def parameterKey (paramIndex : Nat) : Bytes := parameterPrefix ++ printNat paramIndex

/-! ## The walk -/

theorem skipWhile_suffix {skipped : Char → Bool} {p q : List Char} (h : skipWhile skipped p = some q) : q <:+ p := by
  induction p with
  | nil => cases h
  | cons c rest ih =>
    unfold skipWhile at h
    split at h
    · exact (ih h).trans (List.suffix_cons c rest)
    · cases h
      exact List.suffix_refl _

section
variable {T : Target} {σ : Type} {va : VaList T σ}

theorem skipNumber_suffix {p q : List Char} {s t : σ} (h : skipNumber va p s = some (q, t)) : q <:+ p := by
  cases p with
  | nil => cases h
  | cons c rest =>
    rw [skipNumber] at h
    split at h
    · cases h
      exact List.suffix_cons _ _
    · obtain ⟨r, hr, heq⟩ := Option.map_eq_some_iff.mp h
      cases heq
      exact skipWhile_suffix hr

theorem skipPrecision_suffix {p q : List Char} {s t : σ} (h : skipPrecision va p s = some (q, t)) : q <:+ p := by
  cases p with
  | nil => cases h
  | cons c rest =>
    rw [skipPrecision] at h
    split at h
    · exact (skipNumber_suffix h).trans (List.suffix_cons c rest)
    · cases h
      exact List.suffix_refl _

theorem parseLength_suffix {p q : List Char} {length : Length} (h : parseLength p = some (length, q)) : q <:+ p := by
  unfold parseLength at h
  repeat' split at h
  all_goals cases h
  all_goals first
    | exact List.suffix_refl _
    | exact List.suffix_cons _ _
    | exact (List.suffix_cons _ _).trans (List.suffix_cons _ _)

theorem parsePrefix_suffix {p q : List Char} {length : Length} {s t : σ}
    (h : parsePrefix va p s = some (length, q, t)) : q <:+ p := by
  unfold parsePrefix at h
  obtain ⟨p₁, h₁, h⟩ := Option.bind_eq_some_iff.mp h
  obtain ⟨⟨p₂, s₂⟩, h₂, h⟩ := Option.bind_eq_some_iff.mp h
  obtain ⟨⟨p₃, s₃⟩, h₃, h⟩ := Option.bind_eq_some_iff.mp h
  obtain ⟨⟨l, p₄⟩, h₄, h⟩ := Option.bind_eq_some_iff.mp h
  cases h
  exact (parseLength_suffix h₄).trans <| (skipPrecision_suffix h₃).trans <|
    (skipNumber_suffix h₂).trans (skipWhile_suffix h₁)

end

/-- The attributes, the number of parameters and the state of the arguments after a walk. -/
structure Walked (σ : Type) where
  attributes : Value
  count : Nat
  args : σ

/-- The loop of `populate_message_parameters`. A format that ends inside a conversion leaves the
pointer at the terminator. -/
def walk {T : Target} {σ : Type} (va : VaList T σ) (attributes : Value) (paramIndex : Nat) :
    List Char → σ → Option (Walked σ)
  | [], _ => none
  | c :: rest, s =>
    if c = nul then some ⟨attributes, paramIndex, s⟩
    else if c = '%' then
      match rest with
      | [] => none
      | '%' :: rest => walk va attributes paramIndex rest s
      | d :: rest =>
        match _h : parsePrefix va (d :: rest) s with
        | none => none
        | some (_, [], _) => none
        | some (length, conversion :: after, s) =>
          if conversion = nul then walk va attributes paramIndex (conversion :: after) s
          else
            let (param, s) := constructParamFromConversion va conversion length s
            walk va (attributes.setByKey (parameterKey paramIndex) param) (paramIndex + 1) after s
    else walk va attributes paramIndex rest s
termination_by p => p.length
decreasing_by
  all_goals first
    | (have hle := (parsePrefix_suffix _h).length_le; simp only [List.length_cons] at hle ⊢; omega)
    | (simp only [List.length_cons]; omega)

/-- `populate_message_parameters` -/
def populateMessageParameters {T : Target} {σ : Type} (va : VaList T σ) (attributes : Value)
    (message : Option (List Char)) (args : σ) : Option (Walked σ) :=
  match message with
  | none => some ⟨attributes, 0, args⟩
  | some message =>
    if attributes matches .null then some ⟨attributes, 0, args⟩ else walk va attributes 0 message args

/-! ## The walk stays in the format -/

/-- A pointer into a string with a terminator. -/
def Terminated (p : List Char) : Prop := [nul] <:+ p

theorem Terminated.tail {c : Char} {p : List Char} (h : Terminated (c :: p)) (hc : c ≠ nul) : Terminated p := by
  obtain heq | h := List.suffix_cons_iff.mp h
  · cases heq
    exact absurd rfl hc
  · exact h

theorem Terminated.ne_nil {p : List Char} (h : Terminated p) : p ≠ [] := by
  rintro rfl
  exact absurd (List.suffix_nil.mp h) (by simp)

theorem skipWhile_terminated {p : List Char} (h : Terminated p) (skipped : Char → Bool) :
    ∃ q, skipWhile skipped p = some q ∧ Terminated q := by
  induction p with
  | nil => exact absurd rfl h.ne_nil
  | cons c rest ih =>
    unfold skipWhile
    split
    · next hc => exact ih (h.tail hc.1)
    · exact ⟨_, rfl, h⟩

section
variable {T : Target} {σ : Type} (va : VaList T σ)

theorem skipNumber_terminated {p : List Char} (h : Terminated p) (s : σ) :
    ∃ q t, skipNumber va p s = some (q, t) ∧ Terminated q := by
  cases p with
  | nil => exact absurd rfl h.ne_nil
  | cons c rest =>
    rw [skipNumber]
    split
    · next hc =>
      subst hc
      exact ⟨_, _, rfl, h.tail (by decide)⟩
    · obtain ⟨q, hq, hterm⟩ := skipWhile_terminated h isDecimal
      exact ⟨q, s, by rw [hq]; rfl, hterm⟩

theorem skipPrecision_terminated {p : List Char} (h : Terminated p) (s : σ) :
    ∃ q t, skipPrecision va p s = some (q, t) ∧ Terminated q := by
  cases p with
  | nil => exact absurd rfl h.ne_nil
  | cons c rest =>
    rw [skipPrecision]
    split
    · next hc =>
      subst hc
      exact skipNumber_terminated va (h.tail (by decide)) s
    · exact ⟨_, _, rfl, h⟩

theorem parseLength_terminated {p : List Char} (h : Terminated p) :
    ∃ length q, parseLength p = some (length, q) ∧ Terminated q := by
  unfold parseLength
  repeat' split
  all_goals first
    | exact absurd rfl h.ne_nil
    | exact absurd rfl (h.tail (by decide)).ne_nil
    | exact ⟨_, _, rfl, (h.tail (by decide)).tail (by decide)⟩
    | exact ⟨_, _, rfl, h.tail (by decide)⟩
    | exact ⟨_, _, rfl, h⟩

theorem parsePrefix_terminated {p : List Char} (h : Terminated p) (s : σ) :
    ∃ length q t, parsePrefix va p s = some (length, q, t) ∧ Terminated q := by
  obtain ⟨p₁, h₁, hterm⟩ := skipWhile_terminated h isFlag
  obtain ⟨p₂, s₂, h₂, hterm⟩ := skipNumber_terminated va hterm s
  obtain ⟨p₃, s₃, h₃, hterm⟩ := skipPrecision_terminated va hterm s₂
  obtain ⟨length, p₄, h₄, hterm⟩ := parseLength_terminated hterm
  exact ⟨length, p₄, s₃, by simp [parsePrefix, skipFlags, skipWidth, h₁, h₂, h₃, h₄], hterm⟩

/-- From every pointer into a string the walk comes to its end without reading behind the
terminator. -/
theorem walk_terminated {p : List Char} (h : Terminated p) (attributes : Value) (paramIndex : Nat) (s : σ) :
    ∃ w, walk va attributes paramIndex p s = some w := by
  fun_induction walk va attributes paramIndex p s with
  | case1 => exact absurd rfl h.ne_nil
  | case2 => exact ⟨_, rfl⟩
  | case3 => exact absurd rfl (h.tail (by decide)).ne_nil
  | case4 attributes paramIndex s rest _ ih => exact ih ((h.tail (by decide)).tail (by decide))
  | case5 attributes paramIndex s d rest _ hnone =>
    obtain ⟨length, q, t, hsome, -⟩ := parsePrefix_terminated va (h.tail (by decide)) s
    rw [hnone] at hsome
    cases hsome
  | case6 attributes paramIndex s d rest _ length t hempty =>
    obtain ⟨length', q, t', hsome, hterm⟩ := parsePrefix_terminated va (h.tail (by decide)) s
    rw [hempty] at hsome
    cases hsome
    exact absurd rfl hterm.ne_nil
  | case7 attributes paramIndex s d rest _ length after t _ hparse ih =>
    obtain ⟨length', q, t', hsome, hterm⟩ := parsePrefix_terminated va (h.tail (by decide)) s
    rw [hparse] at hsome
    cases hsome
    exact ih hterm
  | case8 attributes paramIndex s d rest _ length conversion after t hparse hne param u _ _ ih =>
    obtain ⟨length', q, t', hsome, hterm⟩ := parsePrefix_terminated va (h.tail (by decide)) s
    rw [hparse] at hsome
    cases hsome
    exact ih (hterm.tail hne)
  | case9 attributes paramIndex c rest s hne _ ih => exact ih (h.tail hne)

end

end SentryNative.Logs
