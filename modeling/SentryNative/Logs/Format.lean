import Mathlib.Data.Nat.Digits.Lemmas
import SentryNative.Logs.Parameters

/-!
# The format of a log message

What C99 says about the formats of `printf` and the types of their arguments, next to what
`populate_message_parameters` does with them.

* `walk_render`: on a well-formed format the walk handles one conversion after the other;
* `fetched_runSpecs`: the types that are fetched depend on the format alone;
* `message_parameters`: for which formats and arguments the walk stays in step with `printf`.
-/

namespace SentryNative.Logs

open CLib

inductive Flag where
  | minus
  | plus
  | space
  | hash
  | zero
  deriving DecidableEq, Repr

def Flag.char : Flag → Char
  | .minus => '-'
  | .plus => '+'
  | .space => ' '
  | .hash => '#'
  | .zero => '0'

inductive Conversion where
  | d
  | i
  | o
  | u
  | x
  | X
  | f
  | F
  | e
  | E
  | g
  | G
  | a
  | A
  | c
  | s
  | p
  | n
  deriving DecidableEq, Repr

def Conversion.char : Conversion → Char
  | .d => 'd'
  | .i => 'i'
  | .o => 'o'
  | .u => 'u'
  | .x => 'x'
  | .X => 'X'
  | .f => 'f'
  | .F => 'F'
  | .e => 'e'
  | .E => 'E'
  | .g => 'g'
  | .G => 'G'
  | .a => 'a'
  | .A => 'A'
  | .c => 'c'
  | .s => 's'
  | .p => 'p'
  | .n => 'n'

def Length.text : Length → List Char
  | .none => []
  | .char => ['h', 'h']
  | .short => ['h']
  | .long => ['l']
  | .longLong => ['l', 'l']
  | .intmax => ['j']
  | .size => ['z']
  | .ptrdiff => ['t']
  | .longDouble => ['L']

/-! ## The types that the standard prescribes -/

def signedType : Length → Option ArgType
  | .none | .char | .short => some .int
  | .long => some .long
  | .longLong => some .longLong
  | .intmax => some .intmax
  | .size => some .ssize
  | .ptrdiff => some .ptrdiff
  | .longDouble => none

/-- An argument narrower than `int` is promoted to `int`. -/
def unsignedType : Length → Option ArgType
  | .none => some .unsignedInt
  | .char | .short => some .int
  | .long => some .unsignedLong
  | .longLong => some .unsignedLongLong
  | .intmax => some .uintmax
  | .size => some .size
  | .ptrdiff => some .uptrdiff
  | .longDouble => none

def floatType : Length → Option ArgType
  | .none | .long => some .double
  | .longDouble => some .longDouble
  | _ => none

/-- The type of the argument of a conversion; nothing where the length modifier does not go with
the conversion. -/
def prescribed (length : Length) : Conversion → Option ArgType
  | .d | .i => signedType length
  | .o | .u | .x | .X => unsignedType length
  | .f | .F | .e | .E | .g | .G | .a | .A => floatType length
  | .c => match length with
    | .none => some .int
    | .long => some .wint
    | _ => none
  | .s => match length with
    | .none => some .charPtr
    | .long => some .wcharPtr
    | _ => none
  | .p => match length with
    | .none => some .voidPtr
    | _ => none
  | .n => match length with
    | .longDouble => none
    | length => some (.countPtr length)

/-! ## Formats with their arguments -/

/-- A width in digits has no leading zero: that is the flag. -/
inductive Width where
  | digits (ds : List (Fin 10)) (leading : ds.head? ≠ some 0)
  | star (value : BitVec 32)

inductive Precision where
  | absent
  | digits (ds : List (Fin 10))
  | star (value : BitVec 32)

def digitChar (d : Fin 10) : Char := Char.ofNat (48 + d)

def Width.text : Width → List Char
  | .digits ds _ => ds.map digitChar
  | .star _ => ['*']

def Precision.text : Precision → List Char
  | .absent => []
  | .digits ds => '.' :: ds.map digitChar
  | .star _ => ['.', '*']

/-- The most bytes that the precision lets a string conversion write. A negative argument is taken
as if the precision were omitted. -/
def Precision.limit : Precision → Option Nat
  | .absent => none
  | .digits ds => some (ds.foldl (fun n d => 10 * n + d.val) 0)
  | .star value => if value.toInt < 0 then none else some value.toNat

/-- The buffer behind a pointer to characters. -/
def buffer {T : Target} : (t : ArgType) → t.Carrier T → Option Bytes
  | .charPtr, v => v
  | _, _ => none

/-- A conversion specification with the arguments it takes. A buffer without a terminator is legal
where the precision ends the string before the buffer does. -/
structure Spec (T : Target) where
  flags : List Flag
  width : Width
  precision : Precision
  length : Length
  conversion : Conversion
  type : ArgType
  valid : prescribed length conversion = some type
  value : type.Carrier T
  legal : ∀ b, buffer type value = some b → 0 ∈ b ∨ ∃ n, precision.limit = some n ∧ n ≤ b.length

inductive Piece (T : Target) where
  | literal (c : Char) (plain : c ≠ '%' ∧ c ≠ nul)
  | percent
  | spec (x : Spec T)

section
variable {T : Target}

/-- What follows the percent sign. -/
def Spec.text (x : Spec T) : List Char :=
  x.flags.map Flag.char ++ (x.width.text ++ (x.precision.text ++ (x.length.text ++ [x.conversion.char])))

def Piece.text : Piece T → List Char
  | .literal c _ => [c]
  | .percent => ['%', '%']
  | .spec x => '%' :: x.text

def render (ps : List (Piece T)) : List Char := ps.flatMap Piece.text

def specs : List (Piece T) → List (Spec T)
  | [] => []
  | .spec x :: ps => x :: specs ps
  | _ :: ps => specs ps

def Width.args : Width → List (Σ t : ArgType, t.Carrier T)
  | .digits _ _ => []
  | .star v => [⟨.int, v⟩]

def Precision.args : Precision → List (Σ t : ArgType, t.Carrier T)
  | .star v => [⟨.int, v⟩]
  | _ => []

/-- The arguments of a conversion specification, in the order of the standard. -/
def Spec.args (x : Spec T) : List (Σ t : ArgType, t.Carrier T) :=
  x.width.args ++ (x.precision.args ++ [⟨x.type, x.value⟩])

def Width.starred : Width → Bool
  | .digits _ _ => false
  | .star _ => true

def Precision.starred : Precision → Bool
  | .star _ => true
  | _ => false

/-- The arguments after the one of a star. -/
def fetchStar {σ : Type} (va : VaList T σ) (starred : Bool) (s : σ) : σ := if starred then (va.arg .int s).2 else s

/-! ## What is to be stored -/

def Target.bits (T : Target) : Length → Nat
  | .none => 32
  | .char => 8
  | .short => 16
  | .long => T.longBits
  | .longLong | .intmax => 64
  | .size | .ptrdiff => T.wordBits
  | .longDouble => 32

def asNat : (t : ArgType) → t.Carrier T → Nat
  | .int, v | .unsignedInt, v => BitVec.toNat (w := 32) v
  | .long, v | .unsignedLong, v => BitVec.toNat (w := T.longBits) v
  | .longLong, v | .unsignedLongLong, v | .intmax, v | .uintmax, v => BitVec.toNat (w := 64) v
  | .ssize, v | .size, v | .ptrdiff, v | .uptrdiff, v | .voidPtr, v => BitVec.toNat (w := T.wordBits) v
  | _, _ => 0

def asDouble : (t : ArgType) → t.Carrier T → UInt64
  | .double, v => v
  | .longDouble, v => T.toDouble v
  | _, _ => 0

/-- The text of a string conversion, no longer than the precision. -/
def stringText (limit : Option Nat) : Option Bytes → Bytes
  | none => nullText
  | some b =>
    match limit with
    | none => cstr b
    | some n => cstr (b.take n)

/-- The parameter of a conversion, narrowed as its length modifier says. Wide characters and the
count of `%n` have no form among the parameters. -/
def Spec.parameter (x : Spec T) : Option Value :=
  match x.conversion with
  | .d | .i =>
    some (paramObj (.int64 (Int64.ofInt (Int.bmod (asNat x.type x.value) (2 ^ T.bits x.length)))) integerType)
  | .o | .u | .x | .X =>
    some (paramObj (.string (printUnsigned x.conversion.char (asNat x.type x.value % 2 ^ T.bits x.length))) stringType)
  | .f | .F | .e | .E | .g | .G | .a | .A => some (paramObj (.double (asDouble x.type x.value)) doubleType)
  | .c =>
    if x.length = .none then
      some (paramObj (.string (cstr [UInt8.ofNat (asNat x.type x.value)])) stringType)
    else none
  | .s =>
    if x.length = .none then
      some (paramObj (.string (stringText x.precision.limit (buffer x.type x.value))) stringType)
    else none
  | .p => some (paramObj (.string (T.pointerText (BitVec.ofNat _ (asNat x.type x.value)))) stringType)
  | .n => none

/-! ## Typed arguments -/

/-- A list of typed arguments, with what was fetched of it and how many bytes of each string were
examined. -/
structure Args (T : Target) where
  rest : List (Σ t : ArgType, t.Carrier T)
  fetched : List ArgType
  examined : List Nat
  undefined : Bool

/-- Fetching with another type than that of the argument, or where there is none, is undefined, and
so is examining a buffer behind its end: what it gives then is arbitrary. -/
def typed (garbage : (t : ArgType) → t.Carrier T) : VaList T (Args T) where
  arg t s :=
    match s.rest with
    | [] => (garbage t, { s with fetched := s.fetched ++ [t], undefined := true })
    | ⟨t', v⟩ :: rest =>
      if h : t' = t then (h ▸ v, { s with rest := rest, fetched := s.fetched ++ [t] })
      else (garbage t, { s with rest := rest, fetched := s.fetched ++ [t], undefined := true })
  text b s :=
    if 0 ∈ b then (cstr b, { s with examined := s.examined ++ [(cstr b).length + 1] })
    else (b, { s with examined := s.examined ++ [b.length + 1], undefined := true })

/-- What is claimed of a walk over a format with its arguments, followed by `extra` ones. -/
structure InStep (ps : List (Piece T)) (extra : List (Σ t : ArgType, t.Carrier T)) (w : Walked (Args T)) : Prop where
  fetched : w.args.fetched = (specs ps).flatMap fun x => x.args.map (·.1)
  rest : w.args.rest = extra
  defined : w.args.undefined = false
  count : w.count = (specs ps).length
  stored : ∀ n x v, (specs ps)[n]? = some x → x.parameter = some v → w.attributes.getByKey (parameterKey n) = v
  examined : List.Forall₂ (fun n limit => ∀ p, limit = some p → n ≤ p) w.args.examined
    ((specs ps).filterMap fun x => (buffer x.type x.value).map fun _ => x.precision.limit)

/-- The conversions that the walk knows, with a terminator in the part of a string that the
precision allows. -/
def Spec.Supported (x : Spec T) : Prop :=
  (x.conversion ≠ .a ∧ x.conversion ≠ .A ∧ x.conversion ≠ .n) ∧
    (x.length = .long → x.conversion ≠ .c ∧ x.conversion ≠ .s) ∧
    ∀ b p, buffer x.type x.value = some b → x.precision.limit = some p → 0 ∈ b.take p

/-! ## The walk over a well-formed format -/

/-- The text starts with a character that ends a scan. -/
def Stops (skipped : Char → Bool) (q : List Char) : Prop := ∃ c r, q = c :: r ∧ skipped c = false

theorem Stops.append {skipped : Char → Bool} {l q : List Char} (hl : ∀ c, l.head? = some c → skipped c = false)
    (hq : Stops skipped q) : Stops skipped (l ++ q) := by
  cases l with
  | nil => exact hq
  | cons c r => exact ⟨c, r ++ q, rfl, hl c rfl⟩

theorem skipWhile_append {skipped : Char → Bool} {l q : List Char} (hl : ∀ c ∈ l, c ≠ nul ∧ skipped c = true)
    (hq : Stops skipped q) : skipWhile skipped (l ++ q) = some q := by
  induction l with
  | nil =>
    obtain ⟨c, r, rfl, hc⟩ := hq
    simp [skipWhile, hc]
  | cons c l ih =>
    rw [List.cons_append, skipWhile, if_pos (hl c List.mem_cons_self)]
    exact ih fun d hd => hl d (List.mem_cons_of_mem c hd)

theorem digitChar_spec (d : Fin 10) : (digitChar d ≠ nul ∧ isDecimal (digitChar d) = true) ∧ digitChar d ≠ '*' ∧
    digitChar d ≠ '%' ∧ (d ≠ 0 → isFlag (digitChar d) = false) := by
  revert d
  decide

def isNumber (c : Char) : Bool := isDecimal c || c == '*'

/-- What a length modifier or a conversion does not start with. -/
def isBefore (c : Char) : Bool := isNumber c || isFlag c || c == '.' || c == '%'

theorem isNumber_of_isBefore (c : Char) (h : isBefore c = false) : isNumber c = false := by
  simp only [isBefore, Bool.or_eq_false_iff] at h
  exact h.1.1.1

theorem Stops.of_imp {f g : Char → Bool} {q : List Char} (h : Stops g q) (himp : ∀ c, g c = false → f c = false) :
    Stops f q := by
  obtain ⟨c, r, rfl, hc⟩ := h
  exact ⟨c, r, rfl, himp c hc⟩

theorem length_stops (length : Length) (conversion : Conversion) (rest : List Char) :
    Stops isBefore (length.text ++ conversion.char :: rest) := by
  cases length <;> cases conversion <;> exact ⟨_, _, rfl, by decide⟩

theorem parseLength_text (length : Length) (conversion : Conversion) (rest : List Char) :
    parseLength (length.text ++ conversion.char :: rest) = some (length, conversion.char :: rest) := by
  cases length <;> cases conversion <;> rfl

variable {σ : Type} (va : VaList T σ)

theorem skipNumber_digits (ds : List (Fin 10)) {q : List Char} (hq : Stops isNumber q) (s : σ) :
    skipNumber va (ds.map digitChar ++ q) s = some (q, s) := by
  have hskip : skipWhile isDecimal (ds.map digitChar ++ q) = some q := by
    apply skipWhile_append
    · intro c hc
      obtain ⟨d, -, rfl⟩ := List.mem_map.mp hc
      exact (digitChar_spec d).1
    · apply hq.of_imp
      intro c hc
      exact (Bool.or_eq_false_iff.mp hc).1
  obtain ⟨c, r, heq, hc⟩ : ∃ c r, ds.map digitChar ++ q = c :: r ∧ c ≠ '*' := by
    cases ds with
    | nil =>
      obtain ⟨c, r, rfl, hc⟩ := hq
      refine ⟨c, r, rfl, ?_⟩
      rintro rfl
      cases hc
    | cons d ds => exact ⟨digitChar d, _, rfl, (digitChar_spec d).2.1⟩
  rw [heq] at hskip ⊢
  rw [skipNumber, if_neg hc, hskip]
  rfl

theorem skipWidth_text (width : Width) {q : List Char} (hq : Stops isNumber q) (s : σ) :
    skipWidth va (width.text ++ q) s = some (q, fetchStar va width.starred s) := by
  cases width with
  | digits ds leading => exact skipNumber_digits va ds hq s
  | star v => rfl

theorem skipPrecision_text (precision : Precision) {q : List Char} (hq : Stops isBefore q) (s : σ) :
    skipPrecision va (precision.text ++ q) s = some (q, fetchStar va precision.starred s) := by
  cases precision with
  | absent =>
    obtain ⟨c, r, rfl, hc⟩ := hq
    have hdot : c ≠ '.' := by
      rintro rfl
      cases hc
    simp [Precision.text, skipPrecision, hdot, fetchStar, Precision.starred]
  | digits ds => exact skipNumber_digits va ds (hq.of_imp isNumber_of_isBefore) s
  | star v => rfl

/-- Flags, width and precision end where the next part starts. -/
theorem Spec.stops_flags (x : Spec T) (rest : List Char) :
    Stops (fun c => isFlag c || c == '%')
      (x.width.text ++ (x.precision.text ++ (x.length.text ++ x.conversion.char :: rest))) := by
  have himp : ∀ c, isBefore c = false → (isFlag c || c == '%') = false := by
    intro c hc
    simp only [isBefore, Bool.or_eq_false_iff] at hc ⊢
    exact ⟨hc.1.1.2, hc.2⟩
  apply Stops.append
  · intro c hc
    cases hw : x.width with
    | digits ds leading =>
      rw [hw, Width.text, List.head?_map, Option.map_eq_some_iff] at hc
      obtain ⟨d, hd, rfl⟩ := hc
      have hne : d ≠ 0 := fun h0 => leading (h0 ▸ hd)
      simp [(digitChar_spec d).2.2.2 hne, (digitChar_spec d).2.2.1]
    | star v =>
      rw [hw] at hc
      cases hc
      decide
  · apply Stops.append
    · intro c hc
      cases hp : x.precision <;> rw [hp] at hc <;> cases hc <;> decide
    · exact (length_stops x.length x.conversion rest).of_imp himp

theorem parsePrefix_text (x : Spec T) (rest : List Char) (s : σ) :
    parsePrefix va (x.text ++ rest) s = some (x.length, x.conversion.char :: rest,
      fetchStar va x.precision.starred (fetchStar va x.width.starred s)) := by
  have htail := length_stops x.length x.conversion rest
  have hflags : skipFlags (x.text ++ rest) =
      some (x.width.text ++ (x.precision.text ++ (x.length.text ++ x.conversion.char :: rest))) := by
    simp only [Spec.text, List.append_assoc, List.cons_append, List.nil_append]
    apply skipWhile_append
    · intro c hc
      obtain ⟨f, -, rfl⟩ := List.mem_map.mp hc
      cases f <;> decide
    · apply (x.stops_flags rest).of_imp
      intro c hc
      exact (Bool.or_eq_false_iff.mp hc).1
  have hwidth : Stops isNumber (x.precision.text ++ (x.length.text ++ x.conversion.char :: rest)) := by
    apply Stops.append
    · intro c hc
      cases hp : x.precision <;> rw [hp] at hc <;> cases hc <;> decide
    · exact htail.of_imp isNumber_of_isBefore
  simp [parsePrefix, hflags, skipWidth_text va x.width hwidth, skipPrecision_text va x.precision htail,
    parseLength_text]

/-- The walk, conversion by conversion. -/
def runSpecs (xs : List (Spec T)) (attributes : Value) (paramIndex : Nat) (s : σ) : Walked σ :=
  match xs with
  | [] => ⟨attributes, paramIndex, s⟩
  | x :: xs =>
    let (param, s) := constructParamFromConversion va x.conversion.char x.length
      (fetchStar va x.precision.starred (fetchStar va x.width.starred s))
    runSpecs xs (attributes.setByKey (parameterKey paramIndex) param) (paramIndex + 1) s

theorem runSpecs_cons (x : Spec T) (xs : List (Spec T)) (attributes : Value) (paramIndex : Nat) (s : σ) :
    runSpecs va (x :: xs) attributes paramIndex s =
      runSpecs va xs
        (attributes.setByKey (parameterKey paramIndex) (constructParamFromConversion va x.conversion.char x.length
          (fetchStar va x.precision.starred (fetchStar va x.width.starred s))).1)
        (paramIndex + 1)
        (constructParamFromConversion va x.conversion.char x.length
          (fetchStar va x.precision.starred (fetchStar va x.width.starred s))).2 := by
  rfl

theorem Spec.text_head (x : Spec T) (rest : List Char) : ∃ c r, x.text ++ rest = c :: r ∧ c ≠ '%' := by
  simp only [Spec.text, List.append_assoc, List.cons_append, List.nil_append]
  obtain ⟨c, r, heq, hc⟩ : Stops (· == '%') (x.flags.map Flag.char ++
      (x.width.text ++ (x.precision.text ++ (x.length.text ++ x.conversion.char :: rest)))) := by
    apply Stops.append
    · intro c hc
      obtain ⟨f, -, rfl⟩ := List.mem_map.mp (List.mem_of_head? hc)
      cases f <;> decide
    · apply (x.stops_flags rest).of_imp
      intro c hc
      exact (Bool.or_eq_false_iff.mp hc).2
  exact ⟨c, r, heq, by simpa using hc⟩

theorem walk_spec (x : Spec T) (rest : List Char) (attributes : Value) (paramIndex : Nat) (s : σ) :
    walk va attributes paramIndex ('%' :: (x.text ++ rest)) s =
      let (param, s) := constructParamFromConversion va x.conversion.char x.length
        (fetchStar va x.precision.starred (fetchStar va x.width.starred s))
      walk va (attributes.setByKey (parameterKey paramIndex) param) (paramIndex + 1) rest s := by
  have hparse := parsePrefix_text va x rest s
  have hconv : x.conversion.char ≠ nul := by
    cases x.conversion <;> decide
  obtain ⟨c, r, heq, hc⟩ := x.text_head rest
  rw [heq] at hparse ⊢
  rw [walk, if_neg (by decide), if_pos rfl]
  · split
    · next hnone => simp [hparse] at hnone
    · next hempty => simp [hparse] at hempty
    · next length conversion after t hsome =>
      rw [hparse] at hsome
      cases hsome
      rw [if_neg hconv]
  · exact hc

theorem walk_render (ps : List (Piece T)) (attributes : Value) (paramIndex : Nat) (s : σ) :
    walk va attributes paramIndex (render ps ++ [nul]) s = some (runSpecs va (specs ps) attributes paramIndex s) := by
  induction ps generalizing attributes paramIndex s with
  | nil => simp [render, walk, specs, runSpecs]
  | cons p ps ih =>
    simp only [render, List.flatMap_cons, List.append_assoc] at ih ⊢
    cases p with
    | literal c plain =>
      rw [Piece.text, List.cons_append, List.nil_append, walk.eq_def]
      simp only [if_neg plain.2, if_neg plain.1]
      exact ih _ _ _
    | percent =>
      rw [Piece.text, List.cons_append, List.cons_append, List.nil_append, walk, if_neg (by decide), if_pos rfl]
      exact ih _ _ _
    | spec x =>
      rw [Piece.text, List.cons_append, walk_spec]
      exact ih _ _ _

end

/-! ## Fetches -/

/-- The type that `construct_param_from_conversion` fetches. -/
def fetchedType (length : Length) : Conversion → ArgType
  | .d | .i => (signedType length).getD .int
  | .o | .u | .x | .X => (unsignedType length).getD .unsignedInt
  | .f | .F | .e | .E | .g | .G => if length = .longDouble then .longDouble else .double
  | .c => .int
  | .s => .charPtr
  | .p | .a | .A | .n => .voidPtr

theorem fetchedType_eq_iff {length : Length} {conversion : Conversion} {type : ArgType}
    (h : prescribed length conversion = some type) :
    fetchedType length conversion = type ↔ (conversion ≠ .a ∧ conversion ≠ .A ∧ conversion ≠ .n) ∧
      (length = .long → conversion ≠ .c ∧ conversion ≠ .s) := by
  cases length <;> cases conversion <;> cases h <;> decide

section
variable {T : Target} (garbage : (t : ArgType) → t.Carrier T)

@[simp]
theorem typed_arg_fetched (t : ArgType) (s : Args T) : ((typed garbage).arg t s).2.fetched = s.fetched ++ [t] := by
  simp only [typed]
  split
  · rfl
  · split <;> rfl

@[simp]
theorem typed_text_fetched (b : Bytes) (s : Args T) : ((typed garbage).text b s).2.fetched = s.fetched := by
  simp only [typed]
  split <;> rfl

theorem construct_fetched (conversion : Conversion) (length : Length) (s : Args T) :
    (constructParamFromConversion (typed garbage) conversion.char length s).2.fetched =
      s.fetched ++ [fetchedType length conversion] := by
  cases conversion
  case d | i => cases length <;> exact typed_arg_fetched garbage _ s
  case u | x | X | o => cases length <;> exact typed_arg_fetched garbage _ s
  case f | F | e | E | g | G => cases length <;> exact typed_arg_fetched garbage _ s
  case s =>
    simp only [constructParamFromConversion, Conversion.char, fetchedType]
    split
    · next heq =>
      rw [typed_text_fetched, ← typed_arg_fetched garbage, heq]
    · next heq => rw [← typed_arg_fetched garbage, heq]
  all_goals exact typed_arg_fetched garbage _ s

/-- The types that the walk fetches for a conversion specification. -/
def Spec.walked (x : Spec T) : List ArgType :=
  (x.width.args (T := T)).map (·.1) ++ ((x.precision.args (T := T)).map (·.1) ++ [fetchedType x.length x.conversion])

theorem fetchStar_fetched (x : Spec T) (s : Args T) :
    (fetchStar (typed garbage) x.precision.starred (fetchStar (typed garbage) x.width.starred s)).fetched =
      s.fetched ++ ((x.width.args (T := T)).map (·.1) ++ (x.precision.args (T := T)).map (·.1)) := by
  cases x.width <;> cases x.precision <;>
    simp [fetchStar, Width.starred, Precision.starred, Width.args, Precision.args]

/-- What is fetched depends on the format alone. -/
theorem fetched_runSpecs (xs : List (Spec T)) (attributes : Value) (paramIndex : Nat) (s : Args T) :
    (runSpecs (typed garbage) xs attributes paramIndex s).args.fetched = s.fetched ++ xs.flatMap Spec.walked := by
  induction xs generalizing attributes paramIndex s with
  | nil => simp [runSpecs]
  | cons x xs ih =>
    rw [runSpecs_cons, ih, construct_fetched, fetchStar_fetched]
    simp [Spec.walked]

end

theorem flatMap_inj {α β : Type} {f g : α → List β} (hlen : ∀ x, (f x).length = (g x).length) {l : List α}
    (h : l.flatMap f = l.flatMap g) : ∀ x ∈ l, f x = g x := by
  induction l with
  | nil => simp
  | cons a l ih =>
    rw [List.flatMap_cons, List.flatMap_cons] at h
    obtain ⟨ha, hl⟩ := List.append_inj h (hlen a)
    intro x hx
    obtain rfl | hx := List.mem_cons.mp hx
    · exact ha
    · exact ih hl x hx

/-! ## Arguments of the right type -/

section
variable {T : Target} (garbage : (t : ArgType) → t.Carrier T)

theorem typed_arg_cons (t : ArgType) (v : t.Carrier T) (rest : List (Σ t : ArgType, t.Carrier T))
    (fetched : List ArgType) (examined : List Nat) (undefined : Bool) :
    (typed garbage).arg t ⟨⟨t, v⟩ :: rest, fetched, examined, undefined⟩ =
      (v, ⟨rest, fetched ++ [t], examined, undefined⟩) := by
  simp [typed]

theorem fetchStar_width (width : Width) (rest : List (Σ t : ArgType, t.Carrier T)) (fetched : List ArgType)
    (examined : List Nat) (undefined : Bool) :
    fetchStar (typed garbage) width.starred ⟨width.args ++ rest, fetched, examined, undefined⟩ =
      ⟨rest, fetched ++ (width.args (T := T)).map (·.1), examined, undefined⟩ := by
  cases width with
  | digits ds leading => simp [fetchStar, Width.starred, Width.args]
  | star v => exact congrArg Prod.snd (typed_arg_cons garbage .int v rest fetched examined undefined)

theorem fetchStar_precision (precision : Precision) (rest : List (Σ t : ArgType, t.Carrier T))
    (fetched : List ArgType) (examined : List Nat) (undefined : Bool) :
    fetchStar (typed garbage) precision.starred ⟨precision.args ++ rest, fetched, examined, undefined⟩ =
      ⟨rest, fetched ++ (precision.args (T := T)).map (·.1), examined, undefined⟩ := by
  cases precision with
  | absent => simp [fetchStar, Precision.starred, Precision.args]
  | digits ds => simp [fetchStar, Precision.starred, Precision.args]
  | star v => exact congrArg Prod.snd (typed_arg_cons garbage .int v rest fetched examined undefined)

theorem fetchStars_typed (x : Spec T) (rest : List (Σ t : ArgType, t.Carrier T)) (fetched : List ArgType)
    (examined : List Nat) (undefined : Bool) :
    fetchStar (typed garbage) x.precision.starred (fetchStar (typed garbage) x.width.starred
        ⟨x.args ++ rest, fetched, examined, undefined⟩) =
      ⟨⟨x.type, x.value⟩ :: rest, fetched ++ (x.width.args (T := T)).map (·.1) ++ (x.precision.args (T := T)).map (·.1),
        examined, undefined⟩ := by
  rw [Spec.args, List.append_assoc, List.append_assoc, fetchStar_width, fetchStar_precision]
  rfl

/-- A number, truncated and extended by its sign. -/
theorem signExtend_setWidth_eq {w : Nat} (v : BitVec w) {n : Nat} (hn : n ≤ 64) :
    Int64.ofBitVec ((v.setWidth n).signExtend 64) = Int64.ofInt (Int.bmod v.toNat (2 ^ n)) := by
  have h : ((v.setWidth n).signExtend 64).toInt = Int.bmod v.toNat (2 ^ n) := by
    rw [BitVec.toInt_signExtend_of_le hn, BitVec.toInt_setWidth]
  rw [← h]
  exact congrArg Int64.ofBitVec BitVec.ofInt_toInt.symm

theorem signExtend_eq {w : Nat} (v : BitVec w) (hw : w ≤ 64) :
    Int64.ofBitVec (v.signExtend 64) = Int64.ofInt (Int.bmod v.toNat (2 ^ w)) := by
  rw [← signExtend_setWidth_eq v hw, BitVec.setWidth_eq]

theorem ofBitVec_eq (v : BitVec 64) : Int64.ofBitVec v = Int64.ofInt (Int.bmod v.toNat (2 ^ 64)) := by
  rw [← signExtend_eq v (Nat.le_refl 64), BitVec.signExtend_eq]

theorem signedArg_typed {length : Length} {t : ArgType} (h : signedType length = some t) (v : t.Carrier T)
    (rest : List (Σ t : ArgType, t.Carrier T)) (fetched : List ArgType) (examined : List Nat) (undefined : Bool) :
    Int64.ofBitVec (signedArg (typed garbage) length ⟨⟨t, v⟩ :: rest, fetched, examined, undefined⟩).1 =
        Int64.ofInt (Int.bmod (asNat t v) (2 ^ T.bits length)) ∧
      (signedArg (typed garbage) length ⟨⟨t, v⟩ :: rest, fetched, examined, undefined⟩).2 =
        ⟨rest, fetched ++ [t], examined, undefined⟩ := by
  cases length <;> cases h <;> simp only [signedArg, typed_arg_cons, and_true]
  case none | long | size | ptrdiff => exact signExtend_eq _ (by first | decide | exact T.long_le | exact T.word_le)
  case char | short => exact signExtend_setWidth_eq _ (by decide)
  case longLong | intmax => exact ofBitVec_eq v

theorem toNat_setWidth_setWidth {w : Nat} (v : BitVec w) {n : Nat} (hn : n ≤ 64) :
    ((v.setWidth n).setWidth 64).toNat = v.toNat % 2 ^ n := by
  rw [BitVec.toNat_setWidth_of_le hn, BitVec.toNat_setWidth]

theorem toNat_setWidth_eq {w : Nat} (v : BitVec w) (hw : w ≤ 64) : (v.setWidth 64).toNat = v.toNat % 2 ^ w := by
  rw [← toNat_setWidth_setWidth v hw, BitVec.setWidth_eq]

theorem unsignedArg_typed {length : Length} {t : ArgType} (h : unsignedType length = some t) (v : t.Carrier T)
    (rest : List (Σ t : ArgType, t.Carrier T)) (fetched : List ArgType) (examined : List Nat) (undefined : Bool) :
    (unsignedArg (typed garbage) length ⟨⟨t, v⟩ :: rest, fetched, examined, undefined⟩).1.toNat =
        asNat t v % 2 ^ T.bits length ∧
      (unsignedArg (typed garbage) length ⟨⟨t, v⟩ :: rest, fetched, examined, undefined⟩).2 =
        ⟨rest, fetched ++ [t], examined, undefined⟩ := by
  cases length <;> cases h <;> simp only [unsignedArg, typed_arg_cons, and_true]
  case none | long | size | ptrdiff => exact toNat_setWidth_eq _ (by first | decide | exact T.long_le | exact T.word_le)
  case char | short => exact toNat_setWidth_setWidth _ (by decide)
  case longLong | intmax => exact (Nat.mod_eq_of_lt (BitVec.isLt (w := 64) v)).symm

theorem doubleArg_typed {length : Length} {t : ArgType} (h : floatType length = some t) (v : t.Carrier T)
    (rest : List (Σ t : ArgType, t.Carrier T)) (fetched : List ArgType) (examined : List Nat) (undefined : Bool) :
    doubleArg (typed garbage) length ⟨⟨t, v⟩ :: rest, fetched, examined, undefined⟩ =
      (asDouble t v, ⟨rest, fetched ++ [t], examined, undefined⟩) := by
  unfold doubleArg
  cases length <;> cases h
  case none | long =>
    rw [if_neg (by decide)]
    exact typed_arg_cons garbage .double v rest fetched examined undefined
  case longDouble =>
    rw [if_pos rfl, typed_arg_cons]
    rfl

theorem length_printBase {base : Nat} (hbase : 8 ≤ base) (letter : Nat) {n : Nat} (hn : n < 2 ^ 64) :
    (printBase base letter n).length ≤ 25 := by
  unfold printBase
  split
  · simp
  · rw [List.length_map, List.length_reverse, Nat.digits_length_le_iff (by omega)]
    calc n < 2 ^ 64 := hn
      _ ≤ 8 ^ 25 := by norm_num
      _ ≤ base ^ 25 := Nat.pow_le_pow_left hbase 25

/-- The number fits into the buffer of `construct_param_from_conversion`. -/
theorem take_printUnsigned (conversion : Char) {n : Nat} (hn : n < 2 ^ 64) :
    (printUnsigned conversion n).take 25 = printUnsigned conversion n := by
  apply List.take_of_length_le
  unfold printUnsigned
  split
  · exact length_printBase (by decide) 97 hn
  · split
    · exact length_printBase (by decide) 65 hn
    · split <;> exact length_printBase (by decide) 97 hn

/-- How many bytes `strlen` examines. -/
def examinedBytes (b : Bytes) : Nat := if 0 ∈ b then (cstr b).length + 1 else b.length + 1

def unterminated : Option Bytes → Bool
  | none => false
  | some b => 0 ∉ b

theorem buffer_eq_none {length : Length} {conversion : Conversion} {t : ArgType}
    (valid : prescribed length conversion = some t) (hne : conversion ≠ .s) (v : t.Carrier T) : buffer t v = none := by
  have ht : t ≠ .charPtr := by
    rintro rfl
    cases length <;> cases conversion <;> first | exact hne rfl | cases valid
  cases t <;> first | rfl | exact absurd rfl ht

theorem construct_null (length : Length) (rest : List (Σ t : ArgType, t.Carrier T)) (fetched : List ArgType)
    (examined : List Nat) (undefined : Bool) :
    constructParamFromConversion (typed garbage) 's' length ⟨⟨.charPtr, none⟩ :: rest, fetched, examined, undefined⟩ =
      (paramObj (.string nullText) stringType, ⟨rest, fetched ++ [.charPtr], examined, undefined⟩) := by
  rfl

theorem construct_string (length : Length) (b : Bytes) (rest : List (Σ t : ArgType, t.Carrier T))
    (fetched : List ArgType) (examined : List Nat) (undefined : Bool) :
    constructParamFromConversion (typed garbage) 's' length ⟨⟨.charPtr, some b⟩ :: rest, fetched, examined, undefined⟩ =
      (paramObj (.string (if 0 ∈ b then cstr b else b)) stringType,
        ⟨rest, fetched ++ [.charPtr], examined ++ [examinedBytes b], undefined || unterminated (some b)⟩) := by
  have hfetch := typed_arg_cons garbage .charPtr (some b) rest fetched examined undefined
  simp only [constructParamFromConversion]
  split
  · next heq =>
    rw [hfetch] at heq
    cases heq
    by_cases h0 : 0 ∈ b <;> simp [typed, examinedBytes, unterminated, h0]
  · next heq =>
    rw [hfetch] at heq
    cases heq

/-- What a conversion of the right type leaves of the arguments. -/
theorem construct_typed (x : Spec T) (htype : fetchedType x.length x.conversion = x.type)
    (rest : List (Σ t : ArgType, t.Carrier T)) (fetched : List ArgType) (examined : List Nat) (undefined : Bool) :
    (constructParamFromConversion (typed garbage) x.conversion.char x.length
        ⟨⟨x.type, x.value⟩ :: rest, fetched, examined, undefined⟩).2 =
      ⟨rest, fetched ++ [x.type], examined ++ ((buffer x.type x.value).map examinedBytes).toList,
        undefined || unterminated (buffer x.type x.value)⟩ := by
  obtain ⟨flags, width, precision, length, conversion, type, valid, value, legal⟩ := x
  dsimp only at htype ⊢
  by_cases hs : conversion = .s
  · subst hs
    cases htype
    cases value with
    | none =>
      rw [Conversion.char]
      refine (congrArg Prod.snd (construct_null garbage length rest fetched examined undefined)).trans ?_
      simp [fetchedType, buffer, unterminated]
    | some b =>
      exact congrArg Prod.snd (construct_string garbage length b rest fetched examined undefined)
  · rw [buffer_eq_none valid hs value]
    simp only [Option.map_none, Option.toList_none, List.append_nil, unterminated, Bool.or_false]
    cases conversion
    case d | i => exact (signedArg_typed garbage valid value rest fetched examined undefined).2
    case u | x | X | o => exact (unsignedArg_typed garbage valid value rest fetched examined undefined).2
    case f | F | e | E | g | G =>
      exact congrArg Prod.snd (doubleArg_typed garbage valid value rest fetched examined undefined)
    case s => exact absurd rfl hs
    all_goals
      cases htype
      exact congrArg Prod.snd (typed_arg_cons garbage _ value rest fetched examined undefined)

theorem cstr_take {b : Bytes} {n : Nat} (h : 0 ∈ b.take n) : cstr (b.take n) = cstr b := by
  induction b generalizing n with
  | nil => simp
  | cons c b ih =>
    cases n with
    | zero => simp at h
    | succ n =>
      simp only [List.take_succ_cons, cstr, List.takeWhile_cons] at h ⊢
      split
      · next hc =>
        have hmem : 0 ∈ b.take n := by simpa [Ne.symm (of_decide_eq_true hc)] using h
        exact congrArg (c :: ·) (ih hmem)
      · rfl

theorem Spec.zero_mem {x : Spec T} (h : x.Supported) {b : Bytes} (hb : buffer x.type x.value = some b) : 0 ∈ b := by
  obtain h0 | ⟨n, hn, -⟩ := x.legal b hb
  · exact h0
  · exact List.mem_of_mem_take (h.2.2 b n hb hn)

theorem stringText_eq {x : Spec T} (h : x.Supported) {b : Bytes} (hb : buffer x.type x.value = some b) :
    stringText x.precision.limit (some b) = cstr b := by
  unfold stringText
  cases hlimit : x.precision.limit with
  | none => rfl
  | some n => exact cstr_take (h.2.2 b n hb hlimit)

/-- A supported conversion gives the parameter that is asked for. -/
theorem construct_parameter {x : Spec T} (h : x.Supported) {v : Value} (hv : x.parameter = some v)
    (rest : List (Σ t : ArgType, t.Carrier T)) (fetched : List ArgType) (examined : List Nat) (undefined : Bool) :
    (constructParamFromConversion (typed garbage) x.conversion.char x.length
        ⟨⟨x.type, x.value⟩ :: rest, fetched, examined, undefined⟩).1 = v := by
  have htype := (fetchedType_eq_iff x.valid).mpr ⟨h.1, h.2.1⟩
  have hstring := fun b hb => stringText_eq h (b := b) hb
  have hzero := fun b hb => Spec.zero_mem h (b := b) hb
  obtain ⟨flags, width, precision, length, conversion, type, valid, value, legal⟩ := x
  dsimp only at htype hstring hzero ⊢
  cases conversion
  case d | i =>
    cases hv
    have harg := (signedArg_typed garbage valid value rest fetched examined undefined).1
    simp only [constructParamFromConversion, Conversion.char, harg]
  case u | x | X | o =>
    cases hv
    have harg := (unsignedArg_typed garbage valid value rest fetched examined undefined).1
    simp only [constructParamFromConversion, Conversion.char]
    rw [take_printUnsigned _ (BitVec.isLt _), harg]
  case f | F | e | E | g | G =>
    cases hv
    have harg := doubleArg_typed garbage valid value rest fetched examined undefined
    simp only [constructParamFromConversion, Conversion.char, harg]
  case a => exact absurd rfl h.1.1
  case A => exact absurd rfl h.1.2.1
  case n => exact absurd rfl h.1.2.2
  case c =>
    cases htype
    simp only [Spec.parameter, Option.ite_none_right_eq_some, Option.some.injEq] at hv
    obtain ⟨-, rfl⟩ := hv
    have harg := typed_arg_cons garbage .int value rest fetched examined undefined
    have hbyte : UInt8.ofBitVec (BitVec.setWidth 8 value) = UInt8.ofNat (BitVec.toNat (w := 32) value) :=
      congrArg UInt8.ofBitVec (BitVec.ofNat_toNat 8 value).symm
    simp only [constructParamFromConversion, Conversion.char, fetchedType, harg, hbyte]
    rfl
  case p =>
    cases htype
    cases hv
    have harg := typed_arg_cons garbage .voidPtr value rest fetched examined undefined
    have hpointer : BitVec.ofNat T.wordBits (BitVec.toNat (w := T.wordBits) value) = value :=
      (BitVec.ofNat_toNat _ _).trans (BitVec.setWidth_eq _)
    have htake : (T.pointerText value).take 31 = T.pointerText value :=
      List.take_of_length_le (Nat.le_of_lt_succ (T.pointerText_fits value).1)
    simp only [constructParamFromConversion, Conversion.char, fetchedType, harg, htake, asNat, hpointer]
  case s =>
    cases htype
    simp only [Spec.parameter, Option.ite_none_right_eq_some, Option.some.injEq] at hv
    obtain ⟨-, rfl⟩ := hv
    cases value with
    | none => exact congrArg Prod.fst (construct_null garbage length rest fetched examined undefined)
    | some b =>
      refine (congrArg Prod.fst (construct_string garbage length b rest fetched examined undefined)).trans ?_
      rw [if_pos (hzero b rfl), ← hstring b rfl]
      rfl

/-! ## Whole walks -/

/-- Later parameters go under other names. -/
theorem parameterKey_inj {m n : Nat} (h : parameterKey m = parameterKey n) : m = n := by
  have hprint := List.append_cancel_left h
  rw [← digitsValue_printNat m, hprint, digitsValue_printNat]

theorem runSpecs_getByKey {σ : Type} (va : VaList T σ) (xs : List (Spec T)) (pairs : List (Bytes × Value))
    {j paramIndex : Nat} (hj : j < paramIndex) (s : σ) :
    (runSpecs va xs (.object pairs) paramIndex s).attributes.getByKey (parameterKey j) =
      Value.lookup (parameterKey j) pairs := by
  induction xs generalizing pairs paramIndex s with
  | nil => rfl
  | cons x xs ih =>
    rw [runSpecs_cons]
    refine (ih _ (Nat.lt_succ_of_lt hj) _).trans ?_
    apply Value.lookup_insert_of_ne
    intro heq
    exact absurd (parameterKey_inj heq) (Nat.ne_of_gt hj)

theorem runSpecs_count {σ : Type} (va : VaList T σ) (xs : List (Spec T)) (attributes : Value) (paramIndex : Nat) (s : σ) :
    (runSpecs va xs attributes paramIndex s).count = paramIndex + xs.length := by
  induction xs generalizing attributes paramIndex s with
  | nil => rfl
  | cons x xs ih =>
    rw [runSpecs_cons, ih, List.length_cons]
    omega

/-- The arguments after a walk that fetched each of them with its type. -/
theorem runSpecs_args {xs : List (Spec T)} (h : ∀ x ∈ xs, fetchedType x.length x.conversion = x.type)
    (attributes : Value) (paramIndex : Nat) (extra : List (Σ t : ArgType, t.Carrier T)) (fetched : List ArgType)
    (examined : List Nat) (undefined : Bool) :
    (runSpecs (typed garbage) xs attributes paramIndex
        ⟨xs.flatMap Spec.args ++ extra, fetched, examined, undefined⟩).args =
      ⟨extra, fetched ++ xs.flatMap fun x => x.args.map (·.1),
        examined ++ xs.filterMap fun x => (buffer x.type x.value).map examinedBytes,
        undefined || xs.any fun x => unterminated (buffer x.type x.value)⟩ := by
  induction xs generalizing attributes paramIndex fetched examined undefined with
  | nil => simp [runSpecs]
  | cons x xs ih =>
    rw [runSpecs_cons, List.flatMap_cons, List.append_assoc, fetchStars_typed,
      construct_typed garbage x (h x List.mem_cons_self), ih fun y hy => h y (List.mem_cons_of_mem x hy)]
    cases hb : buffer x.type x.value <;> simp [hb, Spec.args, Bool.or_assoc]

/-- Every parameter is stored under its index. -/
theorem runSpecs_stored {xs : List (Spec T)} (h : ∀ x ∈ xs, x.Supported) (pairs : List (Bytes × Value))
    (paramIndex : Nat) (extra : List (Σ t : ArgType, t.Carrier T)) (fetched : List ArgType) (examined : List Nat)
    (undefined : Bool) {n : Nat} {x : Spec T} {v : Value} (hx : xs[n]? = some x) (hv : x.parameter = some v) :
    (runSpecs (typed garbage) xs (.object pairs) paramIndex
        ⟨xs.flatMap Spec.args ++ extra, fetched, examined, undefined⟩).attributes.getByKey
      (parameterKey (paramIndex + n)) = v := by
  induction xs generalizing pairs paramIndex fetched examined undefined n with
  | nil => simp at hx
  | cons y xs ih =>
    have hy := h y List.mem_cons_self
    rw [runSpecs_cons, List.flatMap_cons, List.append_assoc, fetchStars_typed]
    cases n with
    | zero =>
      cases hx
      refine (runSpecs_getByKey (typed garbage) xs _ (Nat.lt_succ_self paramIndex) _).trans ?_
      refine (Value.lookup_insert _ _ _).trans ?_
      exact construct_parameter garbage hy hv _ _ _ _
    | succ n =>
      have htype := (fetchedType_eq_iff y.valid).mpr ⟨hy.1, hy.2.1⟩
      rw [construct_typed garbage y htype, Nat.add_comm n 1, ← Nat.add_assoc]
      exact ih (fun z hz => h z (List.mem_cons_of_mem y hz)) _ _ _ _ _ hx

theorem isSome_examined (x : Spec T) : ((buffer x.type x.value).map examinedBytes).isSome =
    ((buffer x.type x.value).map fun _ => x.precision.limit).isSome := by
  simp

theorem forall₂_filterMap {α : Type} {f : α → Option Nat} {g : α → Option (Option Nat)}
    (hfg : ∀ x, (f x).isSome = (g x).isSome) (l : List α) :
    List.Forall₂ (fun n limit => ∀ p, limit = some p → n ≤ p) (l.filterMap f) (l.filterMap g) ↔
      ∀ x ∈ l, ∀ n p, f x = some n → g x = some (some p) → n ≤ p := by
  induction l with
  | nil => simp
  | cons a l ih =>
    have ha := hfg a
    cases hf : f a with
    | none =>
      cases hg : g a with
      | none => simp [hf, hg, ih]
      | some limit => simp [hf, hg] at ha
    | some n =>
      cases hg : g a with
      | none => simp [hf, hg] at ha
      | some limit =>
        simp only [List.filterMap_cons, hf, hg, List.forall₂_cons, ih, List.forall_mem_cons]
        apply and_congr_left
        intro _
        constructor
        · rintro h m p ⟨⟩ ⟨⟩
          exact h p rfl
        · rintro h p rfl
          exact h n p rfl rfl

/-- A terminator within the first bytes is what keeps `strlen` within them. -/
theorem examinedBytes_le {b : Bytes} (h : 0 ∈ b) (p : Nat) : examinedBytes b ≤ p ↔ 0 ∈ b.take p := by
  rw [examinedBytes, if_pos h]
  induction b generalizing p with
  | nil => simp at h
  | cons c b ih =>
    cases p with
    | zero => simp
    | succ p =>
      by_cases hc : c = 0
      · simp [cstr, hc]
      · have hb : 0 ∈ b := by simpa [Ne.symm hc] using h
        have hrec := ih hb p
        simp only [cstr] at hrec
        simp [cstr, hc, Ne.symm hc, ← hrec]

/-- When the walk of the conversions is in step with the arguments. -/
theorem inStep_iff (ps : List (Piece T)) (pairs : List (Bytes × Value)) (extra : List (Σ t : ArgType, t.Carrier T)) :
    InStep ps extra (runSpecs (typed garbage) (specs ps) (.object pairs) 0
        ⟨(specs ps).flatMap Spec.args ++ extra, [], [], false⟩) ↔
      ∀ x ∈ specs ps, x.Supported := by
  constructor
  · intro h
    have hfetched := h.fetched
    rw [fetched_runSpecs, List.nil_append] at hfetched
    have htypes : ∀ x ∈ specs ps, fetchedType x.length x.conversion = x.type := by
      intro x hx
      have heq := flatMap_inj (by simp [Spec.walked, Spec.args]) hfetched x hx
      simpa [Spec.walked, Spec.args] using heq
    have hargs := runSpecs_args garbage htypes (.object pairs) 0 extra [] [] false
    have hexamined := h.examined
    simp only [hargs, List.nil_append] at hexamined
    rw [forall₂_filterMap isSome_examined] at hexamined
    have hdefined := h.defined
    rw [hargs, Bool.false_or, List.any_eq_false] at hdefined
    intro x hx
    obtain ⟨hkind, hwide⟩ := (fetchedType_eq_iff x.valid).mp (htypes x hx)
    refine ⟨hkind, hwide, fun b p hb hp => ?_⟩
    have h0 : 0 ∈ b := by simpa [hb, unterminated] using hdefined x hx
    exact (examinedBytes_le h0 p).mp (hexamined x hx _ p (by rw [hb]; rfl) (by rw [hb, ← hp]; rfl))
  · intro h
    have htypes : ∀ x ∈ specs ps, fetchedType x.length x.conversion = x.type := by
      intro x hx
      exact (fetchedType_eq_iff x.valid).mpr ⟨(h x hx).1, (h x hx).2.1⟩
    have hargs := runSpecs_args garbage htypes (.object pairs) 0 extra [] [] false
    constructor
    · rw [hargs]
      rfl
    · rw [hargs]
    · rw [hargs, Bool.false_or, List.any_eq_false]
      intro x hx
      cases hb : buffer x.type x.value with
      | none => simp [unterminated]
      | some b => simpa [unterminated] using Spec.zero_mem (h x hx) hb
    · rw [runSpecs_count, Nat.zero_add]
    · intro n x v hx hv
      have hstored := runSpecs_stored garbage h pairs 0 extra [] [] false hx hv
      rwa [Nat.zero_add] at hstored
    · simp only [hargs, List.nil_append]
      rw [forall₂_filterMap isSome_examined]
      intro x hx n p hn hp
      obtain ⟨b, hb, rfl⟩ := Option.map_eq_some_iff.mp hn
      rw [hb, Option.map_some, Option.some.injEq] at hp
      exact (examinedBytes_le (Spec.zero_mem (h x hx) hb) p).mpr ((h x hx).2.2 b p hb hp)

/-- The call on a well-formed format with its arguments, followed by `extra` ones. -/
theorem populate_render (ps : List (Piece T)) (pairs : List (Bytes × Value))
    (extra : List (Σ t : ArgType, t.Carrier T)) :
    populateMessageParameters (typed garbage) (.object pairs) (some (render ps ++ [nul]))
        ⟨(specs ps).flatMap Spec.args ++ extra, [], [], false⟩ =
      some (runSpecs (typed garbage) (specs ps) (.object pairs) 0
        ⟨(specs ps).flatMap Spec.args ++ extra, [], [], false⟩) := by
  unfold populateMessageParameters
  exact walk_render (typed garbage) ps (.object pairs) 0 _

theorem populate_terminated {σ : Type} (va : VaList T σ) (attributes : Value) (message : List Char) (args : σ) :
    ∃ w, populateMessageParameters va attributes (some (message ++ [nul])) args = some w := by
  unfold populateMessageParameters
  dsimp only
  split
  · exact ⟨_, rfl⟩
  · exact walk_terminated va (List.suffix_append message [nul]) attributes 0 args

end

/-- The walk stays in step with `printf` exactly on the conversions it knows, where every string has
its terminator within the precision. On any other format it still ends, without reading behind
the terminator. -/
theorem message_parameters (T : Target) (garbage : (t : ArgType) → t.Carrier T) (pairs : List (Bytes × Value)) :
    (∀ (ps : List (Piece T)) (extra : List (Σ t : ArgType, t.Carrier T)),
      ∃ w, populateMessageParameters (typed garbage) (.object pairs) (some (render ps ++ [nul]))
          ⟨(specs ps).flatMap Spec.args ++ extra, [], [], false⟩ = some w ∧
        (InStep ps extra w ↔ ∀ x ∈ specs ps, x.Supported)) ∧
      ∀ (σ : Type) (va : VaList T σ) (attributes : Value) (message : List Char) (args : σ),
        ∃ w, populateMessageParameters va attributes (some (message ++ [nul])) args = some w := by
  constructor
  · intro ps extra
    exact ⟨_, populate_render garbage ps pairs extra, inStep_iff garbage ps pairs extra⟩
  · intro σ va attributes message args
    exact populate_terminated va attributes message args

/-- A platform whose `long`, sizes and pointers have 64 bits. -/
def lp64 : Target where
  longBits := 64
  wordBits := 64
  long_le := Nat.le_refl 64
  word_le := Nat.le_refl 64
  LongDouble := UInt64
  toDouble := id
  pointerText v := 48 :: 120 :: printBase 16 97 v.toNat
  pointerText_fits v := by
    have hlen := length_printBase (by decide : 8 ≤ 16) 97 v.isLt
    refine ⟨by simp only [List.length_cons]; omega, ?_⟩
    unfold printBase
    split
    · decide
    · simp only [List.mem_cons, List.mem_map, List.mem_reverse, not_or, not_exists, not_and]
      refine ⟨by decide, by decide, fun d hd heq => ?_⟩
      have hd16 : d < 16 := Nat.digits_lt_base (by decide) hd
      interval_cases d <;> simp at heq

/-- `%a` with the double 1.0. -/
def hexFloat : Spec lp64 where
  flags := []
  width := .digits [] (by simp)
  precision := .absent
  length := .none
  conversion := .a
  type := .double
  valid := rfl
  value := (0x3ff0000000000000 : UInt64)
  legal := by
    rintro b ⟨⟩

def zeros : (t : ArgType) → t.Carrier lp64
  | .int | .unsignedInt | .wint => 0#32
  | .long | .unsignedLong | .longLong | .unsignedLongLong | .intmax | .uintmax => 0#64
  | .ssize | .size | .ptrdiff | .uptrdiff => 0#64
  | .double | .longDouble => (0 : UInt64)
  | .charPtr => none
  | .wcharPtr | .voidPtr | .countPtr _ => 0#64

/-- The argument of `%a` is fetched as a pointer. -/
theorem hex_float_fetched :
    render [.spec hexFloat] = ['%', 'a'] ∧
      ∃ w, populateMessageParameters (typed zeros) (.object []) (some ['%', 'a', nul])
          ⟨hexFloat.args, [], [], false⟩ = some w ∧
        w.args.fetched = [.voidPtr] ∧ w.args.undefined = true ∧ ¬ InStep [.spec hexFloat] [] w := by
  have hrun := populate_render zeros [.spec hexFloat] [] []
  refine ⟨rfl, _, hrun, rfl, rfl, ?_⟩
  rw [inStep_iff]
  intro h
  exact (h hexFloat List.mem_cons_self).1.1 rfl

end SentryNative.Logs
