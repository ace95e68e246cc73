import SentryNative.Value.Tree

/-!
# The JSON writer

`sentry_json.c` writes through a small machine: a depth counter, one comma bit
for each of the first 64 depths and a flag for a key that still waits for its
value. From depth 64 on nothing is written. The string builder behind it is
the byte string written so far; its allocations succeed, so `failed` stays
false and is left out.
-/

namespace SentryNative.Json

open CLib

/-- `SENTRY_JSON_MAX_DEPTH`. -/
def maxDepth : Nat := 64

/-- The locale-independent `%.16g` and `strtod`, which nothing here looks into. -/
structure DoubleText where
  print : UInt64 → Bytes
  strtod : Bytes → UInt64

/-- `isfinite` of a double given by its bits. -/
def isFinite (bits : UInt64) : Bool := (bits >>> 52) &&& 0x7ff != 0x7ff

/-- `depth` is a `uint32_t`: its updates wrap. -/
structure JsonWriter where
  out : Bytes
  wantComma : BitVec 64
  depth : Nat
  lastWasKey : Bool

def JsonWriter.new : JsonWriter := ⟨[], 0, 0, false⟩

namespace JsonWriter

def atMaxDepth (jw : JsonWriter) : Bool := decide (jw.depth ≥ maxDepth)

def setComma (jw : JsonWriter) (val : Bool) : JsonWriter :=
  if jw.atMaxDepth then jw
  else if val then { jw with wantComma := jw.wantComma ||| (1#64 <<< jw.depth) }
  else { jw with wantComma := jw.wantComma &&& ~~~(1#64 <<< jw.depth) }

def write (jw : JsonWriter) (text : Bytes) : JsonWriter := { jw with out := jw.out ++ text }

def writeChar (jw : JsonWriter) (c : UInt8) : JsonWriter := jw.write [c]

/-- Whether an item may be written here, after the comma it needs. -/
def canWriteItem (jw : JsonWriter) : Bool × JsonWriter :=
  if jw.atMaxDepth then (false, jw)
  else if jw.lastWasKey then (true, { jw with lastWasKey := false })
  else if (jw.wantComma >>> jw.depth).getLsbD 0 then (true, jw.writeChar 44)
  else (true, jw.setComma true)

def writeItem (jw : JsonWriter) (text : Bytes) : JsonWriter :=
  match jw.canWriteItem with
  | (true, jw) => jw.write text
  | (false, jw) => jw

end JsonWriter

open JsonWriter

/-- Lower-case `%x` of one hexadecimal digit. -/
def hexByte (d : Nat) : UInt8 := UInt8.ofNat (if d < 10 then 48 + d else 87 + d)

def needsEscaping (c : UInt8) : Bool := c < 32 || c == 34 || c == 92

/-- What `write_json_str` writes for one byte: the short escapes, `\u%04x` for
the other control characters, anything else as it is. -/
def escapeByte (c : UInt8) : Bytes :=
  if !needsEscaping c then [c]
  else if c = 92 then [92, 92]
  else if c = 34 then [92, 34]
  else if c = 8 then [92, 98]
  else if c = 12 then [92, 102]
  else if c = 10 then [92, 110]
  else if c = 13 then [92, 114]
  else if c = 9 then [92, 116]
  else [92, 117, 48, 48, hexByte (c.toNat / 16), hexByte (c.toNat % 16)]

/-- `write_json_str` between its quotes. -/
def quote (s : Bytes) : Bytes := 34 :: s.flatMap escapeByte ++ [34]

def writeNull (jw : JsonWriter) : JsonWriter := jw.writeItem (ascii "null")

def writeBool (jw : JsonWriter) (b : Bool) : JsonWriter :=
  jw.writeItem (if b then ascii "true" else ascii "false")

/-- `write_int32`, `write_int64` and `write_uint64`, each with its own `PRI` macro. -/
def writeInteger (jw : JsonWriter) (i : Int) : JsonWriter := jw.writeItem (printInt i)

def writeDouble (dt : DoubleText) (jw : JsonWriter) (bits : UInt64) : JsonWriter :=
  jw.writeItem
    (if 24 ≤ (dt.print bits).length ∨ !isFinite bits then ascii "null" else dt.print bits)

def writeStr (jw : JsonWriter) (s : Bytes) : JsonWriter := jw.writeItem (quote s)

/-- A key is written up to its NUL. -/
def writeKey (jw : JsonWriter) (k : Bytes) : JsonWriter :=
  match jw.canWriteItem with
  | (true, jw) => { jw.write (quote (cstr k) ++ [58]) with lastWasKey := true }
  | (false, jw) => jw

/-- `write_list_start` and `write_object_start`: the depth grows even where the
bracket is dropped. -/
def writeStart (jw : JsonWriter) (bracket : UInt8) : JsonWriter :=
  let jw := jw.writeItem [bracket]
  { jw with depth := (jw.depth + 1) % 2 ^ 32 }.setComma false

/-- `write_list_end` and `write_object_end`. -/
def writeEnd (jw : JsonWriter) (bracket : UInt8) : JsonWriter :=
  let jw := { jw with depth := (jw.depth + 2 ^ 32 - 1) % 2 ^ 32 }
  if jw.atMaxDepth then jw else jw.writeChar bracket

mutual

/-- `sentry__jsonwriter_write_value`. -/
def writeValue (dt : DoubleText) : Value → JsonWriter → JsonWriter
  | .null, jw => writeNull jw
  | .bool b, jw => writeBool jw b
  | .int32 i, jw => writeInteger jw i.toInt
  | .int64 i, jw => writeInteger jw i.toInt
  | .uint64 u, jw => writeInteger jw u.toNat
  | .double d, jw => writeDouble dt jw d
  | .string s, jw => writeStr jw s
  | .list vs, jw => writeEnd (writeItems dt vs (writeStart jw 91)) 93
  | .object ps, jw => writeEnd (writePairs dt ps (writeStart jw 123)) 125

def writeItems (dt : DoubleText) : List Value → JsonWriter → JsonWriter
  | [], jw => jw
  | v :: vs, jw => writeItems dt vs (writeValue dt v jw)

def writePairs (dt : DoubleText) : List (Bytes × Value) → JsonWriter → JsonWriter
  | [], jw => jw
  | (k, v) :: ps, jw => writePairs dt ps (writeValue dt v (writeKey jw k))

end

/-- `sentry__value_to_json`. -/
def toJson (dt : DoubleText) (v : Value) : Bytes := (writeValue dt v JsonWriter.new).out

/-! ## The text the machine is meant to write -/

def separator (comma : Bool) : Bytes := if comma then [44] else []

mutual

/-- The JSON text of a tree without doubles, whatever its depth. -/
def render : Value → Bytes
  | .null => ascii "null"
  | .bool b => if b then ascii "true" else ascii "false"
  | .int32 i => printInt i.toInt
  | .int64 i => printInt i.toInt
  | .uint64 u => printInt u.toNat
  | .double _ => ascii "null"
  | .string s => quote s
  | .list vs => 91 :: renderItems false vs ++ [93]
  | .object ps => 123 :: renderPairs false ps ++ [125]

def renderItems (comma : Bool) : List Value → Bytes
  | [] => []
  | v :: vs => separator comma ++ render v ++ renderItems true vs

def renderPairs (comma : Bool) : List (Bytes × Value) → Bytes
  | [] => []
  | (k, v) :: ps => separator comma ++ quote k ++ 58 :: render v ++ renderPairs true ps

end

mutual

/-- The tree below depth `d` with the container at depth 63 emptied. -/
def truncate (d : Nat) : Value → Value
  | .list vs => .list (if d + 1 < maxDepth then truncateItems (d + 1) vs else [])
  | .object ps => .object (if d + 1 < maxDepth then truncatePairs (d + 1) ps else [])
  | v => v

def truncateItems (d : Nat) : List Value → List Value
  | [] => []
  | v :: vs => truncate d v :: truncateItems d vs

def truncatePairs (d : Nat) : List (Bytes × Value) → List (Bytes × Value)
  | [] => []
  | (k, v) :: ps => (k, truncate d v) :: truncatePairs d ps

end

theorem truncatePairs_keys (d : Nat) (ps : List (Bytes × Value)) :
    (truncatePairs d ps).map Prod.fst = ps.map Prod.fst := by
  induction ps with
  | nil => rfl
  | cons p ps ih => simp [truncatePairs, ih]

/-! ## One item -/

def JsonWriter.bit (jw : JsonWriter) (i : Nat) : Bool := jw.wantComma.getLsbD i

/-- An item was written at the writer's own depth: the comma it needed comes
first, the bits of the enclosing containers are kept. -/
structure Wrote (jw jw' : JsonWriter) (text : Bytes) : Prop where
  out : jw'.out = jw.out ++ (separator (!jw.lastWasKey && jw.bit jw.depth) ++ text)
  depth : jw'.depth = jw.depth
  comma : jw'.bit jw.depth = (!jw.lastWasKey || jw.bit jw.depth)
  outer : ∀ i, i < jw.depth → jw'.bit i = jw.bit i

theorem setComma_bit {jw : JsonWriter} (h : jw.depth < maxDepth) (val : Bool) :
    (jw.setComma val).bit jw.depth = val := by
  have h' : jw.depth < 64 := h
  cases val <;> simp [setComma, atMaxDepth, JsonWriter.bit, Nat.not_le.mpr h, h']

theorem setComma_bit_of_ne (jw : JsonWriter) (val : Bool) {i : Nat} (hi : i ≠ jw.depth) :
    (jw.setComma val).bit i = jw.bit i := by
  unfold setComma
  split
  · rfl
  · cases val
    · simp only [JsonWriter.bit, Bool.false_eq_true, ↓reduceIte, BitVec.getLsbD_and,
        BitVec.getLsbD_not, BitVec.getLsbD_shiftLeft, BitVec.getLsbD_one]
      by_cases h64 : i < 64
      · by_cases hd : i < jw.depth
        · simp [h64, hd]
        · have : i - jw.depth ≠ 0 := by omega
          simp [h64, this]
      · simp [h64, BitVec.getLsbD_of_ge _ _ (Nat.not_lt.mp h64)]
    · simp only [JsonWriter.bit, ↓reduceIte, BitVec.getLsbD_or, BitVec.getLsbD_shiftLeft,
        BitVec.getLsbD_one]
      by_cases hd : i < jw.depth
      · simp [hd]
      · have : i - jw.depth ≠ 0 := by omega
        simp [this]

theorem setComma_out (jw : JsonWriter) (val : Bool) : (jw.setComma val).out = jw.out := by
  unfold setComma; split <;> [rfl; (split <;> rfl)]

theorem setComma_depth (jw : JsonWriter) (val : Bool) : (jw.setComma val).depth = jw.depth := by
  unfold setComma; split <;> [rfl; (split <;> rfl)]

theorem setComma_lastWasKey (jw : JsonWriter) (val : Bool) :
    (jw.setComma val).lastWasKey = jw.lastWasKey := by
  unfold setComma; split <;> [rfl; (split <;> rfl)]

theorem canWriteItem_of_max {jw : JsonWriter} (h : maxDepth ≤ jw.depth) :
    jw.canWriteItem = (false, jw) := by
  simp [canWriteItem, atMaxDepth, h]

theorem canWriteItem_of_lt {jw : JsonWriter} (h : jw.depth < maxDepth) :
    ∃ jw', jw.canWriteItem = (true, jw') ∧ Wrote jw jw' [] ∧ jw'.lastWasKey = false := by
  unfold canWriteItem
  have hmax : jw.atMaxDepth = false := by simpa [atMaxDepth] using h
  have hbit : (jw.wantComma >>> jw.depth).getLsbD 0 = jw.bit jw.depth := by
    simp [JsonWriter.bit]
  rw [hmax, hbit]
  cases hk : jw.lastWasKey with
  | true => exact ⟨_, rfl, ⟨by simp [hk, separator], rfl, by simp [hk, JsonWriter.bit],
      fun i _ => rfl⟩, rfl⟩
  | false =>
    cases hb : jw.bit jw.depth with
    | true => exact ⟨_, rfl, ⟨by simp [hk, hb, separator, writeChar, write], rfl,
        by simpa [hk, JsonWriter.bit, writeChar, write] using hb, fun i _ => rfl⟩, hk⟩
    | false =>
      refine ⟨_, rfl, ⟨by simp [hk, hb, separator, setComma_out], setComma_depth _ _, ?_, ?_⟩,
        by rw [setComma_lastWasKey, hk]⟩
      · simp [hk, setComma_bit h]
      · intro i hi
        exact setComma_bit_of_ne jw true (Nat.ne_of_lt hi)

theorem Wrote.more {jw jw' : JsonWriter} {a : Bytes} (h : Wrote jw jw' a) (b : Bytes) :
    Wrote jw (jw'.write b) (a ++ b) :=
  ⟨by simp [write, h.out, List.append_assoc], h.depth, h.comma, h.outer⟩

theorem writeItem_wrote {jw : JsonWriter} (h : jw.depth < maxDepth) (text : Bytes) :
    Wrote jw (jw.writeItem text) text ∧ (jw.writeItem text).lastWasKey = false := by
  obtain ⟨jw', he, hw, hk⟩ := canWriteItem_of_lt h
  simp only [writeItem, he]
  exact ⟨hw.more text, hk⟩

theorem writeItem_of_max {jw : JsonWriter} (h : maxDepth ≤ jw.depth) (text : Bytes) :
    jw.writeItem text = jw := by
  simp [writeItem, canWriteItem_of_max h]

theorem writeKey_wrote {jw : JsonWriter} (h : jw.depth < maxDepth) (k : Bytes) :
    Wrote jw (writeKey jw k) (quote (cstr k) ++ [58]) ∧ (writeKey jw k).lastWasKey = true := by
  obtain ⟨jw', he, hw, _⟩ := canWriteItem_of_lt h
  have := hw.more (quote (cstr k) ++ [58])
  constructor
  · simp only [writeKey, he]
    exact ⟨this.out, this.depth, this.comma, this.outer⟩
  · simp only [writeKey, he]

theorem writeKey_of_max {jw : JsonWriter} (h : maxDepth ≤ jw.depth) (k : Bytes) :
    writeKey jw k = jw := by
  simp [writeKey, canWriteItem_of_max h]

end SentryNative.Json
