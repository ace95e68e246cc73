import SentryNative.Envelope.Model
import SentryNative.Lib.Scan
import SentryNative.Tracing.Dsc

/-!
# Continuing a trace

The transaction context that `sentry_tracing.c` makes of the headers of a request, and
the `sentry-trace` header of a span.
-/

namespace SentryNative.Dsc

open CLib ObjectMap

/-- The pairs of the `inner` object of a `sentry_transaction_context_t`. -/
abbrev Context := List (Bytes × Value)

def parentSpanIdKey : Bytes := ascii "parent_span_id"
def sampledKey : Bytes := ascii "sampled"
def incomingKey : Bytes := ascii "incoming_dsc"

/-! ## Reading the headers -/

/-- `is_valid_nonzero_hexstring`. -/
def nonzeroHex (s : Bytes) : Bool := s.all isHexDigit && s.any (· ≠ 48)

/-- `is_valid_id`, of a buffer that is read as a C string. -/
def isValidId (id : Bytes) (expectedLen : Nat) : Bool :=
  (cstr id).length == expectedLen && nonzeroHex (cstr id)

/-- Marks that an upstream trace was received. -/
def markIncoming (ctx : Context) : Context :=
  if isNull (getPairs .null incomingKey ctx) then setPairs incomingKey (.object []) ctx else ctx

/-- What `parse_sentry_trace` does with the text behind the trace id. With and without a
flag the span id is checked and set alike. -/
def parseSpanId (ctx : Context) (s : Bytes) : Context :=
  let spanId := s.takeWhile (· ≠ 45)
  if !isValidId spanId 16 then ctx
  else
    let ctx := setPairs parentSpanIdKey (.string (cstr spanId)) ctx
    match s.dropWhile (· ≠ 45) with
    | [] => ctx
    | _ :: flag => setPairs sampledKey (.bool (flag.head? == some 49)) ctx

/-- `parse_sentry_trace`. -/
def parseSentryTrace (ctx : Context) (value : Bytes) : Context :=
  match value.dropWhile (· ≠ 45) with
  | [] => ctx
  | _ :: s =>
    let traceId := value.takeWhile (· ≠ 45)
    if !isValidId traceId 32 then ctx
    else parseSpanId (markIncoming (setPairs traceIdKey (.string (cstr traceId)) ctx)) s

/-- `parse_baggage`, which changes the object under `incoming_dsc` in place. -/
def parseBaggageHeader (ctx : Context) (value : Bytes) : Context :=
  let ctx := markIncoming ctx
  match getPairs .null incomingKey ctx with
  | .object pairs => setPairs incomingKey (.object (parseBaggage pairs value)) ctx
  | _ => ctx

/-- `tolower` in the C locale. -/
def toLower (c : UInt8) : UInt8 := if 65 ≤ c && c ≤ 90 then c + 32 else c

/-- `compare_header_key`. -/
def compareHeaderKey (key expected : Bytes) : Bool := key.map toLower == expected

/-- `sentry_transaction_context_update_from_header_n`. -/
def updateFromHeader (ctx : Context) (key value : Bytes) : Context :=
  if compareHeaderKey key (ascii "sentry-trace") then parseSentryTrace ctx value
  else if compareHeaderKey key (ascii "baggage") then parseBaggageHeader ctx value
  else ctx

/-- So many hex digits, not all zero. -/
structure IsId (n : Nat) (s : Bytes) : Prop where
  length : s.length = n
  digits : ∀ c ∈ s, isHexDigit c = true
  nonzero : ∃ c ∈ s, c ≠ 48

/-- Trace id, span id and maybe a flag. -/
def traceText (traceId spanId : Bytes) (flag : Option Bytes) : Bytes :=
  traceId ++ 45 :: (spanId ++ flag.elim [] (45 :: ·))

def WellFormed (value : Bytes) : Prop :=
  ∃ traceId spanId flag, value = traceText traceId spanId flag ∧ IsId 32 traceId ∧ IsId 16 spanId

/-- Before the first `-`, if there is one, is a valid trace id, read up to a NUL. -/
def StartsTrace (value : Bytes) : Prop :=
  45 ∈ value ∧ isValidId (value.takeWhile (· ≠ 45)) 32 = true

theorem IsId.free {n : Nat} {s : Bytes} (h : IsId n s) : 0 ∉ s ∧ ∀ c ∈ s, c ≠ 45 := by
  refine ⟨fun h0 => ?_, fun c hc h45 => ?_⟩
  · exact absurd (h.digits 0 h0) (by decide)
  · exact absurd (h.digits c hc) (by rw [h45]; decide)

theorem IsId.isValidId {n : Nat} {s : Bytes} (h : IsId n s) : isValidId s n = true := by
  obtain ⟨c, hc, hne⟩ := h.nonzero
  simp only [Dsc.isValidId, cstr_of_not_mem h.free.1, nonzeroHex, Bool.and_eq_true, beq_iff_eq,
    List.all_eq_true, List.any_eq_true, decide_eq_true_eq]
  exact ⟨h.length, h.digits, c, hc, hne⟩

/-- The text is cut at its dashes. -/
theorem cut_dash {s t : Bytes} (h : ∀ c ∈ s, c ≠ 45) (ht : ∀ c ∈ t.head?, c = 45) :
    (s ++ t).takeWhile (· ≠ 45) = s ∧ (s ++ t).dropWhile (· ≠ 45) = t :=
  takeWhile_part (by simpa using h) (by simpa using ht)

theorem flag_head (flag : Option Bytes) : ∀ c ∈ (flag.elim [] (45 :: ·) : Bytes).head?, c = 45 := by
  cases flag <;> simp

section Writes

variable {ctx : Context} {value s : Bytes}

theorem getPairs_incoming_markIncoming (ctx : Context) :
    getPairs .null incomingKey (markIncoming ctx) =
      if isNull (getPairs .null incomingKey ctx) then .object [] else getPairs .null incomingKey ctx := by
  unfold markIncoming
  split
  · exact getPairs_setPairs Value.null (by decide) _ _
  · rfl

/-- The span id and the flag are all that the second part writes. -/
theorem getPairs_parseSpanId (ctx : Context) (s : Bytes) {k : Bytes} (hp : k ≠ parentSpanIdKey)
    (hs : k ≠ sampledKey) : getPairs .null k (parseSpanId ctx s) = getPairs .null k ctx := by
  unfold parseSpanId
  dsimp only
  split
  · rfl
  · split
    · exact getPairs_setPairs_of_ne Value.null (by decide) hp _ _
    · rw [getPairs_setPairs_of_ne Value.null (by decide) hs, getPairs_setPairs_of_ne Value.null (by decide) hp]

end Writes

theorem parseSentryTrace_starts {value : Bytes} (h : StartsTrace value) (ctx : Context) :
    parseSentryTrace ctx value = parseSpanId
      (markIncoming (setPairs traceIdKey (.string (cstr (value.takeWhile (· ≠ 45)))) ctx))
      (value.dropWhile (· ≠ 45)).tail := by
  unfold parseSentryTrace
  cases hd : value.dropWhile (· ≠ 45) with
  | nil =>
    have hall := List.dropWhile_eq_nil_iff.mp hd 45 h.1
    simp at hall
  | cons c s =>
    simp only [h.2, Bool.not_true, Bool.false_eq_true, if_false, List.tail_cons]

theorem parseSentryTrace_ignored {value : Bytes} (h : ¬ StartsTrace value) (ctx : Context) :
    parseSentryTrace ctx value = ctx := by
  unfold parseSentryTrace
  cases hd : value.dropWhile (· ≠ 45) with
  | nil => rfl
  | cons c s =>
    have hc : c = 45 := by
      have := List.head?_dropWhile_not (fun c : UInt8 => decide (c ≠ 45)) value
      rw [hd] at this
      simpa using this
    have hmem : 45 ∈ value := by
      rw [← List.takeWhile_append_dropWhile (p := fun c : UInt8 => decide (c ≠ 45)) (l := value), hd, hc]
      simp
    cases hv : isValidId (value.takeWhile (· ≠ 45)) 32 with
    | false => simp only [hv, Bool.not_false, if_true]
    | true => exact absurd ⟨hmem, hv⟩ h

theorem traceText_cut {traceId spanId : Bytes} (flag : Option Bytes) (ht : IsId 32 traceId)
    (hs : IsId 16 spanId) :
    (traceText traceId spanId flag).takeWhile (· ≠ 45) = traceId ∧
      (traceText traceId spanId flag).dropWhile (· ≠ 45) =
        45 :: (spanId ++ flag.elim [] (45 :: ·)) ∧
      (spanId ++ flag.elim [] (45 :: ·)).takeWhile (· ≠ 45) = spanId ∧
      (spanId ++ flag.elim [] (45 :: ·)).dropWhile (· ≠ 45) = flag.elim [] (45 :: ·) := by
  obtain ⟨h1, h2⟩ := cut_dash (t := 45 :: (spanId ++ flag.elim [] (45 :: ·))) ht.free.2 (by simp)
  obtain ⟨h3, h4⟩ := cut_dash (t := flag.elim [] (45 :: ·)) hs.free.2 (flag_head flag)
  exact ⟨h1, h2, h3, h4⟩

theorem WellFormed.startsTrace {value : Bytes} (h : WellFormed value) : StartsTrace value := by
  obtain ⟨traceId, spanId, flag, rfl, ht, hs⟩ := h
  exact ⟨by simp [traceText], by rw [(traceText_cut flag ht hs).1]; exact ht.isValidId⟩

end SentryNative.Dsc
