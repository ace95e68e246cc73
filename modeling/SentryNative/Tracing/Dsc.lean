import Mathlib.Data.List.SplitOn
import SentryNative.Value.ObjectMap

/-!
# The dynamic sampling context

`sentry_tracing.c`, `sentry_scope.c` and `sentry_envelope.c`: the sampling context
of a continued trace is read from a `baggage` header, frozen on the scope, and put
on outgoing `baggage` headers and on the `trace` header of envelopes.
-/

namespace SentryNative.Dsc

open CLib ObjectMap

/-! ## Percent encoding -/

def isAlnumC (c : UInt8) : Bool :=
  (48 ≤ c && c ≤ 57) || (65 ≤ c && c ≤ 90) || (97 ≤ c && c ≤ 122)

/-- What RFC 3986 does not reserve. -/
def isUnreserved (c : UInt8) : Bool := isAlnumC c || c = 45 || c = 46 || c = 95 || c = 126

/-- The upper case digits of `percent_encode_append`. -/
def hexDigit (n : UInt8) : UInt8 := if n < 10 then 48 + n else 55 + n

def percentEncode (s : Bytes) : Bytes :=
  s.flatMap fun c => if isUnreserved c then [c] else [37, hexDigit (c >>> 4), hexDigit (c &&& 15)]

/-- The value of a digit, as `isxdigit` and `strtol` have it. -/
def hexValue (c : UInt8) : Option UInt8 :=
  if 48 ≤ c && c ≤ 57 then some (c - 48)
  else if 65 ≤ c && c ≤ 70 then some (c - 55)
  else if 97 ≤ c && c ≤ 102 then some (c - 87)
  else none

/-- `sentry__percent_decode_inplace`. -/
def percentDecode : Bytes → Bytes
  | 37 :: a :: b :: rest =>
    match hexValue a, hexValue b with
    | some x, some y => (16 * x + y) :: percentDecode rest
    | _, _ => 37 :: percentDecode (a :: b :: rest)
  | c :: rest => c :: percentDecode rest
  | [] => []

/-! ## Reading a header -/

def isSpace (c : UInt8) : Bool := c = 32 || c = 9 || c = 13 || c = 10

/-- `sentry__slice_trim`. -/
def trim (s : Bytes) : Bytes := ((s.dropWhile isSpace).reverse.dropWhile isSpace).reverse

/-- What `sentry__baggage_iter_next` makes of a member: its key and value, or
nothing when it goes on to the next. -/
def baggageMember (m : Bytes) : Option (Bytes × Bytes) :=
  let m := trim m
  if 61 ∈ m then
    let k := trim (m.takeWhile (· ≠ 61))
    if k = [] then none
    else
      let v := (m.dropWhile (· ≠ 61)).tail
      some (k, trim (v.takeWhile (· ≠ 59)))
  else none

def sentryPrefix : Bytes := ascii "sentry-"

/-- What `parse_baggage` does with a key and a value. -/
def setMember (dsc : List (Bytes × Value)) (m : Bytes × Bytes) : List (Bytes × Value) :=
  if sentryPrefix <+: m.1 ∧ sentryPrefix.length < m.1.length then
    setPairs (m.1.drop sentryPrefix.length) (.string (cstr (percentDecode m.2))) dsc
  else dsc

/-- `parse_baggage`, on the pairs of `incoming_dsc`. -/
def parseBaggage (incoming : List (Bytes × Value)) (header : Bytes) : List (Bytes × Value) :=
  ((header.splitOn 44).filterMap baggageMember).foldl setMember incoming

/-! ## The scope -/

/-- What of `sentry_scope_t` has to do with the sampling context or with the
operations that keep it. Transactions and spans are handles. -/
structure Scope where
  release : Option Bytes
  environment : Option Bytes
  dsc : Object Value
  traceManaged : Bool
  transactionObject : Option Nat
  span : Option Nat

/-- `sentry_value_is_null`. -/
def isNull (v : Value) : Bool :=
  match v with
  | .null => true
  | _ => false

theorem isNull_iff {v : Value} : isNull v = true ↔ v = .null := by
  cases v <;> simp [isNull]

/-- `sentry_value_new_string`, of a NULL pointer null. -/
def newString : Option Bytes → Value
  | some s => .string (cstr s)
  | none => .null

/-- The loop of `sentry__value_merge_objects` into an unfrozen object. Values of an
incoming context are strings, so no objects meet. -/
def mergePairs (src dst : List (Bytes × Value)) : List (Bytes × Value) :=
  src.foldl (fun dst (k, v) =>
    if isNull (getPairs .null (cstr k) dst) then setPairs (cstr k) v dst else dst) dst

/-- `sentry__scope_freeze_dsc`. -/
def Scope.freezeDsc (s : Scope) (incoming : List (Bytes × Value)) : Scope :=
  { s with dsc := ⟨true, mergePairs incoming []⟩ }

/-- Operations that do not replace the context. -/
inductive Op where
  | setRelease (release : Option Bytes)
  | setEnvironment (environment : Option Bytes)
  | clear
  /-- To go on with the copy. -/
  | clone
  | setTransactionObject (tx : Option Nat)
  | setSpan (span : Option Nat)
  | finishSpan (span : Nat)
  | finishTransaction (tx : Nat)

def Op.run (s : Scope) : Op → Scope
  | .setRelease release =>
    { s with
      release := release
      dsc := (s.dsc.setByKeyN (ascii "release") (newString release)).2 }
  | .setEnvironment environment =>
    { s with
      environment := environment
      dsc := (s.dsc.setByKeyN (ascii "environment") (newString environment)).2 }
  | .clear =>
    { s with
      release := none
      environment := none
      transactionObject := none
      span := none }
  | .clone =>
    -- the value is cloned, which thaws it, and frozen again
    let dsc : Object Value := { s.dsc with frozen := false }
    { s with dsc := if s.dsc.frozen then { dsc with frozen := true } else dsc }
  | .setTransactionObject tx => { s with span := none, transactionObject := tx }
  | .setSpan span => { s with transactionObject := none, span := span }
  | .finishSpan span => if s.span = some span then { s with span := none } else s
  | .finishTransaction tx =>
    if s.transactionObject = some tx then { s with transactionObject := none } else s

/-! ## Headers that go out -/

def traceIdKey : Bytes := ascii "trace_id"

/-- `append_baggage_member`; `sentry__value_stringify` of a string. -/
def baggageText (k : Bytes) (v : Value) : Bytes :=
  if k = traceIdKey || isNull v then []
  else ascii ",sentry-" ++ k ++ [61] ++ percentEncode v.asString

/-- The `baggage` header of `sentry__span_iter_headers`. -/
def Scope.baggage (s : Scope) (span : Value) : Option Bytes :=
  let traceId := span.getByKey traceIdKey
  if isNull traceId || isNull (span.getByKey (ascii "span_id")) then none
  else some (ascii "sentry-trace_id=" ++ traceId.asString ++
    s.dsc.pairs.flatMap fun p => baggageText (cstr p.1) p.2)

/-- The trace id of an event or a transaction. -/
def eventTraceId (event : Value) : Value :=
  ((event.getByKey (ascii "contexts")).getByKey (ascii "trace")).getByKey traceIdKey

def boolText (b : Bool) : Value := .string (if b then ascii "true" else ascii "false")

/-- A key is set unless its value is null. -/
def setUnlessNull (k : Bytes) (v : Value) (ps : List (Bytes × Value)) : List (Bytes × Value) :=
  if isNull v then ps else setPairs k v ps

/-- The `trace` header of `sentry__envelope_add_event`. The decision is whether
`sample_rand` is below `traces_sample_rate`, if there is a `sample_rand`. -/
def Scope.eventTrace (s : Scope) (event : Value) (decision : Option Bool) :
    Option (List (Bytes × Value)) :=
  let dsc := setUnlessNull traceIdKey (eventTraceId event) s.dsc.pairs
  let dsc := match decision with
    | some b => setPairs (ascii "sampled") (boolText b) dsc
    | none => dsc
  if dsc = [] then none else some dsc

/-- The `trace` header of `sentry__envelope_add_transaction`. -/
def Scope.transactionTrace (s : Scope) (tx : Value) : Option (List (Bytes × Value)) :=
  let traceId := eventTraceId tx
  let dsc := setUnlessNull traceIdKey traceId s.dsc.pairs
  let dsc := if isNull traceId then dsc else setPairs (ascii "sampled") (boolText true) dsc
  let dsc := setUnlessNull (ascii "transaction") (tx.getByKey (ascii "transaction")) dsc
  if dsc = [] then none else some dsc

/-! ## What is promised -/

/-- An incoming context with at least one value: strings under distinct keys. -/
structure Upstream where
  pairs : List (Bytes × Value)
  keyed : Keyed pairs
  strings : ∀ p ∈ pairs, ∃ s, p.2 = .string s ∧ 0 ∉ s
  ne_nil : pairs ≠ []

/-- Every upstream key but the trace id has the upstream value. -/
def Verbatim (u : Upstream) (header : List (Bytes × Value)) : Prop :=
  ∀ p ∈ u.pairs, p.1 ≠ traceIdKey → getPairs .null p.1 header = p.2

/-- The text has the key with the value, up to percent encoding. -/
def HasMember (text k s : Bytes) : Prop :=
  ∃ before after, text = before ++ ascii ",sentry-" ++ k ++ [61] ++ percentEncode s ++ after ∧
    (after = [] ∨ after.head? = some 44) ∧ percentDecode (percentEncode s) = s

/-- The upstream value of a key, if it has one, is the given one. -/
def Agrees (u : Upstream) (k : Bytes) (v : Value) : Prop := ∀ w, (k, w) ∈ u.pairs → w = v

/-! ## Percent encoding is undone -/

theorem hexValue_hexDigit : ∀ n < 256,
    hexValue (hexDigit (UInt8.ofNat n >>> 4)) = some (UInt8.ofNat n >>> 4) ∧
      hexValue (hexDigit (UInt8.ofNat n &&& 15)) = some (UInt8.ofNat n &&& 15) ∧
      (16 : UInt8) * (UInt8.ofNat n >>> 4) + (UInt8.ofNat n &&& 15) = UInt8.ofNat n := by
  decide +kernel

theorem percentDecode_escape (c : UInt8) (rest : Bytes) :
    percentDecode (37 :: hexDigit (c >>> 4) :: hexDigit (c &&& 15) :: rest) = c :: percentDecode rest := by
  have hc := hexValue_hexDigit c.toNat c.toNat_lt
  rw [UInt8.ofNat_toNat] at hc
  simp only [percentDecode, hc.1, hc.2.1, hc.2.2]

theorem percentDecode_plain {c : UInt8} (hc : c ≠ 37) (rest : Bytes) :
    percentDecode (c :: rest) = c :: percentDecode rest := by
  rw [percentDecode]
  intro a b r he
  exact absurd he hc

theorem percentDecode_percentEncode (s : Bytes) : percentDecode (percentEncode s) = s := by
  induction s with
  | nil => rfl
  | cons c s ih =>
    have hcons : percentEncode (c :: s) =
        (if isUnreserved c then [c] else [37, hexDigit (c >>> 4), hexDigit (c &&& 15)]) ++
          percentEncode s := rfl
    rw [hcons]
    split
    · rename_i hc
      have h37 : c ≠ 37 := by
        rintro rfl
        exact absurd hc (by decide)
      rw [List.singleton_append, percentDecode_plain h37, ih]
    · simp only [List.cons_append, List.nil_append]
      rw [percentDecode_escape, ih]

/-! ## What is read from a header -/

theorem zero_not_mem_trim {s : Bytes} (h : 0 ∉ s) : 0 ∉ trim s := by
  intro hm
  apply h
  unfold trim at hm
  have h1 := (List.dropWhile_suffix _).subset (List.mem_reverse.mp hm)
  exact (List.dropWhile_suffix _).subset (List.mem_reverse.mp h1)

theorem baggageMember_key {m k v : Bytes} (h : baggageMember m = some (k, v)) (hm : 0 ∉ m) : 0 ∉ k := by
  unfold baggageMember at h
  simp only at h
  split at h
  · split at h
    · cases h
    · cases h
      apply zero_not_mem_trim
      exact fun hz => zero_not_mem_trim hm ((List.takeWhile_prefix _).subset hz)
  · cases h

/-- The members of a header are cut out of it. -/
theorem mem_of_mem_splitOn {c x : UInt8} {s m : Bytes} (h : m ∈ s.splitOn c) (hx : x ∈ m) : x ∈ s := by
  suffices hall : ∀ ms : List Bytes, m ∈ ms → x ∈ [c].intercalate ms by
    have := hall _ h
    rwa [List.intercalate_splitOn] at this
  intro ms hm
  induction ms with
  | nil => cases hm
  | cons l ms ih =>
    cases ms with
    | nil =>
      rw [List.intercalate_singleton, ← List.mem_singleton.mp hm]
      exact hx
    | cons l' ms =>
      rw [List.intercalate_cons_cons, List.mem_append, List.mem_append]
      rcases List.mem_cons.mp hm with rfl | hm
      · exact Or.inl (Or.inl hx)
      · exact Or.inr (ih hm)

/-- A header without NUL gives distinct keys with strings. -/
theorem parseBaggage_spec {incoming : List (Bytes × Value)} {header : Bytes} (hz : 0 ∉ header)
    (hk : Keyed incoming) (hs : ∀ p ∈ incoming, ∃ s, p.2 = .string s ∧ 0 ∉ s) :
    Keyed (parseBaggage incoming header) ∧
      ∀ p ∈ parseBaggage incoming header, ∃ s, p.2 = .string s ∧ 0 ∉ s := by
  have hkeys : ∀ m ∈ (header.splitOn 44).filterMap baggageMember, 0 ∉ m.1 := by
    rintro ⟨k, v⟩ hm
    obtain ⟨text, htext, he⟩ := List.mem_filterMap.mp hm
    exact baggageMember_key he fun h0 => hz (mem_of_mem_splitOn htext h0)
  unfold parseBaggage
  generalize (header.splitOn 44).filterMap baggageMember = members at hkeys
  induction members generalizing incoming with
  | nil => exact ⟨hk, hs⟩
  | cons m members ih =>
    have hrest : ∀ m ∈ members, 0 ∉ m.1 := fun m hm => hkeys m (List.mem_cons_of_mem _ hm)
    have hsub : 0 ∉ m.1.drop sentryPrefix.length :=
      fun h0 => hkeys m List.mem_cons_self (List.mem_of_mem_drop h0)
    rw [List.foldl_cons]
    unfold setMember
    split
    · apply ih (hk.set hsub _) _ hrest
      intro p hp
      rcases mem_setPairs hp with hp | rfl
      · exact hs p hp
      · exact ⟨_, rfl, zero_not_mem_cstr _⟩
    · exact ih hk hs hrest

/-! ## The stored context -/

theorem mergePairs_keyed {src dst : List (Bytes × Value)} (hk : Keyed (dst ++ src)) :
    mergePairs src dst = dst ++ src := by
  induction src generalizing dst with
  | nil => simp only [mergePairs, List.foldl_nil, List.append_nil]
  | cons p src ih =>
    obtain ⟨k, v⟩ := p
    have hnodup := hk.nodup
    rw [List.map_append, List.map_cons, List.nodup_append] at hnodup
    have hdst : Keyed dst := ⟨fun q hq => hk.nulFree q (List.mem_append_left _ hq), hnodup.1⟩
    have hnew : k ∉ dst.map Prod.fst := fun hm => hnodup.2.2 k hm k List.mem_cons_self rfl
    have hcstr : cstr k = k := cstr_of_not_mem (hk.nulFree (k, v) (by simp))
    have hnext : dst ++ [(k, v)] ++ src = dst ++ (k, v) :: src := by simp
    have hstep : mergePairs ((k, v) :: src) dst = mergePairs src (dst ++ [(k, v)]) := by
      unfold mergePairs
      rw [List.foldl_cons]
      have hnull : isNull (getPairs .null k dst) = true :=
        isNull_iff.mpr (getPairs_of_not_mem Value.null hdst hnew)
      simp only [hcstr, hnull, if_true, setPairs_of_not_mem hdst hnew]
    rw [hstep, ih (hnext ▸ hk), hnext]

theorem freezeDsc_dsc (s : Scope) (u : Upstream) : (s.freezeDsc u.pairs).dsc = ⟨true, u.pairs⟩ := by
  unfold Scope.freezeDsc
  rw [mergePairs_keyed (by simpa using u.keyed), List.nil_append]

theorem run_dsc {s : Scope} (h : s.dsc.frozen = true) (op : Op) : (op.run s).dsc = s.dsc := by
  cases op with
  | setRelease release => simp only [Op.run, Object.setByKeyN, h, if_true]
  | setEnvironment environment => simp only [Op.run, Object.setByKeyN, h, if_true]
  | clear => rfl
  | clone =>
    simp only [Op.run, h, if_true]
    rw [← h]
  | setTransactionObject tx => rfl
  | setSpan span => rfl
  | finishSpan span =>
    simp only [Op.run]
    split <;> rfl
  | finishTransaction tx =>
    simp only [Op.run]
    split <;> rfl

theorem runs_dsc {s : Scope} (h : s.dsc.frozen = true) (ops : List Op) :
    (ops.foldl Op.run s).dsc = s.dsc := by
  induction ops generalizing s with
  | nil => rfl
  | cons op ops ih =>
    have hop := run_dsc h op
    rw [List.foldl_cons, ih (hop ▸ h), hop]

/-! ## The headers -/

section Headers

variable {s : Scope} {u : Upstream}

/-- A flat map with a value of the list in the middle. -/
theorem flatMap_split {f : Bytes × Value → Bytes} {ps : List (Bytes × Value)} {p : Bytes × Value}
    (h : p ∈ ps) :
    ∃ pre post : List (Bytes × Value), ps.flatMap f = pre.flatMap f ++ f p ++ post.flatMap f := by
  obtain ⟨pre, post, rfl⟩ := List.append_of_mem h
  exact ⟨pre, post, by rw [List.flatMap_append, List.flatMap_cons, List.append_assoc]⟩

theorem baggageText_head (k : Bytes) (v : Value) :
    baggageText k v = [] ∨ (baggageText k v).head? = some 44 := by
  unfold baggageText
  split
  · exact Or.inl rfl
  · exact Or.inr rfl

theorem flatMap_baggageText_head (ps : List (Bytes × Value)) :
    ps.flatMap (fun p => baggageText (cstr p.1) p.2) = [] ∨
      (ps.flatMap fun p => baggageText (cstr p.1) p.2).head? = some 44 := by
  induction ps with
  | nil => exact Or.inl rfl
  | cons p ps ih =>
    rw [List.flatMap_cons]
    rcases baggageText_head (cstr p.1) p.2 with h | h
    · rw [h, List.nil_append]
      exact ih
    · right
      rw [List.head?_append, h]
      rfl

/-- The members of the `baggage` header. -/
theorem baggage_member (hs : s.dsc.pairs = u.pairs) {span : Value} {text : Bytes}
    (h : s.baggage span = some text) {k str : Bytes} (hm : (k, .string str) ∈ u.pairs)
    (hk : k ≠ traceIdKey) : HasMember text k str := by
  have htext : ∃ start, text = start ++ s.dsc.pairs.flatMap fun p => baggageText (cstr p.1) p.2 := by
    unfold Scope.baggage at h
    simp only at h
    split at h
    · cases h
    · cases h
      exact ⟨_, rfl⟩
  obtain ⟨start, rfl⟩ := htext
  obtain ⟨str', he, hz⟩ := u.strings _ hm
  cases he
  have hcstr : cstr k = k := cstr_of_not_mem (u.keyed.nulFree _ hm)
  have hmember : baggageText (cstr k) (.string str) =
      ascii ",sentry-" ++ k ++ [61] ++ percentEncode str := by
    simp [baggageText, hcstr, hk, isNull, Value.asString, cstr_of_not_mem hz]
  rw [hs]
  obtain ⟨pre, post, hsplit⟩ := flatMap_split (f := fun p => baggageText (cstr p.1) p.2) hm
  refine ⟨start ++ pre.flatMap fun p => baggageText (cstr p.1) p.2,
    post.flatMap fun p => baggageText (cstr p.1) p.2, ?_, flatMap_baggageText_head post,
    percentDecode_percentEncode str⟩
  rw [hsplit, hmember]
  simp only [List.append_assoc]

theorem setPairs_ne_nil (k : Bytes) (v : Value) (ps : List (Bytes × Value)) : setPairs k v ps ≠ [] := by
  cases ps with
  | nil => simp [setPairs]
  | cons p ps =>
    unfold setPairs
    split <;> simp

theorem setUnlessNull_ne_nil {k : Bytes} {v : Value} {ps : List (Bytes × Value)} (h : ps ≠ []) :
    setUnlessNull k v ps ≠ [] := by
  unfold setUnlessNull
  split
  · exact h
  · exact setPairs_ne_nil _ _ _

/-- Another key is not touched. -/
theorem getPairs_setUnlessNull_of_ne {k k' : Bytes} (hk : 0 ∉ k) (hne : k' ≠ k) (v : Value)
    (ps : List (Bytes × Value)) :
    getPairs .null k' (setUnlessNull k v ps) = getPairs .null k' ps := by
  unfold setUnlessNull
  split
  · rfl
  · exact getPairs_setPairs_of_ne .null hk hne v ps

/-- Upstream values, except for some keys. -/
def VerbatimExcept (u : Upstream) (ks : List Bytes) (header : List (Bytes × Value)) : Prop :=
  ∀ p ∈ u.pairs, p.1 ≠ traceIdKey → p.1 ∉ ks → getPairs .null p.1 header = p.2

/-- A key that is set has the upstream value exactly if upstream agrees. -/
theorem verbatimExcept_set {ks : List Bytes} {ps : List (Bytes × Value)} {k : Bytes} (hk : 0 ∉ k)
    (hid : k ≠ traceIdKey) (hks : k ∉ ks) {v : Value} :
    VerbatimExcept u ks (setPairs k v ps) ↔ VerbatimExcept u (k :: ks) ps ∧ Agrees u k v := by
  constructor
  · intro h
    constructor
    · intro p hp hpid hpks
      rw [List.mem_cons, not_or] at hpks
      have hget := h p hp hpid hpks.2
      rwa [getPairs_setPairs_of_ne Value.null hk hpks.1] at hget
    · intro w hw
      have hget : getPairs .null k (setPairs k v ps) = w := h (k, w) hw hid hks
      rw [getPairs_setPairs Value.null hk] at hget
      exact hget.symm
  · rintro ⟨hother, hagrees⟩ ⟨k', w⟩ hp hpid hpks
    by_cases hpk : k' = k
    · subst k'
      show getPairs .null k (setPairs k v ps) = w
      rw [getPairs_setPairs Value.null hk]
      exact (hagrees w hp).symm
    · show getPairs .null k' (setPairs k v ps) = w
      rw [getPairs_setPairs_of_ne Value.null hk hpk]
      exact hother (k', w) hp hpid (by simp [hpk, hpks])

/-- The context with the trace id of an event. -/
theorem verbatimExcept_dsc (hs : s.dsc.pairs = u.pairs) (v : Value) (ks : List Bytes) :
    VerbatimExcept u ks (setUnlessNull traceIdKey v s.dsc.pairs) := by
  intro p hp hid _
  rw [getPairs_setUnlessNull_of_ne (by decide) hid, hs]
  exact getPairs_of_mem .null u.keyed hp

theorem verbatim_iff_except {header : List (Bytes × Value)} :
    Verbatim u header ↔ VerbatimExcept u [] header :=
  ⟨fun h p hp hid _ => h p hp hid, fun h p hp hid => h p hp hid List.not_mem_nil⟩

theorem eventTrace_verbatim (hs : s.dsc.pairs = u.pairs) (event : Value) (decision : Option Bool) :
    ∃ header, s.eventTrace event decision = some header ∧
      (Verbatim u header ↔ ∀ b, decision = some b → Agrees u (ascii "sampled") (boolText b)) := by
  have hne : s.dsc.pairs ≠ [] := hs ▸ u.ne_nil
  have hdsc := verbatimExcept_dsc hs (eventTraceId event)
  cases decision with
  | none =>
    refine ⟨setUnlessNull traceIdKey (eventTraceId event) s.dsc.pairs, ?_, ?_⟩
    · simp only [Scope.eventTrace, if_neg (setUnlessNull_ne_nil hne)]
    · rw [verbatim_iff_except]
      exact ⟨fun _ b hb => (nomatch hb), fun _ => hdsc []⟩
  | some b =>
    refine ⟨setPairs (ascii "sampled") (boolText b)
      (setUnlessNull traceIdKey (eventTraceId event) s.dsc.pairs), ?_, ?_⟩
    · simp only [Scope.eventTrace, if_neg (setPairs_ne_nil _ _ _)]
    · rw [verbatim_iff_except, verbatimExcept_set (by decide) (by decide) List.not_mem_nil]
      constructor
      · rintro ⟨-, hagrees⟩ b' hb
        cases hb
        exact hagrees
      · exact fun h => ⟨hdsc _, h b rfl⟩

/-- The header of a transaction before its name is set. -/
def sampledTrace (s : Scope) (tx : Value) : List (Bytes × Value) :=
  let dsc := setUnlessNull traceIdKey (eventTraceId tx) s.dsc.pairs
  if isNull (eventTraceId tx) then dsc else setPairs (ascii "sampled") (boolText true) dsc

theorem sampledTrace_except (hs : s.dsc.pairs = u.pairs) (tx : Value) {ks : List Bytes}
    (hks : ascii "sampled" ∉ ks) : VerbatimExcept u ks (sampledTrace s tx) ↔
      (eventTraceId tx ≠ .null → Agrees u (ascii "sampled") (boolText true)) := by
  have hdsc := verbatimExcept_dsc hs (eventTraceId tx)
  unfold sampledTrace
  simp only
  split
  · rename_i hn
    exact ⟨fun _ hid => absurd (isNull_iff.mp hn) hid, fun _ => hdsc ks⟩
  · rename_i hn
    have hid : eventTraceId tx ≠ .null := fun h => hn (isNull_iff.mpr h)
    rw [verbatimExcept_set (by decide) (by decide) hks]
    exact ⟨fun h _ => h.2, fun h => ⟨hdsc _, h hid⟩⟩

theorem sampledTrace_ne_nil (h : s.dsc.pairs ≠ []) (tx : Value) : sampledTrace s tx ≠ [] := by
  unfold sampledTrace
  simp only
  split
  · exact setUnlessNull_ne_nil h
  · exact setPairs_ne_nil _ _ _

theorem transactionTrace_verbatim (hs : s.dsc.pairs = u.pairs) (tx : Value) :
    ∃ header, s.transactionTrace tx = some header ∧
      (Verbatim u header ↔ (eventTraceId tx ≠ .null → Agrees u (ascii "sampled") (boolText true)) ∧
        (tx.getByKey (ascii "transaction") ≠ .null →
          Agrees u (ascii "transaction") (tx.getByKey (ascii "transaction")))) := by
  have hne : s.dsc.pairs ≠ [] := hs ▸ u.ne_nil
  refine ⟨setUnlessNull (ascii "transaction") (tx.getByKey (ascii "transaction")) (sampledTrace s tx),
    if_neg (setUnlessNull_ne_nil (sampledTrace_ne_nil hne tx)), ?_⟩
  rw [verbatim_iff_except]
  unfold setUnlessNull
  split
  · rename_i hn
    rw [sampledTrace_except hs tx List.not_mem_nil]
    exact ⟨fun h => ⟨h, fun hname => absurd (isNull_iff.mp hn) hname⟩, fun h => h.1⟩
  · rename_i hn
    have hname : tx.getByKey (ascii "transaction") ≠ .null := fun h => hn (isNull_iff.mpr h)
    rw [verbatimExcept_set (by decide) (by decide) List.not_mem_nil, sampledTrace_except hs tx (by decide)]
    exact ⟨fun h => ⟨h.1, fun _ => h.2⟩, fun h => ⟨h.1, h.2 hname⟩⟩

end Headers

/-- The context of a continued trace after any operations that do not replace it. It is
still frozen and the same, every `baggage` header has it, and a `trace` header has it
exactly if upstream agrees with what is overwritten there. -/
theorem dsc_propagates (u : Upstream) (scope : Scope) (ops : List Op) :
    let s := ops.foldl Op.run (scope.freezeDsc u.pairs)
    s.dsc = ⟨true, u.pairs⟩ ∧
      (∀ span text, s.baggage span = some text → ∀ k str, (k, .string str) ∈ u.pairs →
        k ≠ traceIdKey → HasMember text k str) ∧
      (∀ event decision, ∃ header, s.eventTrace event decision = some header ∧
        (Verbatim u header ↔ ∀ b, decision = some b → Agrees u (ascii "sampled") (boolText b))) ∧
      ∀ tx, ∃ header, s.transactionTrace tx = some header ∧
        (Verbatim u header ↔ (eventTraceId tx ≠ .null → Agrees u (ascii "sampled") (boolText true)) ∧
          (tx.getByKey (ascii "transaction") ≠ .null →
            Agrees u (ascii "transaction") (tx.getByKey (ascii "transaction")))) := by
  intro s
  have hdsc : s.dsc = ⟨true, u.pairs⟩ := by
    have hfrozen := freezeDsc_dsc scope u
    rw [runs_dsc (by rw [hfrozen]) ops, hfrozen]
  have hpairs : s.dsc.pairs = u.pairs := congrArg Object.pairs hdsc
  refine ⟨hdsc, ?_, eventTrace_verbatim hpairs, transactionTrace_verbatim hpairs⟩
  intro span text htext k str hm hk
  exact baggage_member hpairs htext hm hk

/-- The context of the header `sentry-sampled=true,sentry-transaction=a%20b`. -/
def sampledUpstream : Upstream where
  pairs := [(ascii "sampled", .string (ascii "true")), (ascii "transaction", .string (ascii "a b"))]
  keyed := ⟨by decide, by decide⟩
  strings := by
    intro p hp
    simp only [List.mem_cons, List.not_mem_nil, or_false] at hp
    rcases hp with rfl | rfl
    · exact ⟨_, rfl, by decide⟩
    · exact ⟨_, rfl, by decide⟩
  ne_nil := by simp

theorem parseBaggage_sampledUpstream :
    parseBaggage [] (ascii "sentry-sampled=true,sentry-transaction=a%20b") = sampledUpstream.pairs := by
  rfl

/-- Upstream sampled the trace, the local rate does not sample an event, and the header says
`sampled` is `false`; the name of a local transaction takes the place of upstream's. -/
theorem sampled_overwritten :
    let s := (Scope.mk none none .new true none none).freezeDsc sampledUpstream.pairs
    let tx := Value.object [(ascii "transaction", .string (ascii "c"))]
    (∃ header, s.eventTrace .null (some false) = some header ∧ ¬ Verbatim sampledUpstream header) ∧
      ∃ header, s.transactionTrace tx = some header ∧ ¬ Verbatim sampledUpstream header := by
  refine ⟨⟨_, rfl, fun h => ?_⟩, ⟨_, rfl, fun h => ?_⟩⟩
  · have hget := h (ascii "sampled", .string (ascii "true")) (by simp [sampledUpstream]) (by decide)
    have hfalse : Value.string (ascii "false") = .string (ascii "true") := hget
    exact absurd (Value.string.inj hfalse) (by decide)
  · have hget := h (ascii "transaction", .string (ascii "a b")) (by simp [sampledUpstream]) (by decide)
    have hname : Value.string (ascii "c") = .string (ascii "a b") := hget
    exact absurd (Value.string.inj hname) (by decide)

end SentryNative.Dsc
