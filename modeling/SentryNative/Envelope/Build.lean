import SentryNative.Envelope.Framing

/-!
# Envelopes built by the API

Every sequence of calls that add items or set headers keeps the envelope
framed, so what `sentry_envelope_serialize` writes is read back item by item.
-/

namespace SentryNative.Envelope

open CLib Json

/-- The headers that callers set on an item after it was added. -/
inductive ItemKey where
  | attachmentType
  | filename

def ItemKey.text : ItemKey → Bytes
  | .attachmentType => ascii "attachment_type"
  | .filename => ascii "filename"

/-- A call of the envelope API on a non-raw envelope. -/
inductive Call where
  | setHeader (key : Bytes) (value : Value)
  | addFromBuffer (buf type : Bytes)
  | addSession (json : Bytes)
  | addEvent (event : Value) (eventId : Bytes) (dsc : Value) (sampled : Option Bool)
  | addTransaction (transaction : Value) (eventId : Bytes) (dsc : Value) (now : Bytes)
  | addLogs (logs : Value)
  | addMetrics (metrics : Value)
  | addUserReport (userReport : Value) (eventId : Bytes)
  | addFeedbackEvent (event : Value) (eventId : Bytes) (dsc : Value) (sampled : Option Bool)
  | addAttachmentRef (ref : Option AttachmentRef) (filename attachmentType : Option Bytes)
      (attachmentLength : UInt64)
  | addAttachment (bytes : Bytes) (type contentType filename : Option Bytes)
  | addClientReport (report : Counts) (timestamp : Bytes)
  | setItemHeader (key : ItemKey) (value : Bytes)

section

variable (dt : DoubleText)

def Call.apply (e : Envelope) : Call → Envelope
  | .setHeader k v => Envelope.setHeader e (cstr k) v
  | .addFromBuffer buf type => Envelope.addFromBuffer e buf type
  | .addSession json => Envelope.addSession e json
  | .addEvent v i d s => Envelope.addEvent dt e v i d s
  | .addTransaction v i d n => Envelope.addTransaction dt e v i d n
  | .addLogs v => Envelope.addLogs dt e v
  | .addMetrics v => Envelope.addMetrics dt e v
  | .addUserReport v i => Envelope.addUserReport dt e v i
  | .addFeedbackEvent v i d s => Envelope.addFeedbackEvent dt e v i d s
  | .addAttachmentRef r f t n => Envelope.addAttachmentRef dt e r f t n
  | .addAttachment b t c f => Envelope.addAttachment e b t c f
  | .addClientReport r t => Envelope.addClientReport dt e r t
  | .setItemHeader k v => updateLast e (·.setHeader k.text (newString v))

/-- The envelope after a sequence of calls. -/
def build (dsn : Option Bytes) (calls : List Call) : Envelope :=
  calls.foldl (Call.apply dt) (new dsn)

end

/-! ## Items -/

/-- A header value an item may have. -/
structure Scalar (v : Value) : Prop where
  plain : v.Plain
  height : v.height = 0

theorem scalar_newString (s : Bytes) : Scalar (newString s) := ⟨.string _, rfl⟩

theorem scalar_lengthValue (n : Nat) : Scalar (lengthValue n) := ⟨.int32 _, rfl⟩

theorem scalar_uint64 (u : UInt64) : Scalar (.uint64 u) := ⟨.uint64 u, rfl⟩

theorem scalar_null : Scalar .null := ⟨.null, rfl⟩

/-- The headers are flat; nothing is said of the length yet. -/
def FlatHeaders (item : Item) : Prop := ∃ ps, item.headers = .object ps ∧ Value.Flat ps

def IsFramed (item : Item) : Prop := ∃ ps, Framed item ps

theorem IsFramed.flat {item : Item} (h : IsFramed item) : FlatHeaders item := by
  obtain ⟨ps, h⟩ := h
  exact ⟨ps, h.headers, h.flat⟩

theorem flatHeaders_new (payload : Bytes) : FlatHeaders { Item.new with payload := payload } :=
  ⟨[], rfl, Value.Flat.nil⟩

theorem isFramed_new : IsFramed Item.new := ⟨[], rfl, Value.Flat.nil, Or.inr ⟨rfl, rfl⟩⟩

theorem setHeader_headers {item : Item} {ps : List (Bytes × Value)}
    (h : item.headers = .object ps) (key : Bytes) (v : Value) :
    (item.setHeader key v).headers = .object (Value.insert key v ps) := by
  simp only [Item.setHeader, h, Value.setByKey]

theorem FlatHeaders.setHeader {item : Item} (h : FlatHeaders item) {key : Bytes} (hk : 0 ∉ key)
    {v : Value} (hv : Scalar v) : FlatHeaders (item.setHeader key v) := by
  obtain ⟨ps, hps, hf⟩ := h
  exact ⟨_, setHeader_headers hps key v, hf.insert hk hv.plain hv.height⟩

/-- The `length` header frames whatever payload the item has. -/
theorem FlatHeaders.setLength {item : Item} (h : FlatHeaders item) :
    IsFramed (item.setHeader lengthKey (lengthValue item.payload.length)) := by
  obtain ⟨ps, hps, hf⟩ := h
  have hv := scalar_lengthValue item.payload.length
  refine ⟨_, setHeader_headers hps _ _, hf.insert (by decide) hv.plain hv.height, Or.inl ?_⟩
  exact Value.lookup_insert _ _ _

theorem FlatHeaders.setPayload {item : Item} (h : FlatHeaders item) (payload : Bytes) :
    IsFramed (item.setPayload payload) := by
  obtain ⟨ps, hps, hf⟩ := h
  have : FlatHeaders { item with payload := payload } := ⟨ps, hps, hf⟩
  exact this.setLength

theorem IsFramed.setHeader {item : Item} (h : IsFramed item) {key : Bytes} (hk : 0 ∉ key)
    (hl : key ≠ lengthKey) {v : Value} (hv : Scalar v) : IsFramed (item.setHeader key v) := by
  obtain ⟨ps, h⟩ := h
  refine ⟨_, setHeader_headers h.headers key v, h.flat.insert hk hv.plain hv.height, ?_⟩
  rw [Value.lookup_insert_of_ne hl]
  exact h.length

theorem IsFramed.setOptional {item : Item} (h : IsFramed item) {key : Bytes} (hk : 0 ∉ key)
    (hl : key ≠ lengthKey) (s : Option Bytes) : IsFramed (item.setOptional key s) := by
  cases s with
  | none => exact h
  | some s => exact h.setHeader hk hl (scalar_newString s)

theorem flatHeaders_jsonItem (dt : DoubleText) (v : Value) (type : Bytes) :
    FlatHeaders (jsonItem dt v type) :=
  (flatHeaders_new _).setHeader (by decide) (scalar_newString type)

theorem isFramed_buffer (buf type : Bytes) : IsFramed
    (({ Item.new with payload := buf }.setHeader typeKey (newString type)).setHeader lengthKey
      (lengthValue buf.length)) :=
  @FlatHeaders.setLength ({ Item.new with payload := buf }.setHeader typeKey (newString type))
    ((flatHeaders_new buf).setHeader (by decide) (scalar_newString type))

/-! ## Envelopes -/

/-- A header object and framed items. -/
def AllFramed (e : Envelope) : Prop :=
  ∃ ps is, e = .items (.object ps) is ∧ ∀ i ∈ is, IsFramed i

theorem allFramed_new (dsn : Option Bytes) : AllFramed (new dsn) := by
  cases dsn with
  | none => exact ⟨[], [], rfl, by simp⟩
  | some s => exact ⟨_, [], rfl, by simp⟩

theorem AllFramed.setHeader {e : Envelope} (h : AllFramed e) (key : Bytes) (v : Value) :
    AllFramed (setHeader e key v) := by
  obtain ⟨ps, is, rfl, his⟩ := h
  exact ⟨_, is, rfl, his⟩

theorem AllFramed.addItem {e : Envelope} (h : AllFramed e) {item : Item} (hi : IsFramed item) :
    AllFramed (addItem e item) := by
  obtain ⟨ps, is, rfl, his⟩ := h
  refine ⟨ps, is ++ [item], rfl, ?_⟩
  intro i hmem
  rcases List.mem_append.mp hmem with hmem | hmem
  · exact his i hmem
  · rw [List.mem_singleton.mp hmem]
    exact hi

theorem mem_modify {f : Item → Item} {is : List Item} {n : Nat} {i : Item}
    (h : i ∈ is.modify n f) : i ∈ is ∨ ∃ j ∈ is, i = f j := by
  induction is generalizing n with
  | nil => simp at h
  | cons a is ih =>
    cases n with
    | zero =>
      simp only [List.modify_zero_cons, List.mem_cons] at h
      rcases h with h | h
      · exact Or.inr ⟨a, by simp, h⟩
      · exact Or.inl (List.mem_cons_of_mem a h)
    | succ n =>
      simp only [List.modify_succ_cons, List.mem_cons] at h
      rcases h with h | h
      · exact Or.inl (by simp [h])
      · rcases ih h with h | ⟨j, hj, hij⟩
        · exact Or.inl (List.mem_cons_of_mem a h)
        · exact Or.inr ⟨j, List.mem_cons_of_mem a hj, hij⟩

theorem AllFramed.updateLast {e : Envelope} (h : AllFramed e) {f : Item → Item}
    (hf : ∀ i, IsFramed i → IsFramed (f i)) : AllFramed (updateLast e f) := by
  obtain ⟨ps, is, rfl, his⟩ := h
  refine ⟨ps, _, rfl, ?_⟩
  intro i hmem
  rcases mem_modify hmem with hmem | ⟨j, hj, rfl⟩
  · exact his i hmem
  · exact hf j (his j hj)

theorem AllFramed.setTrace {e : Envelope} (h : AllFramed e) (dsc : Value) :
    AllFramed (setTrace e dsc) := by
  unfold Envelope.setTrace
  split
  · exact h.setHeader _ _
  · exact h

section

variable {dt : DoubleText} {e : Envelope}

theorem AllFramed.addFromBuffer (h : AllFramed e) (buf type : Bytes) :
    AllFramed (addFromBuffer e buf type) := h.addItem (isFramed_buffer buf type)

theorem AllFramed.addEvent (h : AllFramed e) (event : Value) (eventId : Bytes) (dsc : Value)
    (sampled : Option Bool) : AllFramed (addEvent dt e event eventId dsc sampled) := by
  unfold Envelope.addEvent
  have hi : FlatHeaders { jsonItem dt event (ascii "event") with event := event } :=
    flatHeaders_jsonItem dt event _
  have h1 := (h.addItem hi.setLength).setHeader (ascii "event_id") (newString eventId)
  simp only
  split
  · exact h1
  · exact h1.setTrace _

theorem AllFramed.addTransaction (h : AllFramed e) (transaction : Value) (eventId : Bytes)
    (dsc : Value) (now : Bytes) : AllFramed (addTransaction dt e transaction eventId dsc now) := by
  unfold Envelope.addTransaction
  have hi : FlatHeaders { jsonItem dt transaction (ascii "transaction") with event := transaction } :=
    flatHeaders_jsonItem dt transaction _
  have h1 := (h.addItem hi.setLength).setHeader (ascii "event_id") (newString eventId)
  apply AllFramed.setHeader
  simp only
  split
  · exact h1
  · exact h1.setTrace _

theorem AllFramed.addTelemetry (h : AllFramed e) (telemetry : Value) (type contentType : Bytes) :
    AllFramed (addTelemetry dt e telemetry type contentType) := by
  apply h.addItem
  apply FlatHeaders.setLength
  apply FlatHeaders.setHeader _ (by decide) (scalar_newString contentType)
  exact (flatHeaders_jsonItem dt telemetry type).setHeader (by decide) (scalar_lengthValue _)

theorem AllFramed.addUserReport (h : AllFramed e) (userReport : Value) (eventId : Bytes) :
    AllFramed (addUserReport dt e userReport eventId) :=
  (h.addItem (flatHeaders_jsonItem dt userReport _).setLength).setHeader _ _

theorem AllFramed.addFeedbackEvent (h : AllFramed e) (event : Value) (eventId : Bytes)
    (dsc : Value) (sampled : Option Bool) :
    AllFramed (addFeedbackEvent dt e event eventId dsc sampled) :=
  (h.addEvent event eventId dsc sampled).updateLast fun _ hi =>
    hi.setHeader (by decide) (by decide) (scalar_newString _)

theorem AllFramed.addAttachmentRef (h : AllFramed e) (ref : Option AttachmentRef)
    (filename attachmentType : Option Bytes) (attachmentLength : UInt64) :
    AllFramed (addAttachmentRef dt e ref filename attachmentType attachmentLength) := by
  unfold Envelope.addAttachmentRef
  have h1 : IsFramed (Item.new.setHeader typeKey (newString (ascii "attachment"))) :=
    isFramed_new.setHeader (by decide) (by decide) (scalar_newString _)
  have h2 := @IsFramed.setHeader _ h1 (ascii "content_type") (by decide) (by decide) _
    (scalar_newString attachmentRefMime)
  have h3 := @IsFramed.setOptional _ h2 (ascii "filename") (by decide) (by decide) filename
  have h4 := @IsFramed.setOptional _ h3 (ascii "attachment_type") (by decide) (by decide)
    (nonEmpty attachmentType)
  have h5 := @IsFramed.setHeader _ h4 (ascii "attachment_length") (by decide) (by decide) _
    (scalar_uint64 attachmentLength)
  cases ref with
  | none => exact h.addItem h5
  | some ref =>
    simp only
    split
    · exact h.addItem (h5.flat.setPayload _)
    · exact h.addItem h5

theorem AllFramed.addAttachment (h : AllFramed e) (bytes : Bytes)
    (type contentType filename : Option Bytes) :
    AllFramed (addAttachment e bytes type contentType filename) := by
  refine (h.addFromBuffer bytes _).updateLast fun i hi => ?_
  apply IsFramed.setHeader _ (by decide) (by decide)
  · cases filename with
    | none => exact scalar_null
    | some s => exact scalar_newString s
  · exact (hi.setOptional (by decide) (by decide) _).setOptional (by decide) (by decide) _

/-- Every call keeps the envelope framed. -/
theorem AllFramed.apply (h : AllFramed e) (call : Call) : AllFramed (call.apply dt e) := by
  cases call with
  | setHeader k v => exact h.setHeader _ _
  | addFromBuffer buf type => exact h.addFromBuffer buf type
  | addSession json => exact h.addFromBuffer json _
  | addEvent v i d s => exact h.addEvent v i d s
  | addTransaction v i d n => exact h.addTransaction v i d n
  | addLogs v => exact h.addTelemetry v _ _
  | addMetrics v => exact h.addTelemetry v _ _
  | addUserReport v i => exact h.addUserReport v i
  | addFeedbackEvent v i d s => exact h.addFeedbackEvent v i d s
  | addAttachmentRef r f t n => exact h.addAttachmentRef r f t n
  | addAttachment b t c f => exact h.addAttachment b t c f
  | addClientReport r t => exact h.addFromBuffer _ _
  | setItemHeader k v =>
    refine h.updateLast fun i hi => ?_
    cases k with
    | attachmentType => exact hi.setHeader (by decide) (by decide) (scalar_newString v)
    | filename => exact hi.setHeader (by decide) (by decide) (scalar_newString v)

theorem allFramed_build (dsn : Option Bytes) (calls : List Call) :
    AllFramed (build dt dsn calls) := by
  have run : ∀ (calls : List Call) (e : Envelope), AllFramed e →
      AllFramed (calls.foldl (Call.apply dt) e) := by
    intro calls
    induction calls with
    | nil => intro e h; exact h
    | cons c calls ih => intro e h; exact ih _ (h.apply c)
  exact run calls _ (allFramed_new dsn)

end

/-! ## The round trip -/

/-- **The framing round trip.** What the calls built is read back with its
headers normalised and every item in place, with its payload byte for byte. -/
theorem deserialize_serialize (dt : DoubleText) (dsn : Option Bytes) (calls : List Call)
    {headers : Value} {is : List Item} (he : build dt dsn calls = .items headers is)
    (hp : headers.Plain) (hh : headers.height < 2 ^ 32)
    (hlen : ∀ i ∈ is, i.payload.length < 2 ^ 31) :
    ∃ is', deserialize dt (serialize dt (build dt dsn calls)) =
        some (.items (Json.normalize headers) is') ∧
      is'.map Item.payload = is.map Item.payload ∧
      is'.map Item.headers = is.map (fun i => i.headers.retype) ∧
      (headers.height < maxDepth → Json.normalize headers = headers.retype) := by
  obtain ⟨ps, js, hb, hf⟩ := @allFramed_build dt dsn calls
  rw [he] at hb
  cases hb
  refine ⟨is.map (readBack dt), ?_, ?_, ?_, ?_⟩
  · rw [he]
    exact deserialize_items hp hh hf hlen
  · rw [List.map_map]
    rfl
  · rw [List.map_map]
    rfl
  · intro hlt
    rw [Json.normalize, truncate_of_height _ 0 (by omega)]

/-- A payload of newlines, then an item with no length and no payload, then one
that looks like an item header. -/
def trickyCalls : List Call :=
  [.setHeader (ascii "sdk") (.object [(ascii "n", .int64 7)]),
    .addFromBuffer [10, 10] (ascii "attachment"),
    .addAttachmentRef none (some (ascii "f")) none 5,
    .addFromBuffer (10 :: ascii "{}") (ascii "x")]

theorem deserialize_serialize_tricky :
    ∃ is', deserialize noDoubles (serialize noDoubles (build noDoubles none trickyCalls)) =
        some (.items (Json.normalize (.object [(ascii "sdk", .object [(ascii "n", .int64 7)])])) is') ∧
      is'.map Item.payload = [[10, 10], [], 10 :: ascii "{}"] := by
  obtain ⟨is', hd, hpay, -, -⟩ := @deserialize_serialize noDoubles none trickyCalls
    (.object [(ascii "sdk", .object [(ascii "n", .int64 7)])]) _ rfl
    (.object (by decide) (by decide) (by
      intro p hp
      rw [List.mem_singleton.mp hp]
      exact .object (by decide) (by decide) (by
        intro q hq
        rw [List.mem_singleton.mp hq]
        exact .int64 7)))
    (by simp [Value.height, Value.heightPairs]) (by decide)
  exact ⟨is', hd, hpay⟩

/-- Headers that nest a list at depth 63 lose its contents. -/
theorem deserialize_serialize_deep :
    ∃ headers, build noDoubles none [.setHeader (ascii "a") (nest 63 .null)] = .items headers [] ∧
      headers.Plain ∧ ∀ headers' is', deserialize noDoubles (serialize noDoubles
        (build noDoubles none [.setHeader (ascii "a") (nest 63 .null)])) =
          some (.items headers' is') → headers' ≠ headers.retype := by
  have hplain : (Value.object [(ascii "a", nest 63 .null)]).Plain := by
    refine .object (by decide) (by decide) ?_
    intro p hp
    rw [List.mem_singleton.mp hp]
    exact nest_plain 63 .null
  refine ⟨.object [(ascii "a", nest 63 .null)], rfl, hplain, ?_⟩
  intro headers' is' hd he
  have hread := @deserialize_items noDoubles _ hplain
    (by simp [Value.height, Value.heightPairs, nest_height]) [] (by simp) (by simp)
  have hb : build noDoubles none [.setHeader (ascii "a") (nest 63 .null)] =
      .items (.object [(ascii "a", nest 63 .null)]) [] := rfl
  rw [hb, hread] at hd
  have hh : Json.normalize (.object [(ascii "a", nest 63 .null)]) = headers' := (Envelope.items.inj (Option.some.inj hd)).1
  have hcut : truncate 1 (nest 63 .null) = nest 62 (.list []) :=
    truncate_nest 63 .null 1 (by decide) (by decide)
  have hn : Json.normalize (.object [(ascii "a", nest 63 .null)]) =
      .object [(ascii "a", nest 62 (.list []))] := by
    rw [Json.normalize, truncate, if_pos (by decide), truncatePairs, truncatePairs, hcut, Value.retype,
      Value.retypePairs, Value.retypePairs, nest_retype]
    rfl
  rw [← hh, hn, Value.retype, Value.retypePairs, Value.retypePairs, nest_retype] at he
  simp only [Value.object.injEq, List.cons.injEq, Prod.mk.injEq, and_true, true_and] at he
  have h63 : nest 63 (Value.retype .null) = nest 62 (.list [.null]) := nest_succ 62 .null
  rw [h63] at he
  have := nest_injective 62 he
  simp at this

end SentryNative.Envelope
