import SentryNative.Envelope.Model
import SentryNative.Lib.Machine
import SentryNative.Retry.CacheFile

/-!
# Adding items to an envelope in memory

`sentry_envelope.c` with the items as cells behind pointers, where any allocation may fail. An
operation that allocates draws whether it succeeds; one that makes several allocations and fails with
the first of them that does draws once. The text a JSON writer makes is such an operation: after one
write that fails, `sentry__jsonwriter_into_string` returns NULL.

Items are numbered in the order in which they were allocated.
-/

namespace SentryNative.EnvelopeItems

open CLib Json Envelope

/-! ## Event ids -/

/-- The value of a hexadecimal digit. -/
def nibble (c : UInt8) : Option UInt8 :=
  if 97 ≤ c ∧ c ≤ 102 then some (10 + (c - 97))
  else if 65 ≤ c ∧ c ≤ 70 then some (10 + (c - 65))
  else if 48 ≤ c ∧ c ≤ 57 then some (c - 48)
  else none

/-- The loop of `sentry_uuid_from_string_n`: the bytes so far and the first half of the next. -/
def uuidBytes : Bytes → List UInt8 → Option UInt8 → Option (List UInt8)
  | [], bytes, _ => some bytes
  | c :: rest, bytes, half =>
    if 16 ≤ bytes.length then some bytes
    else if c = 0 ∨ c = 45 then uuidBytes rest bytes half
    else
      match nibble c, half with
      | none, _ => none
      | some v, none => uuidBytes rest bytes (some v)
      | some v, some h => uuidBytes rest (bytes ++ [h <<< 4 ||| v]) none

/-- `sentry_uuid_from_string_n` -/
def uuidFromString (s : Bytes) : Retry.Uuid := fun i => ((uuidBytes s [] none).getD []).getD i 0

/-- `sentry_uuid_is_nil` -/
def uuidIsNil (u : Retry.Uuid) : Bool := (List.finRange 16).all fun i => u i = 0

/-- `sentry__value_as_uuid` of the event's id. -/
def eventUuid (event : Value) : Retry.Uuid :=
  uuidFromString (cstr (event.getByKey (ascii "event_id")).asString)

/-! ## Memory -/

/-- `sentry_envelope_item_s` -/
structure Cell where
  item : Item
  next : Option Nat
  deriving Inhabited

/-- An envelope, the items in memory and the outcomes of the allocations, of which `drawn` were
made. `raw` holds the payload of an envelope that is raw. -/
structure State where
  raw : Option Bytes
  headers : Value
  firstItem : Option Nat
  lastItem : Option Nat
  itemCount : Nat
  mem : Nat → Option Cell
  allocated : Nat
  ok : Nat → Bool
  drawn : Nat

/-- `sentry__envelope_new_with_dsn` without a DSN. -/
def State.new (ok : Nat → Bool) : State where
  raw := none
  headers := .object []
  firstItem := none
  lastItem := none
  itemCount := 0
  mem := fun _ => none
  allocated := 0
  ok := ok
  drawn := 0

def State.next (s : State) (a : Nat) : Option Nat := (s.mem a).bind Cell.next

abbrev M := StateM State

/-- Whether the next allocating operation succeeds. -/
def draw : M Bool := fun s => (s.ok s.drawn, { s with drawn := s.drawn + 1 })

/-- `sentry_value_new_string` -/
def allocString (text : Bytes) : M Value := do
  if ← draw then return newString text else return .null

/-- `sentry_value_set_by_key` -/
def allocSet (v : Value) (key : Bytes) (x : Value) : M Value := do
  if ← draw then return v.setByKey key x else return v

/-- The envelope with an item of this content behind its last one, these headers and this many draws. -/
def State.appended (s : State) (headers : Value) (item : Item) (drawn : Nat) : State :=
  { s with
    headers := headers
    firstItem := if s.lastItem.isSome then s.firstItem else some s.allocated
    lastItem := some s.allocated
    itemCount := s.itemCount + 1
    mem := Function.update
      (match s.lastItem with
        | some l => Function.update s.mem l ((s.mem l).map fun c => { c with next := some s.allocated })
        | none => s.mem)
      s.allocated (some ⟨item, none⟩)
    allocated := s.allocated + 1
    drawn := drawn }

/-- `envelope_add_item` -/
def envelopeAddItem : M (Option Nat) := fun s =>
  if s.raw.isSome then (none, s)
  else if s.ok s.drawn = false then (none, { s with drawn := s.drawn + 1 })
  else
    (some s.allocated,
      s.appended s.headers ⟨if s.ok (s.drawn + 1) then .object [] else .null, .null, []⟩ (s.drawn + 2))

/-- Writes to the fields of an item. -/
def setItem (item : Nat) (f : Item → Item) : M Unit := fun s =>
  ((), { s with mem := Function.update s.mem item ((s.mem item).map fun c => { c with item := f c.item }) })

/-- `sentry__envelope_item_set_header` -/
def itemSetHeader (item : Nat) (key : Bytes) (value : Value) : M Unit := do
  if ← draw then setItem item (·.setHeader key value)

/-- `sentry__envelope_set_header` -/
def setHeader (key : Bytes) (value : Value) : M Unit := fun s =>
  if s.raw.isSome then ((), s)
  else
    ((), { s with
      headers := if s.ok s.drawn then s.headers.setByKey key value else s.headers
      drawn := s.drawn + 1 })

/-- `sentry__ensure_event_id`: the event as it leaves it and the id. -/
def ensureEventId (event : Value) (newId : Retry.Uuid) : M (Value × Retry.Uuid) := do
  if uuidIsNil (eventUuid event) then
    let eventId ← allocString newId.asString
    let event ← allocSet event (ascii "event_id") eventId
    return (event, newId)
  else return (event, eventUuid event)

section Json

variable (dt : DoubleText)

/-- `sentry__jsonwriter_write_value` and `sentry__jsonwriter_into_string`. -/
def writeText (value : Value) : M (Option Bytes) := do
  if ← draw then return some (toJson dt value) else return none

/-! ## Adders that link the item first -/

/-- What the dynamic sampling context gets before it becomes the header `trace`. -/
structure Scope where
  dynamicSamplingContext : Value
  sampled : Option Bool

/-- `sentry__value_clone`: only a container is copied. -/
def cloneValue (v : Value) : M Value :=
  match v with
  | .list _ | .object _ => do if ← draw then return v else return .null
  | _ => pure v

def setHeaderText (item : Nat) (key text : Bytes) : M Unit := do
  let value ← allocString text
  itemSetHeader item key value

/-- The payload of an item, and nothing if it could not be written. -/
def itemPayload (item : Nat) (value : Value) : M (Option Bytes) := do
  match ← writeText dt value with
  | none => return none
  | some payload =>
    setItem item ({ · with payload := payload })
    return some payload

/-- `sentry__envelope_set_event_id` -/
def setEventId (eventId : Retry.Uuid) : M Unit := do
  let value ← allocString eventId.asString
  setHeader (ascii "event_id") value

/-- Sets a key of the sampling context to a new string. -/
def setContextText (dsc : Value) (key text : Bytes) : M Value := do
  let value ← allocString text
  allocSet dsc key value

/-- Sets a key of the sampling context unless the value is null. -/
def setContextValue (dsc : Value) (key : Bytes) (x : Value) : M Value :=
  if isNull x then pure dsc else allocSet dsc key x

def setSampled (dsc : Value) : Option Bool → M Value
  | some true => setContextText dsc (ascii "sampled") (ascii "true")
  | some false => setContextText dsc (ascii "sampled") (ascii "false")
  | none => pure dsc

/-- The sampling context becomes the header `trace`, if there is anything in it. -/
def setTraceHeader (dsc : Value) : M Unit :=
  if isTrue dsc then setHeader (ascii "trace") dsc else pure ()

/-- The sampling context of an event. -/
def eventTrace (event : Value) (scope : Scope) : M Unit := do
  let dsc ← cloneValue scope.dynamicSamplingContext
  if !isNull dsc then
    let dsc ← setContextValue dsc (ascii "trace_id") (traceId event)
    let dsc ← setSampled dsc scope.sampled
    setTraceHeader dsc

/-- `sentry__envelope_add_event` -/
def addEvent (event : Value) (newId : Retry.Uuid) (scope : Scope) : M (Option Nat) := do
  match ← envelopeAddItem with
  | none => return none
  | some item =>
    if !(← draw) then return none
    let (event, eventId) ← ensureEventId event newId
    match ← itemPayload dt item event with
    | none => return none
    | some payload =>
      setItem item ({ · with event := event })
      setHeaderText item typeKey (ascii "event")
      itemSetHeader item lengthKey (lengthValue payload.length)
      setEventId eventId
      eventTrace event scope
      return some item

/-- The trace of a transaction that has one was sampled. -/
def setTransactionTraceId (dsc traceId : Value) : M Value :=
  if isNull traceId then pure dsc
  else do
    let dsc ← allocSet dsc (ascii "trace_id") traceId
    setContextText dsc (ascii "sampled") (ascii "true")

/-- The sampling context of a transaction. -/
def transactionTrace (transaction dynamicSamplingContext : Value) : M Unit := do
  let dsc ← cloneValue dynamicSamplingContext
  if !isNull dsc then
    let dsc ← setTransactionTraceId dsc (traceId transaction)
    let dsc ← setContextValue dsc (ascii "transaction") (transaction.getByKey (ascii "transaction"))
    setTraceHeader dsc

/-- `sentry__value_new_string_owned` of a text that was allocated before. -/
def allocOwned (text : Bytes) : M Value := do
  if ← draw then allocString text else return .null

/-- `sentry__envelope_add_transaction` -/
def addTransaction (transaction : Value) (newId : Retry.Uuid) (dynamicSamplingContext : Value)
    (now : Bytes) : M (Option Nat) := do
  match ← envelopeAddItem with
  | none => return none
  | some item =>
    if !(← draw) then return none
    let (transaction, eventId) ← ensureEventId transaction newId
    match ← itemPayload dt item transaction with
    | none => return none
    | some payload =>
      setItem item ({ · with event := transaction })
      setHeaderText item typeKey (ascii "transaction")
      itemSetHeader item lengthKey (lengthValue payload.length)
      setEventId eventId
      transactionTrace transaction dynamicSamplingContext
      let now ← allocOwned now
      setHeader (ascii "sent_at") now
      return some item

/-- `add_telemetry` -/
def addTelemetry (telemetry : Value) (type contentType : Bytes) : M (Option Nat) := do
  match ← envelopeAddItem with
  | none => return none
  | some item =>
    if !(← draw) then return none
    match ← itemPayload dt item telemetry with
    | none => return none
    | some payload =>
      setHeaderText item typeKey type
      itemSetHeader item (ascii "item_count")
        (lengthValue (getLength (telemetry.getByKey (ascii "items"))))
      setHeaderText item (ascii "content_type") contentType
      itemSetHeader item lengthKey (lengthValue payload.length)
      return some item

/-- `sentry__envelope_add_logs` -/
def addLogs (logs : Value) : M (Option Nat) :=
  addTelemetry dt logs (ascii "log") (ascii "application/vnd.sentry.items.log+json")

/-- `sentry__envelope_add_metrics` -/
def addMetrics (metrics : Value) : M (Option Nat) :=
  addTelemetry dt metrics (ascii "trace_metric") (ascii "application/vnd.sentry.items.trace-metric+json")

/-- `sentry__envelope_add_user_report` -/
def addUserReport (userReport : Value) (newId : Retry.Uuid) : M (Option Nat) := do
  match ← envelopeAddItem with
  | none => return none
  | some item =>
    if !(← draw) then return none
    let (userReport, eventId) ← ensureEventId userReport newId
    match ← itemPayload dt item userReport with
    | none => return none
    | some payload =>
      setHeaderText item typeKey (ascii "user_report")
      itemSetHeader item lengthKey (lengthValue payload.length)
      setEventId eventId
      return some item

/-- `sentry__envelope_add_feedback_event` -/
def addFeedbackEvent (event : Value) (newId : Retry.Uuid) (scope : Scope) : M (Option Nat) := do
  match ← addEvent dt event newId scope with
  | none => return none
  | some item =>
    setHeaderText item typeKey (ascii "feedback")
    return some item

/-! ## Adders that build the payload first -/

/-- `envelope_add_from_owned_buffer` -/
def addFromOwnedBuffer (buf : Option Bytes) (type : Bytes) : M (Option Nat) := do
  match buf with
  | none => return none
  | some buf =>
    match ← envelopeAddItem with
    | none => return none
    | some item =>
      setItem item ({ · with payload := buf })
      setHeaderText item typeKey type
      itemSetHeader item lengthKey (lengthValue buf.length)
      return some item

/-- A text that a call allocates, and nothing if that fails. -/
def allocText (text : Bytes) : M (Option Bytes) := do
  if ← draw then return some text else return none

/-- `sentry__envelope_add_from_buffer` -/
def addFromBuffer (buf : Option Bytes) (type : Bytes) : M (Option Nat) := do
  match buf with
  | none => return none
  | some buf =>
    let copy ← allocText buf
    addFromOwnedBuffer copy type

/-- `sentry__envelope_add_session`, with the JSON text of the session. -/
def addSession (json : Option Bytes) : M (Option Nat) := do
  match json with
  | none => return none
  | some json =>
    if !(← draw) then return none
    let payload ← allocText json
    addFromOwnedBuffer payload (ascii "session")

/-- Sets a key of the payload of an attachment reference, if there is a text for it. -/
def setOptionText (v : Value) (key : Bytes) (text : Option Bytes) : M Value :=
  match text with
  | some text => setContextText v key text
  | none => pure v

/-- A value that takes an allocation of its own. -/
def allocValue (v : Value) : M Value := do
  if ← draw then return v else return .null

/-- `attachment_ref_payload_to_string` -/
def attachmentRefPayloadToString (ref : AttachmentRef) : M (Option Bytes) := do
  if !(← draw) then return none
  let obj ← allocValue (.object [])
  let obj ← setOptionText obj (ascii "path") ref.path
  let obj ← setOptionText obj (ascii "location") ref.location
  let obj ← setOptionText obj (ascii "content_type") ref.contentType
  writeText dt obj

def itemSetOptional (item : Nat) (key : Bytes) (text : Option Bytes) : M Unit :=
  match text with
  | some text => setHeaderText item key text
  | none => pure ()

/-- The part of `sentry__envelope_add_attachment_ref` after the payload. -/
def linkAttachmentRef (payload filename attachmentType : Option Bytes) (attachmentLength : UInt64) :
    M (Option Nat) := do
  match ← envelopeAddItem with
  | none => return none
  | some item =>
    setHeaderText item typeKey (ascii "attachment")
    setHeaderText item (ascii "content_type") attachmentRefMime
    itemSetOptional item (ascii "filename") filename
    itemSetOptional item (ascii "attachment_type") (nonEmpty attachmentType)
    let length ← allocValue (.uint64 attachmentLength)
    itemSetHeader item (ascii "attachment_length") length
    match payload with
    | none => return some item
    | some payload =>
      setItem item ({ · with payload := payload })
      itemSetHeader item lengthKey (lengthValue payload.length)
      return some item

/-- `sentry__envelope_add_attachment_ref` -/
def addAttachmentRef (ref : Option AttachmentRef) (filename attachmentType : Option Bytes)
    (attachmentLength : UInt64) : M (Option Nat) := do
  if (← get).raw.isSome then return none
  match ref.filter (·.hasPayload) with
  | none => linkAttachmentRef none filename attachmentType attachmentLength
  | some ref =>
    match ← attachmentRefPayloadToString dt ref with
    | none => return none
    | some payload => linkAttachmentRef (some payload) filename attachmentType attachmentLength

/-- `sentry__envelope_add_client_report`; the time is written as null where its text is not allocated. -/
def addClientReport (report : Option Counts) (timestamp : Bytes) : M (Option Nat) := do
  if (← get).raw.isSome then return none
  match report with
  | none => return none
  | some report =>
    if !(← draw) then return none
    let time ← allocValue (newString timestamp)
    match ← writeText dt ((clientReportValue report timestamp).setByKey (ascii "timestamp") time) with
    | none => return none
    | some payload => addFromBuffer (some payload) (ascii "client_report")

end Json

/-! ## Removing -/

/-- Takes the item `cur` behind `prev` out of the list. -/
def State.unlink (s : State) (prev : Option Nat) (cur : Nat) : State :=
  { s with
    mem := Function.update
      (match prev with
        | some p => Function.update s.mem p ((s.mem p).map fun c => { c with next := s.next cur })
        | none => s.mem)
      cur none
    firstItem := if prev.isSome then s.firstItem else s.next cur
    lastItem := if s.lastItem = some cur then prev else s.lastItem
    itemCount := s.itemCount - 1 }

/-- The loop of `sentry__envelope_remove_item`. -/
def removeLoop (s : State) (item : Nat) : Nat → Option Nat → Option Nat → Bool × State
  | 0, _, _ => (false, s)
  | _ + 1, _, none => (false, s)
  | n + 1, prev, some cur =>
    if cur = item then (true, s.unlink prev cur) else removeLoop s item n (some cur) (s.next cur)

/-- `sentry__envelope_remove_item` -/
def removeItem (item : Option Nat) : M Bool := fun s =>
  match item with
  | none => (false, s)
  | some item =>
    if s.raw.isSome then (false, s) else removeLoop s item (s.itemCount + 1) none s.firstItem

/-- The loop of `envelope_items_cleanup`. -/
def freeLoop (s : State) : Nat → Option Nat → State
  | 0, _ => s
  | _ + 1, none => s
  | n + 1, some item => freeLoop { s with mem := Function.update s.mem item none } n (s.next item)

/-- `envelope_items_cleanup` -/
def itemsCleanup (s : State) : State :=
  { freeLoop s s.itemCount s.firstItem with firstItem := none, lastItem := none, itemCount := 0 }

/-! ## Runs -/

/-- A call that adds an item. -/
inductive Addition where
  | event (event : Value) (newId : Retry.Uuid) (scope : Scope)
  | transaction (transaction : Value) (newId : Retry.Uuid) (dynamicSamplingContext : Value) (now : Bytes)
  | logs (logs : Value)
  | metrics (metrics : Value)
  | userReport (userReport : Value) (newId : Retry.Uuid)
  | feedbackEvent (event : Value) (newId : Retry.Uuid) (scope : Scope)
  | session (json : Option Bytes)
  | attachmentRef (ref : Option AttachmentRef) (filename attachmentType : Option Bytes)
      (attachmentLength : UInt64)
  | fromBuffer (buf : Option Bytes) (type : Bytes)
  | clientReport (report : Option Counts) (timestamp : Bytes)

def Addition.run (dt : DoubleText) : Addition → M (Option Nat)
  | .event e newId scope => addEvent dt e newId scope
  | .transaction t newId dsc now => addTransaction dt t newId dsc now
  | .logs v => addLogs dt v
  | .metrics v => addMetrics dt v
  | .userReport r newId => addUserReport dt r newId
  | .feedbackEvent e newId scope => addFeedbackEvent dt e newId scope
  | .session json => addSession json
  | .attachmentRef ref filename attachmentType length =>
    addAttachmentRef dt ref filename attachmentType length
  | .fromBuffer buf type => addFromBuffer buf type
  | .clientReport report timestamp => addClientReport dt report timestamp

/-- What is done to an envelope: the additions, the parts of `deserialize_into`, writes through the
pointers to items, and `sentry__envelope_materialize` with its way back after a failure. -/
inductive Op where
  | add (addition : Addition)
  | addItem
  | setItem (item : Nat) (f : Item → Item)
  | setHeader (key : Bytes) (value : Value)
  | setHeaders (headers : Value)
  | remove (item : Option Nat)
  | materialize
  | restore (payload : Bytes)

def step (dt : DoubleText) (s : State) : Op → State
  | .add addition => (addition.run dt s).2
  | .addItem => (envelopeAddItem s).2
  | .setItem item f => (setItem item f s).2
  | .setHeader key value => (setHeader key value s).2
  | .setHeaders headers => { s with headers := headers }
  | .remove item => (removeItem item s).2
  | .materialize =>
    if s.raw.isSome then
      { s with raw := none, headers := .object [], firstItem := none, lastItem := none, itemCount := 0 }
    else s
  | .restore payload => { itemsCleanup s with raw := some payload }

/-- A new envelope, or a raw one read from a file. -/
def Start (s : State) : Prop := ∃ ok raw, s = { State.new ok with raw := raw }

def Reachable (dt : DoubleText) : State → Prop :=
  Machine.Reachable Start fun s t => ∃ op, step dt s op = t

end SentryNative.EnvelopeItems
