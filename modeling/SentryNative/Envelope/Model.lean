import SentryNative.Json.RoundTrip
import SentryNative.Envelope.ClientReport

/-!
# Envelopes

`sentry_envelope.c`: an envelope is a header object and a list of items, each
with headers of its own and a payload, or the raw bytes of a file. Memory is
always found, so a function fails only where its arguments make it fail.
A null `const char *` is `none`.
-/

namespace SentryNative

open CLib Json

/-- `sentry_envelope_item_s`; `payload_len` is the length of the payload. -/
structure Item where
  headers : Value
  event : Value
  payload : Bytes
  deriving Inhabited

inductive Envelope where
  | raw (payload : Bytes)
  | items (headers : Value) (items : List Item)

/-- `sentry_value_new_string`. -/
def newString (s : Bytes) : Value := .string (cstr s)

/-- `sentry_value_new_int32((int32_t)len)`: the length is cut to 32 bits. -/
def lengthValue (len : Nat) : Value := .int32 (Int32.ofInt len)

def typeKey : Bytes := ascii "type"
def lengthKey : Bytes := ascii "length"

/-- The item that `envelope_add_item` appends. -/
def Item.new : Item := ⟨.object [], .null, []⟩

/-- `sentry__envelope_item_set_header`. -/
def Item.setHeader (item : Item) (key : Bytes) (value : Value) : Item :=
  { item with headers := item.headers.setByKey key value }

/-- The tail shared by every function that gives an item its payload. -/
def Item.setPayload (item : Item) (payload : Bytes) : Item :=
  { item with payload := payload }.setHeader lengthKey (lengthValue payload.length)

def Item.setOptional (item : Item) (key : Bytes) (s : Option Bytes) : Item :=
  match s with
  | some s => item.setHeader key (newString s)
  | none => item

namespace Envelope

/-- `envelope_add_item` with what its caller then stores in the item. -/
def addItem (e : Envelope) (item : Item) : Envelope :=
  match e with
  | .raw p => .raw p
  | .items h is => .items h (is ++ [item])

/-- `sentry__envelope_set_header`. -/
def setHeader (e : Envelope) (key : Bytes) (value : Value) : Envelope :=
  match e with
  | .raw p => .raw p
  | .items h is => .items (h.setByKey key value) is

/-- `sentry__envelope_new_with_dsn`: `dsn` is the text of a valid DSN. -/
def new (dsn : Option Bytes) : Envelope :=
  match dsn with
  | none => .items (.object []) []
  | some text => setHeader (.items (.object []) []) (ascii "dsn") (newString text)

/-- `envelope_add_from_owned_buffer`, also behind `sentry__envelope_add_from_buffer`
(a copy of the buffer), `sentry__envelope_add_from_path` (the file's bytes) and
`sentry__envelope_add_session` (the session's JSON text). -/
def addFromBuffer (e : Envelope) (buf type : Bytes) : Envelope :=
  addItem e (({ Item.new with payload := buf }.setHeader typeKey (newString type)).setHeader
    lengthKey (lengthValue buf.length))

def addSession (e : Envelope) (json : Bytes) : Envelope := addFromBuffer e json (ascii "session")

section Json

variable (dt : DoubleText)

/-- The payload, type and length every JSON item gets. -/
def jsonItem (value : Value) (type : Bytes) : Item :=
  ({ Item.new with payload := toJson dt value }.setHeader typeKey (newString type))

/-- `sentry_value_is_true`. -/
def isTrue : Value → Bool
  | .null => false
  | .bool b => b
  | .int32 i => i != 0
  | .int64 i => i != 0
  | .uint64 u => u != 0
  | .double bits => bits <<< 1 != 0
  | .string s => !s.isEmpty
  | .list vs => !vs.isEmpty
  | .object ps => !ps.isEmpty

def isNull : Value → Bool
  | .null => true
  | _ => false

/-- `contexts.trace.trace_id` of an event or transaction. -/
def traceId (event : Value) : Value :=
  ((event.getByKey (ascii "contexts")).getByKey (ascii "trace")).getByKey (ascii "trace_id")

/-- Sets the `trace` header to the sampling context unless that is empty. -/
def setTrace (e : Envelope) (dsc : Value) : Envelope :=
  if isTrue dsc then setHeader e (ascii "trace") dsc else e

def setUnlessNull (v : Value) (key : Bytes) (x : Value) : Value :=
  if isNull x then v else v.setByKey key x

/-- `sentry__envelope_add_event`. The event has its id, which
`sentry__ensure_event_id` found or made up; `dsc` is the scope's dynamic
sampling context and `sampled` the outcome of the sample rate, if there was a
random value to compare with it. -/
def addEvent (e : Envelope) (event : Value) (eventId : Bytes) (dsc : Value)
    (sampled : Option Bool) : Envelope :=
  let item := { jsonItem dt event (ascii "event") with event := event }
  let e := addItem e (item.setHeader lengthKey (lengthValue item.payload.length))
  let e := setHeader e (ascii "event_id") (newString eventId)
  if isNull dsc then e
  else
    let dsc := setUnlessNull dsc (ascii "trace_id") (traceId event)
    let dsc := match sampled with
      | some true => dsc.setByKey (ascii "sampled") (newString (ascii "true"))
      | some false => dsc.setByKey (ascii "sampled") (newString (ascii "false"))
      | none => dsc
    setTrace e dsc

/-- `sentry__envelope_add_transaction`. -/
def addTransaction (e : Envelope) (transaction : Value) (eventId : Bytes) (dsc : Value)
    (now : Bytes) : Envelope :=
  let item := { jsonItem dt transaction (ascii "transaction") with event := transaction }
  let e := addItem e (item.setHeader lengthKey (lengthValue item.payload.length))
  let e := setHeader e (ascii "event_id") (newString eventId)
  let e :=
    if isNull dsc then e
    else
      let dsc :=
        if isNull (traceId transaction) then dsc
        else (dsc.setByKey (ascii "trace_id") (traceId transaction)).setByKey (ascii "sampled")
          (newString (ascii "true"))
      setTrace e (setUnlessNull dsc (ascii "transaction")
        (transaction.getByKey (ascii "transaction")))
  setHeader e (ascii "sent_at") (newString now)

/-- `sentry_value_get_length`. -/
def getLength : Value → Nat
  | .string s => s.length
  | .list vs => vs.length
  | .object ps => ps.length
  | _ => 0

/-- `add_telemetry`. -/
def addTelemetry (e : Envelope) (telemetry : Value) (type contentType : Bytes) : Envelope :=
  let item := (jsonItem dt telemetry type).setHeader (ascii "item_count")
    (lengthValue (getLength (telemetry.getByKey (ascii "items"))))
  let item := item.setHeader (ascii "content_type") (newString contentType)
  addItem e (item.setHeader lengthKey (lengthValue item.payload.length))

def addLogs (e : Envelope) (logs : Value) : Envelope :=
  addTelemetry dt e logs (ascii "log") (ascii "application/vnd.sentry.items.log+json")

def addMetrics (e : Envelope) (metrics : Value) : Envelope :=
  addTelemetry dt e metrics (ascii "trace_metric")
    (ascii "application/vnd.sentry.items.trace-metric+json")

/-- `sentry__envelope_add_user_report`. -/
def addUserReport (e : Envelope) (userReport : Value) (eventId : Bytes) : Envelope :=
  let item := jsonItem dt userReport (ascii "user_report")
  let e := addItem e (item.setHeader lengthKey (lengthValue item.payload.length))
  setHeader e (ascii "event_id") (newString eventId)

/-- Changes the item a function just added, through the pointer it returned. -/
def updateLast (e : Envelope) (f : Item → Item) : Envelope :=
  match e with
  | .raw p => .raw p
  | .items h is => .items h (is.modify (is.length - 1) f)

/-- `sentry__envelope_add_feedback_event`: an event item whose type is replaced. -/
def addFeedbackEvent (e : Envelope) (event : Value) (eventId : Bytes) (dsc : Value)
    (sampled : Option Bool) : Envelope :=
  updateLast (addEvent dt e event eventId dsc sampled)
    (·.setHeader typeKey (newString (ascii "feedback")))

/-- `sentry_attachment_ref_t`, less the owner of its strings. -/
structure AttachmentRef where
  path : Option Bytes
  location : Option Bytes
  contentType : Option Bytes
  attachmentType : Option Bytes

/-- `attachment_ref_has_payload`. -/
def AttachmentRef.hasPayload (ref : AttachmentRef) : Bool :=
  ref.path.isSome || ref.location.isSome || ref.contentType.isSome

def setOption (v : Value) (key : Bytes) (s : Option Bytes) : Value :=
  match s with
  | some s => v.setByKey key (newString s)
  | none => v

/-- `attachment_ref_payload_to_string`. -/
def AttachmentRef.payload (ref : AttachmentRef) : Bytes :=
  toJson dt (setOption (setOption (setOption (.object []) (ascii "path") ref.path)
    (ascii "location") ref.location) (ascii "content_type") ref.contentType)

/-- `SENTRY_ATTACHMENT_REF_MIME`. -/
def attachmentRefMime : Bytes := ascii "application/vnd.sentry.attachment-ref+json"

/-- `!sentry__string_empty`: there is a string and it has a first character. -/
def nonEmpty (s : Option Bytes) : Option Bytes :=
  match s with
  | none => none
  | some s => if cstr s = [] then none else some s

/-- `sentry__envelope_add_attachment_ref`: without a payload the item gets no length. -/
def addAttachmentRef (e : Envelope) (ref : Option AttachmentRef)
    (filename attachmentType : Option Bytes) (attachmentLength : UInt64) : Envelope :=
  let item := Item.new.setHeader typeKey (newString (ascii "attachment"))
  let item := item.setHeader (ascii "content_type") (newString attachmentRefMime)
  let item := item.setOptional (ascii "filename") filename
  let item := item.setOptional (ascii "attachment_type") (nonEmpty attachmentType)
  let item := item.setHeader (ascii "attachment_length") (.uint64 attachmentLength)
  match ref with
  | none => addItem e item
  | some ref => if ref.hasPayload then addItem e (item.setPayload (ref.payload dt)) else addItem e item

/-- `sentry__envelope_add_attachment`, with the attachment's bytes or those of its file. -/
def addAttachment (e : Envelope) (bytes : Bytes) (type contentType filename : Option Bytes) :
    Envelope :=
  updateLast (addFromBuffer e bytes (ascii "attachment")) fun item =>
    let item := item.setOptional (ascii "attachment_type") (nonEmpty type)
    let item := item.setOptional (ascii "content_type") contentType
    item.setHeader (ascii "filename") (match filename with
      | some s => newString s
      | none => .null)

/-- The object `sentry__envelope_add_client_report` writes. -/
def clientReportValue (report : Counts) (timestamp : Bytes) : Value :=
  .object [(ascii "timestamp", newString timestamp),
    (ascii "discarded_events", .list (report.entries.map fun (r, c, n) =>
      .object [(ascii "reason", .string (ascii r.toText)), (ascii "category", .string (ascii c.toText)),
        (ascii "quantity", .int64 (Int64.ofNat n))]))]

/-- `sentry__envelope_add_client_report`. -/
def addClientReport (e : Envelope) (report : Counts) (timestamp : Bytes) : Envelope :=
  addFromBuffer e (toJson dt (clientReportValue report timestamp)) (ascii "client_report")

end Json

/-! ## Writing -/

section Text

variable (dt : DoubleText)

/-- `sentry__envelope_serialize_item_into_stringbuilder`. -/
def serializeItem (item : Item) : Bytes :=
  10 :: toJson dt item.headers ++ 10 :: item.payload

/-- `sentry_envelope_serialize`. -/
def serialize : Envelope → Bytes
  | .raw p => p
  | .items h is => toJson dt h ++ is.flatMap (serializeItem dt)

/-! ## Reading -/

/-- `memchr` for a newline: the bytes before it and, if there is one, those after. -/
def splitLine : Bytes → Bytes × Option Bytes
  | [] => ([], none)
  | c :: r => if c = 10 then ([], some r) else
    let q := splitLine r
    (c :: q.1, q.2)

def sizeMax : Nat := 2 ^ 64 - 1

/-- `sentry_value_as_int64`. -/
def asInt64 : Value → Int
  | .int32 i => i.toInt
  | .int64 i => i.toInt
  | _ => 0

/-- The payload length of an item whose payload starts at `r`. -/
def payloadLength (length : Value) (r : Bytes) : Option Nat :=
  match length with
  | .null => some (splitLine r).1.length
  | .uint64 u => if sizeMax ≤ u.toNat then none else some u.toNat
  | v => if asInt64 v < 0 ∨ (sizeMax : Int) ≤ asInt64 v then none else some (asInt64 v).toNat

/-- One round of the loop of `deserialize_into`: the item and the bytes after
the newlines that follow it. -/
def readItem (s : Bytes) : Option (Item × Bytes) :=
  match splitLine s with
  | (_, none) => none
  | (line, some r) =>
    match fromJson dt line with
    | .object ps =>
      match payloadLength (Value.lookup lengthKey ps) r with
      | none => none
      | some len =>
        if r.length < len then none
        else
          let type := (Value.lookup typeKey ps).asString
          let event :=
            if 0 < len ∧ (type = ascii "event" ∨ type = ascii "transaction") then
              fromJson dt (r.take len)
            else .null
          some (⟨.object ps, event, r.take len⟩, (r.drop len).dropWhile (· = 10))
    | _ => none

/-- The loop itself: every round takes at least the newline after the item's
headers, so the fuel is the number of bytes. -/
def readItems : Nat → Bytes → Option (List Item)
  | _, [] => some []
  | 0, _ :: _ => none
  | fuel + 1, c :: r =>
    match readItem dt (c :: r) with
    | none => none
    | some (item, rest) => (readItems fuel rest).map (item :: ·)

/-- `sentry_envelope_deserialize`. -/
def deserialize (buf : Bytes) : Option Envelope :=
  if buf = [] then none
  else
    let (line, rest) := splitLine buf
    match fromJson dt line with
    | .object ps =>
      let rest := rest.getD []
      (readItems dt rest.length rest).map (.items (.object ps))
    | _ => none

end Text

end Envelope

end SentryNative
