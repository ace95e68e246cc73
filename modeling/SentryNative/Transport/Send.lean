import SentryNative.Envelope.Model
import SentryNative.Retry.Send
import SentryNative.Transport.RateLimiter

/-!
# Sending an envelope

`sentry_http_transport.c`, and the functions of `sentry_envelope.c` it counts
discarded items with. An item is known by a number, its place in the envelope it
came in. The environment of a send is an argument: the clock, the files to be
uploaded, the answers to the requests and whether writes to disk work. Memory
is always found and the transport has a run. A function that counts discarded
items returns them in order.
-/

namespace SentryNative

open CLib Json

namespace Item

/-- The `type` header. -/
def type (item : Item) : Bytes := (item.headers.getByKey typeKey).asString

/-- The items the SDK adds for itself. -/
def isClientReport (item : Item) : Bool := item.type = ascii "client_report"

end Item

namespace Transport

/-- `http_transport_state_t`, less the limits, the counters and the client. -/
structure Config where
  dsnValid : Bool
  retry : Bool
  cacheKeep : Retry.CacheKeep
  sendClientReports : Bool

/-! ## Categories -/

/-- `envelope_item_get_ratelimiter_category`; nothing stands for -1. -/
def ratelimiterCategory (item : Item) : Option RlCategory :=
  if item.type = ascii "session" then some .session
  else if item.type = ascii "transaction" then some .transaction
  else if item.type = ascii "replay_video" then some .replay
  else if item.type = ascii "client_report" then none
  else some .error

/-- `item_type_to_data_category`. -/
def itemTypeToDataCategory (type : Bytes) : DataCategory :=
  if type = ascii "session" then .session
  else if type = ascii "transaction" then .transaction
  else if type = ascii "attachment" then .attachment
  else if type = ascii "log" then .logItem
  else if type = ascii "feedback" then .feedback
  else if type = ascii "trace_metric" then .traceMetric
  else if type = ascii "replay_video" then .replay
  else .error

/-- A category is limited; the items without one bypass the limits. -/
def limited (rl : RateLimiter) (now : Nat) (item : Item) : Bool :=
  match ratelimiterCategory item with
  | some category => rl.isDisabled category now
  | none => false

/-! ## Discards -/

/-- One count of `sentry__client_report_discard`, with the item it is for. -/
structure Discard where
  item : Nat
  reason : DiscardReason
  category : DataCategory
  deriving DecidableEq, Repr

/-- The counters after some discards. -/
def discardAll (counts : Counts) (ds : List Discard) : Counts :=
  ds.foldl (fun counts d => counts.discard d.reason d.category 1) counts

abbrev Tagged := Nat × Item

/-- An envelope whose items have numbers. -/
inductive Contents where
  | raw (payload : Bytes)
  | items (headers : Value) (items : List Tagged)

def number (items : List Item) : List Tagged := items.zipIdx.map fun p => (p.2, p.1)

def Contents.of : Envelope → Contents
  | .raw p => .raw p
  | .items h is => .items h (number is)

/-- The items of the linked list; a raw envelope has none. -/
def Contents.list : Contents → List Tagged
  | .raw _ => []
  | .items _ ts => ts

/-- `sentry__envelope_discard`. -/
def envelopeDiscard (c : Contents) (reason : DiscardReason) (rl : RateLimiter) (clock : Nat → Nat) :
    List Discard :=
  c.list.filterMap fun t =>
    if (ratelimiterCategory t.2).isNone then none
    -- already recorded as ratelimit_backoff
    else if limited rl (clock t.1) t.2 then none
    else some ⟨t.1, reason, itemTypeToDataCategory t.2.type⟩

/-! ## Requests -/

/-- `sentry_http_response_t`. -/
structure Response where
  status : Nat
  retryAfter : Option Bytes
  rateLimits : Option Bytes
  location : Option Bytes

/-- What becomes of a request: `send_func` fails, perhaps because of a shutdown,
or there is an answer. -/
inductive Exchange where
  | failed (shuttingDown : Bool)
  | answered (response : Response)

/-- `RESULT_ERROR` -/
def resultError : Int := -1

/-- `RESULT_SHUTDOWN` -/
def resultShutdown : Int := -2

/-- `http_send_request`. -/
def Exchange.status : Exchange → Int
  | .failed true => resultShutdown
  | .failed false => resultError
  | .answered r => r.status

/-- `http_handle_error`. -/
def httpHandleError (status : Int) : Bool := status ≥ 400 ∧ status ≠ 429

/-- `http_update_ratelimiter`, with the readings of the clock. -/
def httpUpdateRatelimiter (rl : RateLimiter) (r : Response) (clock : Nat → Nat) : RateLimiter :=
  match r.rateLimits, r.retryAfter with
  | some header, _ => (updateFromHeader clock header rl).2
  | none, some retryAfter => updateFromHttpRetryAfter (clock 0) retryAfter rl
  | none, none => if r.status = 429 then updateFrom429 (clock 0) rl else rl

/-! ## Attachments -/

/-- The clock where the limits are asked about an item, and where they are set. -/
structure Clock where
  report : Nat → Nat
  resolve : Nat → Nat
  serialize : Nat → Nat
  update : Nat → Nat
  discard : Nat → Nat

/-- The file of an attachment-ref and the two requests of its upload. -/
structure Upload where
  fileSize : Nat
  create : Exchange
  patch : Exchange

structure Env where
  clock : Clock
  /-- The time in a client report. -/
  timestamp : Bytes
  upload : Nat → Upload
  post : Exchange
  runWritten : Bool
  retryWritten : Bool
  cacheWritten : Bool

section Text

variable (dt : DoubleText)

/-- `sentry__envelope_item_is_attachment_ref`. -/
def isAttachmentRef (item : Item) : Bool :=
  (item.headers.getByKey (ascii "content_type")).asString = Envelope.attachmentRefMime

/-- `sentry__envelope_item_get_attachment_ref`. -/
def getAttachmentRef (item : Item) : Option Envelope.AttachmentRef :=
  if isAttachmentRef item then
    let owner := fromJson dt item.payload
    some {
      path := some (owner.getByKey (ascii "path")).asString
      location := some (owner.getByKey (ascii "location")).asString
      contentType := some (owner.getByKey (ascii "content_type")).asString
      attachmentType := some (item.headers.getByKey (ascii "attachment_type")).asString }
  else none

/-- `sentry__envelope_item_resolve_attachment_ref`. -/
def resolveAttachmentRef (item : Item) (location : Bytes) : Option Item :=
  if cstr location = [] then none
  else match getAttachmentRef dt item with
    | none => none
    | some ref =>
      let resolved : Envelope.AttachmentRef := {
        path := Envelope.nonEmpty ref.path
        attachmentType := Envelope.nonEmpty ref.attachmentType
        location := some location
        contentType := Envelope.nonEmpty ref.contentType }
      some (item.setPayload (resolved.payload dt))

/-- `tus_upload_file`: the result and the location of the upload. -/
def tusUploadFile (cfg : Config) (u : Upload) (ref : Envelope.AttachmentRef) : Int × Option Bytes :=
  if (Envelope.nonEmpty ref.path).isNone then (resultError, none)
  else if u.fileSize = 0 then (resultError, none)
  else if !cfg.dsnValid then (resultError, none)
  else match u.create with
    | .failed s => ((Exchange.failed s).status, none)
    | .answered created =>
      if created.status ≠ 201 then (resultError, none)
      else match created.location with
        | none => (resultError, none)
        | some location =>
          match u.patch with
          | .failed s => ((Exchange.failed s).status, none)
          | .answered patched =>
            if patched.status ≠ 204 then (resultError, none) else (patched.status, some location)

/-- What `resolve_attachment_refs` does with an item. -/
inductive RefStep where
  | keep (item : Item)
  | drop (reason : Option DiscardReason)
  | stop (result : Int)

/-- The body of the loop of `resolve_attachment_refs`. -/
def refStep (cfg : Config) (env : Env) (rl : RateLimiter) (t : Tagged) : RefStep :=
  match getAttachmentRef dt t.2 with
  | none => .keep t.2
  | some ref =>
    if rl.isDisabled .error (env.clock.resolve t.1) then .drop (some .ratelimitBackoff)
    -- crash-resume: the upload was done on a prior attempt
    else if (Envelope.nonEmpty ref.location).isSome then .keep t.2
    else if (Envelope.nonEmpty ref.path).isNone then .drop none
    else match tusUploadFile cfg (env.upload t.1) ref with
      | (_, some location) =>
        match resolveAttachmentRef dt t.2 location with
        | some item => .keep item
        | none => .stop resultError
      | (result, none) =>
        if result = resultShutdown then .stop result else .drop (some .sendError)

structure Resolved where
  items : List Tagged
  discards : List Discard
  result : Int

/-- `resolve_attachment_refs` over the items of an envelope. -/
def resolveItems (cfg : Config) (env : Env) (rl : RateLimiter) : List Tagged → Resolved
  | [] => ⟨[], [], 0⟩
  | t :: ts =>
    match refStep dt cfg env rl t with
    | .stop result => ⟨t :: ts, [], result⟩
    | .keep item =>
      let r := resolveItems cfg env rl ts
      { r with items := (t.1, item) :: r.items }
    | .drop none => resolveItems cfg env rl ts
    | .drop (some reason) =>
      let r := resolveItems cfg env rl ts
      { r with discards := ⟨t.1, reason, .attachment⟩ :: r.discards }

def resolveAttachmentRefs (cfg : Config) (env : Env) (rl : RateLimiter) :
    Contents → Contents × List Discard × Int
  | .raw p => (.raw p, [], 0)
  | .items h ts =>
    let r := resolveItems dt cfg env rl ts
    (.items h r.items, r.discards, r.result)

/-- `collect_attachment_refs`. -/
def collectAttachmentRefs (c : Contents) : List Bytes :=
  c.list.filterMap fun t => (getAttachmentRef dt t.2).bind fun ref => Envelope.nonEmpty ref.path

/-- `sentry__envelope_has_content_type`. -/
def hasContentType (e : Envelope) (contentType : Bytes) : Bool :=
  match e with
  | .raw p => decide (contentType ≠ []) && p.tails.any fun q => contentType.isPrefixOf q
  | .items _ is => is.any fun item =>
    (item.headers.getByKey (ascii "content_type")).asString = contentType

/-- `sentry__envelope_materialize`. -/
def materialize (e : Envelope) : Option Envelope :=
  match e with
  | .raw p => Envelope.deserialize dt p
  | e => some e

/-- `materialize_attachment_refs`. -/
def materializeAttachmentRefs (e : Envelope) : Option Envelope :=
  if hasContentType e Envelope.attachmentRefMime then materialize dt e else some e

/-! ## Serializing -/

/-- The items that go into a request. -/
def serialized (rl : RateLimiter) (clock : Nat → Nat) (ts : List Tagged) : List Tagged :=
  ts.filter fun t => !limited rl (clock t.1) t.2

/-- The items that the limits keep out of a request, as they are counted. -/
def backedOff (rl : RateLimiter) (clock : Nat → Nat) (ts : List Tagged) : List Discard :=
  ts.filterMap fun t =>
    if limited rl (clock t.1) t.2 then
      some ⟨t.1, .ratelimitBackoff, itemTypeToDataCategory t.2.type⟩
    else none

/-- The body of a request and the items in it. -/
structure Body where
  text : Bytes
  items : List Nat

/-- The items of an envelope; those of a raw one are the ones its bytes are read as. -/
def itemsOf (e : Envelope) : List Tagged :=
  match materialize dt e with
  | some (.items _ is) => number is
  | _ => []

/-- `sentry_envelope_serialize_ratelimited`. -/
def serializeRatelimited (c : Contents) (rl : RateLimiter) (clock : Nat → Nat) :
    Option Body × List Discard :=
  match c with
  | .raw p => (some ⟨p, (itemsOf dt (.raw p)).map Prod.fst⟩, [])
  | .items h ts =>
    let kept := serialized rl clock ts
    (if kept = [] then none
      else some ⟨Envelope.serialize dt (.items h (kept.map Prod.snd)), kept.map Prod.fst⟩,
      backedOff rl clock ts)

/-- `sentry__prepare_http_request`, as far as the body. -/
def prepareHttpRequest (cfg : Config) (c : Contents) (rl : RateLimiter) (clock : Nat → Nat) :
    Option Body × List Discard :=
  if cfg.dsnValid then serializeRatelimited dt c rl clock else (none, [])

/-! ## Client reports -/

/-- `sentry__envelope_can_add_client_report`. -/
def canAddClientReport (c : Contents) (rl : RateLimiter) (clock : Nat → Nat) : Bool :=
  c.list.any fun t => (ratelimiterCategory t.2).isSome && !limited rl (clock t.1) t.2

structure Reported where
  contents : Contents
  /-- The counts that were taken, if they are in the envelope now. -/
  report : Option Counts
  counts : Counts

/-- The item of `sentry__envelope_add_client_report`. -/
def clientReportItem (report : Counts) (timestamp : Bytes) : Item :=
  let buf := toJson dt (Envelope.clientReportValue report timestamp)
  ({ Item.new with payload := buf }.setHeader typeKey (newString (ascii "client_report"))).setHeader
    lengthKey (lengthValue buf.length)

theorem addItem_clientReportItem (e : Envelope) (report : Counts) (timestamp : Bytes) :
    e.addItem (clientReportItem dt report timestamp) =
      Envelope.addClientReport dt e report timestamp := rfl

/-- `add_client_report`. A report that has no counts is all zero, and restoring
it changes nothing. -/
def addClientReport (cfg : Config) (env : Env) (rl : RateLimiter) (counts : Counts) (c : Contents) :
    Reported :=
  if !cfg.sendClientReports || !canAddClientReport c rl env.clock.report then ⟨c, none, counts⟩
  else
    let (report, hasCounts, counts) := counts.save
    if !hasCounts then ⟨c, none, counts⟩
    else match c with
      | .raw p => ⟨.raw p, none, counts.restore report⟩
      | .items h ts =>
        ⟨.items h (ts ++ [(ts.length, clientReportItem dt report env.timestamp)]), some report, counts⟩

end Text

end Transport

end SentryNative
