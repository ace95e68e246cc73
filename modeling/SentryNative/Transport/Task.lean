import SentryNative.Transport.Send

/-!
# The two callers of a send

`http_send_task` for an envelope of the queue, `retry_send_cb` for one that is
read back from the cache. Their results say what became of the counters, the
limits and the envelope; the files are not written here, only named.
-/

namespace SentryNative.Transport

open CLib Json

section Text

variable (dt : DoubleText)

/-- What `http_send_envelope` leaves: the envelope, the discards, the status, the
limits and the body that was sent. -/
structure Sent where
  contents : Contents
  discards : List Discard
  status : Int
  rl : RateLimiter
  body : Option Body

/-- `http_send_envelope`. -/
def httpSendEnvelope (cfg : Config) (env : Env) (rl : RateLimiter) (c : Contents) : Sent :=
  let (c, dropped, result) := resolveAttachmentRefs dt cfg env rl c
  if result < 0 then ⟨c, dropped, result, rl, none⟩
  else
    match prepareHttpRequest dt cfg c rl env.clock.serialize with
    | (none, limited) => ⟨c, dropped ++ limited, 0, rl, none⟩
    | (some body, limited) =>
      match env.post with
      | .failed s => ⟨c, dropped ++ limited, (Exchange.failed s).status, rl, some body⟩
      | .answered r =>
        ⟨c, dropped ++ limited, r.status, httpUpdateRatelimiter rl r env.clock.update, some body⟩

/-- The numbers of the items in an envelope. -/
def Contents.tags : Contents → List Nat
  | .raw p => (itemsOf dt (.raw p)).map Prod.fst
  | .items _ ts => ts.map Prod.fst

/-- `has_attachment_ref_path`. -/
def hasAttachmentRefPath (c : Contents) (path : Bytes) : Bool :=
  c.list.any fun t => (getAttachmentRef dt t.2).any fun ref => ref.path = some path

/-- `prune_attachment_refs`: the paths it removes. -/
def pruneAttachmentRefs (paths : List Bytes) (keep : Option Contents) : List Bytes :=
  paths.filter fun path => !keep.any fun c => hasAttachmentRefPath dt c path

/-- After a failure: one of the two writes that keep an envelope for another attempt works. -/
def persists (cfg : Config) (env : Env) (paths : List Bytes) (status : Int) : Bool :=
  (paths ≠ [] && status = resultShutdown && env.runWritten) || (cfg.retry && env.retryWritten)

/-- What `http_send_task` leaves. -/
structure Outcome where
  counts : Counts
  rl : RateLimiter
  discards : List Discard
  status : Int
  body : Option Body
  /-- The items that wait on disk for another attempt. -/
  persisted : Option (List Nat)
  /-- The counts that `add_client_report` took. -/
  report : Option Counts
  restored : Bool
  pruned : List Bytes

/-- The part of `http_send_task` after the send. -/
def settle (cfg : Config) (env : Env) (report : Option Counts) (counts : Counts) (paths : List Bytes)
    (s : Sent) : Outcome :=
  let counts := discardAll counts s.discards
  let restored := counts.restore (report.getD .zero)
  let owned (kept : Bool) := pruneAttachmentRefs dt paths (if kept then some s.contents else none)
  if s.status < 0 then
    if persists cfg env paths s.status then
      ⟨counts, s.rl, s.discards, s.status, s.body, some (s.contents.tags dt), report, false,
        owned true⟩
    else
      let lost := envelopeDiscard s.contents .networkError s.rl env.clock.discard
      ⟨discardAll restored lost, s.rl, s.discards ++ lost, s.status, s.body, none, report, true,
        owned (!cfg.retry && cfg.cacheKeep ≠ .none && env.cacheWritten)⟩
  else
    let pruned := owned (cfg.cacheKeep = .always && env.cacheWritten)
    if s.status = 0 ∧ report.isSome then
      ⟨restored, s.rl, s.discards, s.status, s.body, none, report, true, pruned⟩
    else if httpHandleError s.status then
      let lost := envelopeDiscard s.contents .sendError s.rl env.clock.discard
      ⟨discardAll restored lost, s.rl, s.discards ++ lost, s.status, s.body, none, report, true,
        pruned⟩
    else ⟨counts, s.rl, s.discards, s.status, s.body, none, report, false, pruned⟩

/-- `sentry__envelope_materialize` on numbered contents. -/
def Contents.materialize : Contents → Option Contents
  | .raw p => (Envelope.deserialize dt p).map .of
  | c => some c

/-- What `retry_send_cb` leaves. -/
structure Retried where
  counts : Counts
  rl : RateLimiter
  discards : List Discard
  status : Int
  body : Option Body
  pruned : List Bytes

/-- `retry_send_cb`. -/
def retrySendCb (cfg : Config) (env : Env) (rl : RateLimiter) (counts : Counts) (e : Envelope) :
    Retried :=
  match materializeAttachmentRefs dt e with
  | none => ⟨counts, rl, [], 400, none, []⟩
  | some e =>
    let r := addClientReport dt cfg env rl counts (.of e)
    let report := r.report.getD .zero
    let paths := collectAttachmentRefs dt r.contents
    let s := httpSendEnvelope dt cfg env rl r.contents
    let counts := discardAll r.counts s.discards
    let pruned := pruneAttachmentRefs dt paths
      (if s.status < 0 ∨ cfg.cacheKeep = .always then some s.contents else none)
    if s.status ≤ 0 ∧ r.report.isSome then
      ⟨counts.restore report, s.rl, s.discards, s.status, s.body, pruned⟩
    else if httpHandleError s.status ∧ cfg.sendClientReports then
      match s.contents.materialize dt with
      | some c =>
        let lost := envelopeDiscard c .sendError s.rl env.clock.discard
        ⟨discardAll (counts.restore report) lost, s.rl, s.discards ++ lost, s.status, s.body, pruned⟩
      | none => ⟨counts.restore report, s.rl, s.discards, s.status, s.body, pruned⟩
    else ⟨counts, s.rl, s.discards, s.status, s.body, pruned⟩

end Text

end SentryNative.Transport
