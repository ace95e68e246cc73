import SentryNative.Envelope.AddersRuns

/-!
# Additions in memory and on lists

With every allocation there, an addition to the envelope in memory leaves what the functions on lists
of items describe.
-/

namespace SentryNative.EnvelopeItems

open CLib Json Envelope

variable {s t : State} {dt : DoubleText}

/-! ## Successful steps -/

section Succeed

variable (hok : ∀ k, s.ok k = true)
include hok

theorem addItem_ok (hraw : s.raw = none) :
    envelopeAddItem s = (some s.allocated, s.appended s.headers Item.new (s.drawn + 2)) := by
  simp [envelopeAddItem, hraw, hok, Item.new]

variable (h : Value) (i : Item) (n : Nat)

theorem allocString_ok (text : Bytes) :
    allocString text (s.appended h i n) = (newString text, s.appended h i (n + 1)) := by
  rw [allocString_appended, if_pos (hok n)]

theorem allocSet_ok (v : Value) (key : Bytes) (x : Value) :
    allocSet v key x (s.appended h i n) = (v.setByKey key x, s.appended h i (n + 1)) := by
  rw [allocSet_appended, if_pos (hok n)]

theorem allocValue_ok (v : Value) : allocValue v (s.appended h i n) = (v, s.appended h i (n + 1)) := by
  rw [allocValue, draw_ite, if_pos (hok n), pure_run]

theorem cloneValue_ok (v : Value) : ∃ m, cloneValue v (s.appended h i n) = (v, s.appended h i m) := by
  unfold cloneValue
  split
  · exact ⟨n + 1, by rw [draw_ite, if_pos (hok n), pure_run]⟩
  · exact ⟨n + 1, by rw [draw_ite, if_pos (hok n), pure_run]⟩
  · exact ⟨n, rfl⟩

theorem itemSetHeader_ok (key : Bytes) (value : Value) :
    itemSetHeader s.allocated key value (s.appended h i n) =
      ((), s.appended h (i.setHeader key value) (n + 1)) := by
  rw [itemSetHeader, draw_ite, if_pos (hok n), setItem_appended]

theorem setHeaderText_ok (key text : Bytes) :
    setHeaderText s.allocated key text (s.appended h i n) =
      ((), s.appended h (i.setHeader key (newString text)) (n + 2)) := by
  rw [setHeaderText, bind_run, allocString_ok hok, itemSetHeader_ok hok]

theorem itemSetOptional_ok (key : Bytes) (text : Option Bytes) :
    ∃ m, itemSetOptional s.allocated key text (s.appended h i n) =
      ((), s.appended h (i.setOptional key text) m) := by
  cases text with
  | none => exact ⟨n, rfl⟩
  | some text => exact ⟨n + 2, setHeaderText_ok hok h i n key text⟩

theorem setHeader_ok (hraw : s.raw = none) (key : Bytes) (value : Value) :
    setHeader key value (s.appended h i n) = ((), s.appended (h.setByKey key value) i (n + 1)) := by
  rw [setHeader_appended hraw, if_pos (hok n)]

theorem setEventId_ok (hraw : s.raw = none) (eventId : Retry.Uuid) :
    setEventId eventId (s.appended h i n) =
      ((), s.appended (h.setByKey (ascii "event_id") (newString eventId.asString)) i (n + 2)) := by
  rw [setEventId, bind_run, allocString_ok hok, setHeader_ok hok _ _ _ hraw]

/-- An event with the id that `sentry__ensure_event_id` finds or makes, and that id. -/
def ensured (event : Value) (newId : Retry.Uuid) : Value × Retry.Uuid :=
  if uuidIsNil (eventUuid event) then
    (event.setByKey (ascii "event_id") (newString newId.asString), newId)
  else (event, eventUuid event)

theorem ensureEventId_ok (event : Value) (newId : Retry.Uuid) :
    ensureEventId event newId (s.appended h i n) =
      (ensured event newId, s.appended h i (n + idDraws event)) := by
  unfold ensureEventId idDraws ensured
  split
  · rw [bind_run, allocString_ok hok, bind_run, allocSet_ok hok]
    rfl
  · rfl

theorem itemPayload_ok (value : Value) :
    itemPayload dt s.allocated value (s.appended h i n) =
      (some (toJson dt value), s.appended h { i with payload := toJson dt value } (n + 1)) := by
  rw [itemPayload_appended, if_pos (hok n)]

theorem setContextText_ok (dsc : Value) (key text : Bytes) :
    setContextText dsc key text (s.appended h i n) =
      (dsc.setByKey key (newString text), s.appended h i (n + 2)) := by
  rw [setContextText, bind_run, allocString_ok hok, allocSet_ok hok]

theorem setContextValue_ok (dsc : Value) (key : Bytes) (x : Value) :
    ∃ m, setContextValue dsc key x (s.appended h i n) = (setUnlessNull dsc key x, s.appended h i m) := by
  unfold setContextValue setUnlessNull
  split
  · exact ⟨n, rfl⟩
  · exact ⟨n + 1, allocSet_ok hok h i n dsc key x⟩

theorem setTraceHeader_ok (hraw : s.raw = none) (dsc : Value) :
    ∃ m, setTraceHeader dsc (s.appended h i n) =
      ((), s.appended (if Envelope.isTrue dsc then h.setByKey (ascii "trace") dsc else h) i m) := by
  unfold setTraceHeader
  split
  · exact ⟨n + 1, setHeader_ok hok h i n hraw _ _⟩
  · exact ⟨n, rfl⟩

/-- The sampling context with the outcome of the sample rate. -/
def withSampled (dsc : Value) : Option Bool → Value
  | some true => dsc.setByKey (ascii "sampled") (newString (ascii "true"))
  | some false => dsc.setByKey (ascii "sampled") (newString (ascii "false"))
  | none => dsc

theorem setSampled_ok (dsc : Value) (sampled : Option Bool) :
    ∃ m, setSampled dsc sampled (s.appended h i n) = (withSampled dsc sampled, s.appended h i m) := by
  match sampled with
  | some true => exact ⟨n + 2, setContextText_ok hok h i n _ _ _⟩
  | some false => exact ⟨n + 2, setContextText_ok hok h i n _ _ _⟩
  | none => exact ⟨n, rfl⟩

/-- What an event's sampling context becomes. -/
def eventContext (event : Value) (scope : Scope) : Value :=
  withSampled (setUnlessNull scope.dynamicSamplingContext (ascii "trace_id") (traceId event)) scope.sampled

def transactionContext (transaction dsc : Value) : Value :=
  let dsc :=
    if isNull (traceId transaction) then dsc
    else (dsc.setByKey (ascii "trace_id") (traceId transaction)).setByKey (ascii "sampled")
      (newString (ascii "true"))
  setUnlessNull dsc (ascii "transaction") (transaction.getByKey (ascii "transaction"))

/-- The headers with a sampling context, if there is one and it is not empty. -/
def withTrace (headers dsc context : Value) : Value :=
  if isNull dsc then headers
  else if Envelope.isTrue context then headers.setByKey (ascii "trace") context else headers

theorem eventTrace_ok (hraw : s.raw = none) (event : Value) (scope : Scope) :
    ∃ m, eventTrace event scope (s.appended h i n) =
      ((), s.appended (withTrace h scope.dynamicSamplingContext (eventContext event scope)) i m) := by
  obtain ⟨m, hclone⟩ := cloneValue_ok hok h i n scope.dynamicSamplingContext
  rw [eventTrace, bind_run, hclone]
  cases hnull : isNull scope.dynamicSamplingContext with
  | true => exact ⟨m, by simp only [hnull, withTrace]; rfl⟩
  | false =>
    obtain ⟨m, hset⟩ := setContextValue_ok hok h i m scope.dynamicSamplingContext (ascii "trace_id")
      (traceId event)
    obtain ⟨m, hsampled⟩ := setSampled_ok hok h i m
      (setUnlessNull scope.dynamicSamplingContext (ascii "trace_id") (traceId event)) scope.sampled
    simp only [hnull, Bool.not_false, ↓reduceIte, bind_run, hset, hsampled, withTrace, eventContext,
      Bool.false_eq_true]
    exact setTraceHeader_ok hok h i m hraw _

theorem transactionTrace_ok (hraw : s.raw = none) (transaction dsc : Value) :
    ∃ m, transactionTrace transaction dsc (s.appended h i n) =
      ((), s.appended (withTrace h dsc (transactionContext transaction dsc)) i m) := by
  obtain ⟨m, hclone⟩ := cloneValue_ok hok h i n dsc
  rw [transactionTrace, bind_run, hclone]
  cases hnull : isNull dsc with
  | true => exact ⟨m, by simp only [hnull, withTrace]; rfl⟩
  | false =>
    have hname (dsc : Value) (k : Nat) := setContextValue_ok hok h i k dsc (ascii "transaction")
      (transaction.getByKey (ascii "transaction"))
    simp only [hnull, Bool.not_false, ↓reduceIte, bind_run, withTrace, transactionContext,
      Bool.false_eq_true, setTransactionTraceId]
    split
    · obtain ⟨m', hset⟩ := hname dsc m
      rw [pure_run, hset]
      exact setTraceHeader_ok hok h i m' hraw _
    · rw [bind_run, allocSet_ok hok, setContextText_ok hok]
      obtain ⟨m', hset⟩ := hname _ (m + 1 + 2)
      rw [hset]
      exact setTraceHeader_ok hok h i m' hraw _

theorem allocOwned_ok (text : Bytes) :
    allocOwned text (s.appended h i n) = (newString text, s.appended h i (n + 2)) := by
  rw [allocOwned, draw_ite, if_pos (hok n), allocString_ok hok]

end Succeed

/-! ## Additions -/

theorem setTrace_items (h dsc : Value) (is : List Item) : setTrace (.items h is) dsc =
    .items (if Envelope.isTrue dsc then h.setByKey (ascii "trace") dsc else h) is := by
  unfold setTrace
  split <;> rfl

/-- The addition ends with a new item, and the envelope is the one that the function on lists gives. -/
def Appends (s : State) (m : M (Option Nat)) (spec : Envelope → Envelope) : Prop :=
  ∃ h i n, m s = (some s.allocated, s.appended h i n) ∧
    ∀ is, spec (.items s.headers is) = .items h (is ++ [i])

/-- Draws before the item make no difference to what is appended. -/
theorem Appends.after {α : Type} {x : M α} {f : α → M (Option Nat)} {a : α} {n : Nat}
    {spec : Envelope → Envelope} (hx : x s = (a, { s with drawn := n }))
    (hf : Appends { s with drawn := n } (f a) spec) : Appends s (x >>= f) spec := by
  obtain ⟨h, i, m, hrun, hspec⟩ := hf
  refine ⟨h, i, m, ?_, hspec⟩
  rw [bind_run, hx]
  exact hrun

section Succeed

variable (hok : ∀ k, s.ok k = true)
include hok

theorem draw_ok : draw s = (true, { s with drawn := s.drawn + 1 }) := by rw [draw_run, hok]

theorem allocText_ok (text : Bytes) :
    allocText text s = (some text, { s with drawn := s.drawn + 1 }) := by
  rw [allocText, bind_run, draw_ok hok]
  rfl

theorem allocValue_run_ok (v : Value) : allocValue v s = (v, { s with drawn := s.drawn + 1 }) := by
  rw [allocValue, bind_run, draw_ok hok]
  rfl

theorem writeText_ok (v : Value) :
    writeText dt v s = (some (toJson dt v), { s with drawn := s.drawn + 1 }) := by
  rw [writeText, bind_run, draw_ok hok]
  rfl

theorem setOptionText_ok (v : Value) (key : Bytes) (text : Option Bytes) :
    ∃ n, setOptionText v key text s = (setOption v key text, { s with drawn := n }) := by
  cases text with
  | none => exact ⟨s.drawn, rfl⟩
  | some text =>
    refine ⟨s.drawn + 2, ?_⟩
    rw [setOptionText, setContextText, bind_run, allocString, bind_run, draw_ok hok]
    simp only [↓reduceIte, pure_run, allocSet, bind_run, draw_run, hok, setOption]

theorem attachmentRefPayload_ok (ref : AttachmentRef) :
    ∃ n, attachmentRefPayloadToString dt ref s = (some (ref.payload dt), { s with drawn := n }) := by
  obtain ⟨n₁, h₁⟩ := setOptionText_ok (s := { s with drawn := s.drawn + 1 + 1 }) hok (.object [])
    (ascii "path") ref.path
  obtain ⟨n₂, h₂⟩ := setOptionText_ok (s := { s with drawn := n₁ }) hok
    (setOption (.object []) (ascii "path") ref.path) (ascii "location") ref.location
  obtain ⟨n₃, h₃⟩ := setOptionText_ok (s := { s with drawn := n₂ }) hok
    (setOption (setOption (.object []) (ascii "path") ref.path) (ascii "location") ref.location)
    (ascii "content_type") ref.contentType
  refine ⟨n₃ + 1, ?_⟩
  rw [attachmentRefPayloadToString, bind_run, draw_ok hok]
  simp only [Bool.not_true, Bool.false_eq_true, ↓reduceIte, bind_run]
  rw [allocValue_run_ok (s := { s with drawn := s.drawn + 1 }) hok]
  dsimp only
  rw [h₁]
  dsimp only
  rw [h₂]
  dsimp only
  rw [h₃]
  exact writeText_ok (s := { s with drawn := n₃ }) hok _

end Succeed

section Succeed

variable (hok : ∀ k, s.ok k = true) (hraw : s.raw = none)
include hok hraw

theorem addEvent_appends (event : Value) (newId : Retry.Uuid) (scope : Scope) :
    Appends s (addEvent dt event newId scope) fun e => Envelope.addEvent dt e (ensured event newId).1
      (ensured event newId).2.asString scope.dynamicSamplingContext scope.sampled := by
  have hid (h : Value) (i : Item) (n : Nat) := ensureEventId_ok hok h i n event newId
  generalize ensured event newId = ev at hid ⊢
  obtain ⟨v, u⟩ := ev
  obtain ⟨dsc, sampled⟩ := scope
  obtain ⟨m, ht⟩ := eventTrace_ok hok
    (s.headers.setByKey (ascii "event_id") (newString u.asString))
    (((⟨.object [], v, toJson dt v⟩ : Item).setHeader typeKey
      (newString (ascii "event"))).setHeader lengthKey (lengthValue (toJson dt v).length))
    (s.drawn + 2 + 1 + idDraws event + 1 + 2 + 1 + 2) hraw v ⟨dsc, sampled⟩
  refine ⟨?h, ?i, m, ?run, ?spec⟩
  case run =>
    simp only [addEvent, bind_run, addItem_ok hok hraw, draw_appended, hok, Bool.not_true,
      Bool.false_eq_true, ↓reduceIte, hid, itemPayload_ok hok, setItem_appended,
      setHeaderText_ok hok, itemSetHeader_ok hok, setEventId_ok hok _ _ _ hraw, pure_run, Item.new, ht]
    rfl
  case spec =>
    intro is
    simp only [Envelope.addEvent, withTrace, eventContext]
    split
    · rfl
    · match sampled with
      | some true => exact setTrace_items _ _ _
      | some false => exact setTrace_items _ _ _
      | none => exact setTrace_items _ _ _

theorem addTransaction_appends (transaction : Value) (newId : Retry.Uuid) (dsc : Value) (now : Bytes) :
    Appends s (addTransaction dt transaction newId dsc now) fun e =>
      Envelope.addTransaction dt e (ensured transaction newId).1 (ensured transaction newId).2.asString
        dsc now := by
  have hid (h : Value) (i : Item) (n : Nat) := ensureEventId_ok hok h i n transaction newId
  generalize ensured transaction newId = ev at hid ⊢
  obtain ⟨v, u⟩ := ev
  obtain ⟨m, ht⟩ := transactionTrace_ok hok
    (s.headers.setByKey (ascii "event_id") (newString u.asString))
    (((⟨.object [], v, toJson dt v⟩ : Item).setHeader typeKey
      (newString (ascii "transaction"))).setHeader lengthKey (lengthValue (toJson dt v).length))
    (s.drawn + 2 + 1 + idDraws transaction + 1 + 2 + 1 + 2) hraw v dsc
  refine ⟨?h, ?i, m + 2 + 1, ?run, ?spec⟩
  case run =>
    simp only [addTransaction, bind_run, addItem_ok hok hraw, draw_appended, hok, Bool.not_true,
      Bool.false_eq_true, ↓reduceIte, hid, itemPayload_ok hok, setItem_appended,
      setHeaderText_ok hok, itemSetHeader_ok hok, setEventId_ok hok _ _ _ hraw, pure_run, Item.new, ht,
      allocOwned_ok hok, setHeader_ok hok _ _ _ hraw]
    rfl
  case spec =>
    intro is
    simp only [Envelope.addTransaction, withTrace, transactionContext]
    split
    · rfl
    · exact congrArg (Envelope.setHeader · _ _) (setTrace_items _ _ _)

theorem addTelemetry_appends (telemetry : Value) (type contentType : Bytes) :
    Appends s (addTelemetry dt telemetry type contentType) fun e =>
      Envelope.addTelemetry dt e telemetry type contentType := by
  refine ⟨_, _, ?n, ?run, fun is => rfl⟩
  case run =>
    simp only [addTelemetry, bind_run, addItem_ok hok hraw, draw_appended, hok, Bool.not_true,
      Bool.false_eq_true, ↓reduceIte, itemPayload_ok hok, setHeaderText_ok hok, itemSetHeader_ok hok,
      pure_run]
    rfl

theorem addUserReport_appends (userReport : Value) (newId : Retry.Uuid) :
    Appends s (addUserReport dt userReport newId) fun e =>
      Envelope.addUserReport dt e (ensured userReport newId).1 (ensured userReport newId).2.asString := by
  refine ⟨_, _, ?n, ?run, fun is => rfl⟩
  case run =>
    simp only [addUserReport, bind_run, addItem_ok hok hraw, draw_appended, hok, Bool.not_true,
      Bool.false_eq_true, ↓reduceIte, ensureEventId_ok hok, itemPayload_ok hok, setHeaderText_ok hok,
      itemSetHeader_ok hok, setEventId_ok hok _ _ _ hraw, pure_run]
    rfl

omit hok hraw in
theorem modify_last (is : List Item) (i : Item) (f : Item → Item) :
    (is ++ [i]).modify is.length f = is ++ [f i] := by
  induction is with
  | nil => rfl
  | cons j is ih => simp [ih]

theorem addFeedbackEvent_appends (event : Value) (newId : Retry.Uuid) (scope : Scope) :
    Appends s (addFeedbackEvent dt event newId scope) fun e =>
      Envelope.addFeedbackEvent dt e (ensured event newId).1 (ensured event newId).2.asString
        scope.dynamicSamplingContext scope.sampled := by
  obtain ⟨h, i, n, hrun, hspec⟩ : Appends s (addEvent dt event newId scope) _ :=
    addEvent_appends hok hraw event newId scope
  refine ⟨h, i.setHeader typeKey (newString (ascii "feedback")), n + 2, ?_, fun is => ?_⟩
  · rw [addFeedbackEvent, bind_run, hrun]
    simp only [bind_run, setHeaderText_ok hok, pure_run]
  · simp only [Envelope.addFeedbackEvent, hspec, updateLast, List.length_append, List.length_singleton,
      Nat.add_sub_cancel]
    rw [modify_last]

theorem addFromOwnedBuffer_appends (buf type : Bytes) :
    Appends s (addFromOwnedBuffer (some buf) type) fun e => Envelope.addFromBuffer e buf type := by
  refine ⟨_, _, ?n, ?run, fun is => rfl⟩
  case run =>
    simp only [addFromOwnedBuffer, bind_run, addItem_ok hok hraw, setItem_appended,
      setHeaderText_ok hok, itemSetHeader_ok hok, pure_run]
    rfl

theorem addFromBuffer_appends (buf type : Bytes) :
    Appends s (addFromBuffer (some buf) type) fun e => Envelope.addFromBuffer e buf type :=
  .after (allocText_ok hok buf)
    (addFromOwnedBuffer_appends (s := { s with drawn := s.drawn + 1 }) hok hraw buf type)

theorem addSession_appends (json : Bytes) :
    Appends s (addSession (some json)) fun e => Envelope.addSession e json := by
  refine .after (draw_ok hok) ?_
  rw [if_neg (by simp)]
  refine .after (allocText_ok (s := { s with drawn := s.drawn + 1 }) hok json) ?_
  exact addFromOwnedBuffer_appends (s := { s with drawn := s.drawn + 1 + 1 }) hok hraw json (ascii "session")

theorem linkAttachmentRef_appends (payload filename attachmentType : Option Bytes)
    (attachmentLength : UInt64) :
    Appends s (linkAttachmentRef payload filename attachmentType attachmentLength) fun e =>
      let item := Item.new.setHeader typeKey (newString (ascii "attachment"))
      let item := item.setHeader (ascii "content_type") (newString attachmentRefMime)
      let item := item.setOptional (ascii "filename") filename
      let item := item.setOptional (ascii "attachment_type") (nonEmpty attachmentType)
      let item := item.setHeader (ascii "attachment_length") (.uint64 attachmentLength)
      match payload with
      | none => addItem e item
      | some payload => addItem e (item.setPayload payload) := by
  obtain ⟨n, hname⟩ := itemSetOptional_ok hok s.headers
    ((Item.new.setHeader typeKey (newString (ascii "attachment"))).setHeader (ascii "content_type")
      (newString attachmentRefMime)) (s.drawn + 2 + 2 + 2) (ascii "filename") filename
  obtain ⟨n, htype⟩ := itemSetOptional_ok hok s.headers
    (((Item.new.setHeader typeKey (newString (ascii "attachment"))).setHeader (ascii "content_type")
      (newString attachmentRefMime)).setOptional (ascii "filename") filename) n
    (ascii "attachment_type") (nonEmpty attachmentType)
  cases payload with
  | none =>
    refine ⟨?h, ?i, ?n, ?run, ?spec⟩
    case run =>
      simp only [linkAttachmentRef, bind_run, addItem_ok hok hraw, setHeaderText_ok hok, hname, htype,
        allocValue_ok hok, itemSetHeader_ok hok, pure_run]
      rfl
    case spec => exact fun is => rfl
  | some payload =>
    refine ⟨?h', ?i', ?n', ?run', ?spec'⟩
    case run' =>
      simp only [linkAttachmentRef, bind_run, addItem_ok hok hraw, setHeaderText_ok hok, hname, htype,
        allocValue_ok hok, itemSetHeader_ok hok, setItem_appended, pure_run]
      rfl
    case spec' => exact fun is => rfl

/-- The guard on raw envelopes passes. -/
theorem Appends.guard {x : M (Option Nat)} {spec : Envelope → Envelope} (hx : Appends s x spec) :
    Appends s (get >>= fun t => if t.raw.isSome = true then pure none else x) spec := by
  obtain ⟨h, i, n, hrun, hspec⟩ := hx
  refine ⟨h, i, n, ?_, hspec⟩
  change (if s.raw.isSome = true then pure none else x : M (Option Nat)) s = _
  rw [hraw]
  exact hrun

theorem addAttachmentRef_appends (ref : Option AttachmentRef) (filename attachmentType : Option Bytes)
    (attachmentLength : UInt64) :
    Appends s (addAttachmentRef dt ref filename attachmentType attachmentLength) fun e =>
      Envelope.addAttachmentRef dt e ref filename attachmentType attachmentLength := by
  refine Appends.guard hok hraw ?_
  have hplain := linkAttachmentRef_appends hok hraw none filename attachmentType attachmentLength
  cases ref with
  | none => exact hplain
  | some ref =>
    cases hp : ref.hasPayload with
    | false =>
      simpa only [Option.filter, hp, Envelope.addAttachmentRef, Bool.false_eq_true, ↓reduceIte] using hplain
    | true =>
      obtain ⟨n, hn⟩ : ∃ n, attachmentRefPayloadToString dt ref s = _ := attachmentRefPayload_ok hok ref
      simp only [Option.filter, hp, Envelope.addAttachmentRef, ↓reduceIte]
      exact .after hn (linkAttachmentRef_appends (s := { s with drawn := n }) hok hraw
        (some (ref.payload dt)) filename attachmentType attachmentLength)

theorem addClientReport_appends (report : Counts) (timestamp : Bytes) :
    Appends s (addClientReport dt (some report) timestamp) fun e =>
      Envelope.addClientReport dt e report timestamp := by
  refine Appends.guard hok hraw ?_
  refine .after (draw_ok hok) ?_
  rw [if_neg (by simp)]
  refine .after (allocValue_run_ok (s := { s with drawn := s.drawn + 1 }) hok _) ?_
  refine .after (writeText_ok (s := { s with drawn := s.drawn + 1 + 1 }) hok _) ?_
  exact addFromBuffer_appends (s := { s with drawn := s.drawn + 1 + 1 + 1 }) hok hraw _ (ascii "client_report")

end Succeed

/-- The addition as a function on lists of items; a NULL argument adds nothing. -/
def Addition.spec (dt : DoubleText) (x : Addition) (e : Envelope) : Envelope :=
  match x with
  | .event v newId scope => Envelope.addEvent dt e (ensured v newId).1 (ensured v newId).2.asString
      scope.dynamicSamplingContext scope.sampled
  | .transaction v newId dsc now => Envelope.addTransaction dt e (ensured v newId).1
      (ensured v newId).2.asString dsc now
  | .logs v => Envelope.addLogs dt e v
  | .metrics v => Envelope.addMetrics dt e v
  | .userReport v newId => Envelope.addUserReport dt e (ensured v newId).1 (ensured v newId).2.asString
  | .feedbackEvent v newId scope => Envelope.addFeedbackEvent dt e (ensured v newId).1
      (ensured v newId).2.asString scope.dynamicSamplingContext scope.sampled
  | .session json => (json.map (Envelope.addSession e)).getD e
  | .attachmentRef ref filename attachmentType length =>
    Envelope.addAttachmentRef dt e ref filename attachmentType length
  | .fromBuffer buf type => (buf.map (Envelope.addFromBuffer e · type)).getD e
  | .clientReport report timestamp => (report.map (Envelope.addClientReport dt e · timestamp)).getD e

/-- The envelope that a state in memory stands for. -/
def Shows (s : State) (e : Envelope) : Prop :=
  ∃ l, Chain s l ∧ s.raw = none ∧
    e = .items s.headers (l.map fun a => ((s.mem a).map Cell.item).getD default)

theorem shows_appended {h : Value} {i : Item} {n : Nat} {is : List Item}
    (hs : Shows s (.items s.headers is)) : Shows (s.appended h i n) (.items h (is ++ [i])) := by
  obtain ⟨l, hc, hraw, he⟩ := hs
  refine ⟨l ++ [s.allocated], hc.appended hraw h i n, hraw, ?_⟩
  cases he
  have hold : ∀ a ∈ l, ((s.appended h i n).mem a).map Cell.item = (s.mem a).map Cell.item := by
    intro a ha
    have hne : a ≠ s.allocated := Nat.ne_of_lt (hc.below a ha)
    simp only [State.appended, Function.update_of_ne hne]
    cases s.lastItem with
    | none => rfl
    | some b =>
      simp only [Function.update_apply]
      split
      · next he => subst he; cases s.mem a <;> rfl
      · rfl
  rw [List.map_append]
  congr 2
  · exact List.map_congr_left fun a ha => by rw [hold a ha]
  · simp [State.appended]

/-- With every allocation there, an addition in memory is the one on lists. -/
theorem additions_refine (hok : ∀ k, s.ok k = true) {e : Envelope} (hs : Shows s e) (x : Addition) :
    Shows (x.run dt s).2 (x.spec dt e) := by
  obtain ⟨l, hc, hraw, he⟩ := id hs
  have hadd {m : M (Option Nat)} {spec : Envelope → Envelope} (hm : Appends s m spec) :
      Shows (m s).2 (spec e) := by
    obtain ⟨h, i, n, hrun, hspec⟩ := hm
    rw [hrun, he, hspec]
    exact shows_appended (he ▸ hs)
  cases x with
  | event v newId scope => exact hadd (addEvent_appends hok hraw v newId scope)
  | transaction v newId dsc now => exact hadd (addTransaction_appends hok hraw v newId dsc now)
  | logs v => exact hadd (addTelemetry_appends hok hraw v _ _)
  | metrics v => exact hadd (addTelemetry_appends hok hraw v _ _)
  | userReport v newId => exact hadd (addUserReport_appends hok hraw v newId)
  | feedbackEvent v newId scope => exact hadd (addFeedbackEvent_appends hok hraw v newId scope)
  | session json =>
    cases json with
    | none => exact hs
    | some json => exact hadd (addSession_appends hok hraw json)
  | attachmentRef ref filename attachmentType length =>
    exact hadd (addAttachmentRef_appends hok hraw ref filename attachmentType length)
  | fromBuffer buf type =>
    cases buf with
    | none => exact hs
    | some buf => exact hadd (addFromBuffer_appends hok hraw buf type)
  | clientReport report timestamp =>
    cases report with
    | some report => exact hadd (addClientReport_appends hok hraw report timestamp)
    | none =>
      have hrun : (Addition.clientReport none timestamp).run dt s = (none, s) := by
        change (if s.raw.isSome = true then pure none else pure none : M (Option Nat)) s = _
        rw [hraw]
        rfl
      rw [hrun]
      exact hs

theorem additions_refine_session :
    Shows ((Addition.session (some [49])).run noDoubles (State.new fun _ => true)).2
      (Envelope.addSession (.items (.object []) []) [49]) := by
  have hok : ∀ k, (State.new fun _ => true).ok k = true := fun _ => rfl
  have hnew : Shows (State.new fun _ => true) (.items (.object []) []) :=
    ⟨[], ⟨rfl, .nil, by simp, by simp, rfl, rfl, fun _ => rfl⟩, rfl, rfl⟩
  exact additions_refine hok hnew (.session (some [49]))

end SentryNative.EnvelopeItems
