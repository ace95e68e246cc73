import SentryNative.Envelope.Adders
import SentryNative.Lib.Linked

/-!
# Additions that fail

What an addition can leave behind. Four adders build their payload before they link an item and
leave the envelope as it was when they fail. The others link an empty item first, and it stays in the
list when the writer or the payload cannot be allocated.

* `Keeps`: what the code after `envelope_add_item` does to the envelope;
* `Chain`: the list behind `first_item`, with `last_item` and `item_count`;
* `failed_additions`: when a failed addition leaves the envelope as it was.
-/

namespace SentryNative.EnvelopeItems

open CLib Json Envelope

variable {α β : Type} {s t : State} {dt : DoubleText}

theorem bind_run (x : M α) (f : α → M β) (s : State) : (x >>= f) s = f (x s).1 (x s).2 := (rfl)

theorem pure_run (a : α) (s : State) : (pure a : M α) s = (a, s) := rfl

theorem draw_run (s : State) : draw s = (s.ok s.drawn, { s with drawn := s.drawn + 1 }) := rfl

/-! ## Writing to the item just linked -/

theorem draw_appended (h : Value) (i : Item) (n : Nat) :
    draw (s.appended h i n) = (s.ok n, s.appended h i (n + 1)) := rfl

theorem draw_ite (x y : M α) (h : Value) (i : Item) (n : Nat) :
    (draw >>= fun b => if b = true then x else y) (s.appended h i n) =
      if s.ok n = true then x (s.appended h i (n + 1)) else y (s.appended h i (n + 1)) := by
  change (if s.ok n = true then x else y) (s.appended h i (n + 1)) = _
  split <;> rfl

theorem setItem_appended (h : Value) (i : Item) (n : Nat) (f : Item → Item) :
    setItem s.allocated f (s.appended h i n) = ((), s.appended h (f i) n) := by
  simp [setItem, State.appended]

theorem setHeader_appended (hraw : s.raw = none) (h : Value) (i : Item) (n : Nat) (key : Bytes)
    (value : Value) : setHeader key value (s.appended h i n) =
      ((), s.appended (if s.ok n then h.setByKey key value else h) i (n + 1)) := by
  simp [setHeader, State.appended, hraw]

/-- Nothing but the headers, the item linked last and the draws changes, and the result satisfies `P`. -/
def Keeps (s : State) (m : M α) (P : α → Prop) : Prop :=
  ∀ h i n, ∃ a h' i' n', m (s.appended h i n) = (a, s.appended h' i' n') ∧ P a

variable {P : α → Prop} {Q : β → Prop}

theorem keeps_pure {a : α} (ha : P a) : Keeps s (pure a) P := fun h i n => ⟨a, h, i, n, rfl, ha⟩

theorem Keeps.bind {x : M α} {f : α → M β} (hx : Keeps s x P) (hf : ∀ a, P a → Keeps s (f a) Q) :
    Keeps s (x >>= f) Q := by
  intro h i n
  obtain ⟨a, h', i', n', he, ha⟩ := hx h i n
  rw [bind_run, he]
  exact hf a ha h' i' n'

/-- The rule for a step whose result does not matter. -/
theorem Keeps.seq {x : M α} {f : α → M β} (hx : Keeps s x fun _ => True)
    (hf : ∀ a, Keeps s (f a) Q) : Keeps s (x >>= f) Q := hx.bind fun a _ => hf a

theorem keeps_draw : Keeps s draw fun _ => True :=
  fun h i n => ⟨s.ok n, h, i, n + 1, draw_appended h i n, trivial⟩

theorem keeps_setItem (f : Item → Item) : Keeps s (setItem s.allocated f) fun _ => True :=
  fun h i n => ⟨(), h, f i, n, setItem_appended h i n f, trivial⟩

theorem keeps_setHeader (hraw : s.raw = none) (key : Bytes) (value : Value) :
    Keeps s (setHeader key value) fun _ => True :=
  fun h i n => ⟨(), _, i, n + 1, setHeader_appended hraw h i n key value, trivial⟩

theorem Keeps.ite {c : Prop} [Decidable c] {x y : M α} (hx : Keeps s x P) (hy : Keeps s y P) :
    Keeps s (if c then x else y) P := by
  split
  · exact hx
  · exact hy

theorem keeps_allocString (text : Bytes) : Keeps s (allocString text) fun _ => True :=
  keeps_draw.seq fun _ => .ite (keeps_pure trivial) (keeps_pure trivial)

theorem keeps_allocSet (v : Value) (key : Bytes) (x : Value) : Keeps s (allocSet v key x) fun _ => True :=
  keeps_draw.seq fun _ => .ite (keeps_pure trivial) (keeps_pure trivial)

theorem keeps_itemSetHeader (key : Bytes) (value : Value) :
    Keeps s (itemSetHeader s.allocated key value) fun _ => True :=
  keeps_draw.seq fun _ => .ite (keeps_setItem _) (keeps_pure trivial)

theorem keeps_setHeaderText (key text : Bytes) :
    Keeps s (setHeaderText s.allocated key text) fun _ => True :=
  (keeps_allocString text).seq fun _ => keeps_itemSetHeader key _

theorem keeps_setEventId (hraw : s.raw = none) (eventId : Retry.Uuid) :
    Keeps s (setEventId eventId) fun _ => True :=
  (keeps_allocString _).seq fun _ => keeps_setHeader hraw _ _

theorem keeps_setContextText (dsc : Value) (key text : Bytes) :
    Keeps s (setContextText dsc key text) fun _ => True :=
  (keeps_allocString text).seq fun _ => keeps_allocSet dsc key _

theorem keeps_cloneValue (v : Value) : Keeps s (cloneValue v) fun _ => True := by
  unfold cloneValue
  split
  · exact keeps_draw.seq fun _ => .ite (keeps_pure trivial) (keeps_pure trivial)
  · exact keeps_draw.seq fun _ => .ite (keeps_pure trivial) (keeps_pure trivial)
  · exact keeps_pure trivial

theorem keeps_setOptionText (v : Value) (key : Bytes) (text : Option Bytes) :
    Keeps s (setOptionText v key text) fun _ => True := by
  cases text with
  | none => exact keeps_pure trivial
  | some text => exact keeps_setContextText v key text

theorem keeps_itemSetOptional (key : Bytes) (text : Option Bytes) :
    Keeps s (itemSetOptional s.allocated key text) fun _ => True := by
  cases text with
  | none => exact keeps_pure trivial
  | some text => exact keeps_setHeaderText key text

theorem keeps_allocValue (v : Value) : Keeps s (allocValue v) fun _ => True :=
  keeps_draw.seq fun _ => .ite (keeps_pure trivial) (keeps_pure trivial)

theorem keeps_setContextValue (dsc : Value) (key : Bytes) (x : Value) :
    Keeps s (setContextValue dsc key x) fun _ => True := .ite (keeps_pure trivial) (keeps_allocSet _ _ _)

theorem keeps_setSampled (dsc : Value) (sampled : Option Bool) :
    Keeps s (setSampled dsc sampled) fun _ => True := by
  match sampled with
  | some true => exact keeps_setContextText _ _ _
  | some false => exact keeps_setContextText _ _ _
  | none => exact keeps_pure trivial

theorem keeps_setTraceHeader (hraw : s.raw = none) (dsc : Value) :
    Keeps s (setTraceHeader dsc) fun _ => True := .ite (keeps_setHeader hraw _ _) (keeps_pure trivial)

theorem keeps_eventTrace (hraw : s.raw = none) (event : Value) (scope : Scope) :
    Keeps s (eventTrace event scope) fun _ => True := by
  refine (keeps_cloneValue _).seq fun dsc => ?_
  refine Keeps.ite ?_ (keeps_pure trivial)
  refine (keeps_setContextValue _ _ _).seq fun dsc => ?_
  exact (keeps_setSampled _ _).seq fun dsc => keeps_setTraceHeader hraw dsc

theorem keeps_setTransactionTraceId (dsc traceId : Value) :
    Keeps s (setTransactionTraceId dsc traceId) fun _ => True :=
  .ite (keeps_pure trivial) ((keeps_allocSet _ _ _).seq fun _ => keeps_setContextText _ _ _)

theorem keeps_transactionTrace (hraw : s.raw = none) (transaction dsc : Value) :
    Keeps s (transactionTrace transaction dsc) fun _ => True := by
  refine (keeps_cloneValue _).seq fun dsc => ?_
  refine Keeps.ite ?_ (keeps_pure trivial)
  refine (keeps_setTransactionTraceId _ _).seq fun dsc => ?_
  exact (keeps_setContextValue _ _ _).seq fun dsc => keeps_setTraceHeader hraw dsc

theorem keeps_allocOwned (text : Bytes) : Keeps s (allocOwned text) fun _ => True :=
  keeps_draw.seq fun _ => .ite (keeps_allocString text) (keeps_pure trivial)

/-! ## What an addition leaves -/

/-- An addition without a trace: nothing but draws, or an item that is returned. -/
inductive Clean (s : State) : Option Nat × State → Prop where
  | refused (n : Nat) : Clean s (none, { s with drawn := n })
  | added (hraw : s.raw = none) (h : Value) (i : Item) (n : Nat) :
      Clean s (some s.allocated, s.appended h i n)

/-- A failure that leaves an item behind. -/
def Stranded (s : State) (r : Option Nat × State) : Prop :=
  s.raw = none ∧ ∃ i n, r = (none, s.appended s.headers i n)

theorem Keeps.clean {m : M (Option Nat)} (h : Keeps s m (· = some s.allocated)) (hraw : s.raw = none)
    (v : Value) (i : Item) (n : Nat) : Clean s (m (s.appended v i n)) := by
  obtain ⟨a, v', i', n', he, rfl⟩ := h v i n
  rw [he]
  exact .added hraw v' i' n'

theorem envelopeAddItem_cases (s : State) :
    ((s.raw.isNone && s.ok s.drawn) = false ∧ ∃ n, envelopeAddItem s = (none, { s with drawn := n })) ∨
    (s.raw = none ∧ s.ok s.drawn = true ∧
      ∃ i, envelopeAddItem s = (some s.allocated, s.appended s.headers i (s.drawn + 2))) := by
  cases hraw : s.raw with
  | some p => exact .inl ⟨rfl, s.drawn, by rw [envelopeAddItem, hraw]; cases s; cases hraw; rfl⟩
  | none =>
    cases hok : s.ok s.drawn with
    | false => exact .inl ⟨rfl, s.drawn + 1, by simp [envelopeAddItem, hraw, hok]⟩
    | true => exact .inr ⟨rfl, rfl, _, by simp [envelopeAddItem, hraw, hok]; rfl⟩

/-- The draws of `sentry__ensure_event_id`. -/
def idDraws (event : Value) : Nat := if uuidIsNil (eventUuid event) then 2 else 0

theorem allocString_appended (text : Bytes) (h : Value) (i : Item) (n : Nat) :
    allocString text (s.appended h i n) =
      (if s.ok n then newString text else .null, s.appended h i (n + 1)) := by
  rw [allocString, draw_ite]
  split <;> rfl

theorem allocSet_appended (v : Value) (key : Bytes) (x h : Value) (i : Item) (n : Nat) :
    allocSet v key x (s.appended h i n) =
      (if s.ok n then v.setByKey key x else v, s.appended h i (n + 1)) := by
  rw [allocSet, draw_ite]
  split <;> rfl

theorem ensureEventId_appended (event : Value) (newId : Retry.Uuid) (h : Value) (i : Item) (n : Nat) :
    ∃ e u, ensureEventId event newId (s.appended h i n) =
      ((e, u), s.appended h i (n + idDraws event)) := by
  unfold ensureEventId idDraws
  split
  · rw [bind_run, allocString_appended, bind_run, allocSet_appended]
    exact ⟨_, _, rfl⟩
  · exact ⟨_, _, rfl⟩

theorem itemPayload_appended (value : Value) (h : Value) (i : Item) (n : Nat) :
    itemPayload dt s.allocated value (s.appended h i n) =
      if s.ok n then (some (toJson dt value), s.appended h { i with payload := toJson dt value } (n + 1))
      else (none, s.appended h i (n + 1)) := by
  rw [itemPayload, bind_run, writeText, draw_ite]
  split
  · simp only [pure_run, bind_run, setItem_appended]
  · rfl

/-- Whether an adder that links first strands its item: the item is there, and the writer or, after
these draws, the payload is not. -/
def State.strands (s : State) (draws : Nat) : Bool :=
  s.raw.isNone && s.ok s.drawn && !(s.ok (s.drawn + 2) && s.ok (s.drawn + 3 + draws))

/-- How an addition ends, by whether it strands its item. -/
def Ends (s : State) (strands : Bool) (r : Option Nat × State) : Prop :=
  if strands then Stranded s r else Clean s r

/-- The adders that link first: an item, a writer, some draws and the payload. -/
theorem ends_of_link_first {tail : Nat → M (Option Nat)} {draws : Nat}
    (htail : s.raw = none → ∀ i n, if s.ok (n + draws) = true
      then Clean s (tail s.allocated (s.appended s.headers i n))
      else Stranded s (tail s.allocated (s.appended s.headers i n))) :
    Ends s (s.strands draws) ((envelopeAddItem >>= fun item => match item with
      | none => pure none
      | some item => draw >>= fun b => if (!b) = true then pure none else tail item) s) := by
  rw [bind_run]
  rcases envelopeAddItem_cases s with ⟨hno, n, he⟩ | ⟨hraw, hok, i, he⟩
  · rw [he, Ends, State.strands, hno]
    exact .refused n
  · rw [he]
    change Ends s _ ((if (!s.ok (s.drawn + 2)) = true then pure none else tail s.allocated)
      (s.appended s.headers i (s.drawn + 2 + 1)))
    rw [Ends, State.strands, hraw, hok]
    cases hw : s.ok (s.drawn + 2) with
    | false => exact ⟨hraw, i, _, rfl⟩
    | true =>
      have ht := htail hraw i (s.drawn + 2 + 1)
      cases hp : s.ok (s.drawn + 3 + draws) with
      | false =>
        rw [if_neg (by rw [show s.drawn + 2 + 1 = s.drawn + 3 by omega, hp]; simp)] at ht
        exact ht
      | true =>
        rw [if_pos (by rw [show s.drawn + 2 + 1 = s.drawn + 3 by omega, hp])] at ht
        exact ht

theorem addEvent_ends (event : Value) (newId : Retry.Uuid) (scope : Scope) :
    Ends s (s.strands (idDraws event)) (addEvent dt event newId scope s) := by
  refine ends_of_link_first fun hraw i n => ?_
  obtain ⟨e, u, he⟩ := ensureEventId_appended event newId s.headers i n
  rw [bind_run, he]
  dsimp only
  rw [bind_run, itemPayload_appended]
  split
  · refine Keeps.clean ?_ hraw _ _ _
    refine (keeps_setItem _).seq fun _ => (keeps_setHeaderText _ _).seq fun _ => ?_
    refine (keeps_itemSetHeader _ _).seq fun _ => (keeps_setEventId hraw _).seq fun _ => ?_
    exact (keeps_eventTrace hraw _ _).seq fun _ => keeps_pure rfl
  · exact ⟨hraw, _, _, rfl⟩

theorem addTransaction_ends (transaction : Value) (newId : Retry.Uuid) (dsc : Value) (now : Bytes) :
    Ends s (s.strands (idDraws transaction)) (addTransaction dt transaction newId dsc now s) := by
  refine ends_of_link_first fun hraw i n => ?_
  obtain ⟨e, u, he⟩ := ensureEventId_appended transaction newId s.headers i n
  rw [bind_run, he]
  dsimp only
  rw [bind_run, itemPayload_appended]
  split
  · refine Keeps.clean ?_ hraw _ _ _
    refine (keeps_setItem _).seq fun _ => (keeps_setHeaderText _ _).seq fun _ => ?_
    refine (keeps_itemSetHeader _ _).seq fun _ => (keeps_setEventId hraw _).seq fun _ => ?_
    refine (keeps_transactionTrace hraw _ _).seq fun _ => (keeps_allocOwned _).seq fun _ => ?_
    exact (keeps_setHeader hraw _ _).seq fun _ => keeps_pure rfl
  · exact ⟨hraw, _, _, rfl⟩

theorem addTelemetry_ends (telemetry : Value) (type contentType : Bytes) :
    Ends s (s.strands 0) (addTelemetry dt telemetry type contentType s) := by
  refine ends_of_link_first fun hraw i n => ?_
  rw [bind_run, itemPayload_appended, Nat.add_zero]
  split
  · refine Keeps.clean ?_ hraw _ _ _
    refine (keeps_setHeaderText _ _).seq fun _ => (keeps_itemSetHeader _ _).seq fun _ => ?_
    exact (keeps_setHeaderText _ _).seq fun _ => (keeps_itemSetHeader _ _).seq fun _ => keeps_pure rfl
  · exact ⟨hraw, _, _, rfl⟩

theorem addUserReport_ends (userReport : Value) (newId : Retry.Uuid) :
    Ends s (s.strands (idDraws userReport)) (addUserReport dt userReport newId s) := by
  refine ends_of_link_first fun hraw i n => ?_
  obtain ⟨e, u, he⟩ := ensureEventId_appended userReport newId s.headers i n
  rw [bind_run, he]
  dsimp only
  rw [bind_run, itemPayload_appended]
  split
  · refine Keeps.clean ?_ hraw _ _ _
    refine (keeps_setHeaderText _ _).seq fun _ => (keeps_itemSetHeader _ _).seq fun _ => ?_
    exact (keeps_setEventId hraw _).seq fun _ => keeps_pure rfl
  · exact ⟨hraw, _, _, rfl⟩

theorem addFeedbackEvent_ends (event : Value) (newId : Retry.Uuid) (scope : Scope) :
    Ends s (s.strands (idDraws event)) (addFeedbackEvent dt event newId scope s) := by
  have hev : Ends s (s.strands (idDraws event)) (addEvent dt event newId scope s) :=
    addEvent_ends event newId scope
  rw [addFeedbackEvent, bind_run]
  unfold Ends at hev ⊢
  split
  · rw [if_pos (by assumption)] at hev
    obtain ⟨hraw, i, n, he⟩ := hev
    rw [he]
    exact ⟨hraw, i, n, rfl⟩
  · rw [if_neg (by assumption)] at hev
    generalize addEvent dt event newId scope s = r at hev
    cases hev with
    | refused n => exact .refused n
    | added hraw h i n =>
      refine Keeps.clean ?_ hraw h i n
      exact (keeps_setHeaderText _ _).seq fun _ => keeps_pure rfl

/-! ## Adders that build the payload first -/

/-- Draws, and changes nothing else. -/
def Draws (m : M α) : Prop := ∀ s : State, ∃ a n, m s = (a, { s with drawn := n })

theorem draws_pure (a : α) : Draws (pure a) := fun s => ⟨a, s.drawn, rfl⟩

theorem draws_draw : Draws draw := fun s => ⟨s.ok s.drawn, s.drawn + 1, rfl⟩

theorem Draws.bind {x : M α} {f : α → M β} (hx : Draws x) (hf : ∀ a, Draws (f a)) :
    Draws (x >>= f) := by
  intro s
  obtain ⟨a, n, he⟩ := hx s
  obtain ⟨b, m, hb⟩ := hf a { s with drawn := n }
  exact ⟨b, m, by rw [bind_run, he, hb]⟩

theorem Draws.ite {c : Prop} [Decidable c] {x y : M α} (hx : Draws x) (hy : Draws y) :
    Draws (if c then x else y) := by
  split
  · exact hx
  · exact hy

theorem draws_allocString (text : Bytes) : Draws (allocString text) :=
  draws_draw.bind fun _ => .ite (draws_pure _) (draws_pure _)

theorem draws_allocSet (v : Value) (key : Bytes) (x : Value) : Draws (allocSet v key x) :=
  draws_draw.bind fun _ => .ite (draws_pure _) (draws_pure _)

theorem draws_writeText (value : Value) : Draws (writeText dt value) :=
  draws_draw.bind fun _ => .ite (draws_pure _) (draws_pure _)

theorem draws_allocText (text : Bytes) : Draws (allocText text) :=
  draws_draw.bind fun _ => .ite (draws_pure _) (draws_pure _)

theorem draws_allocValue (v : Value) : Draws (allocValue v) :=
  draws_draw.bind fun _ => .ite (draws_pure _) (draws_pure _)

theorem draws_setOptionText (v : Value) (key : Bytes) (text : Option Bytes) :
    Draws (setOptionText v key text) := by
  cases text with
  | none => exact draws_pure _
  | some text => exact (draws_allocString text).bind fun _ => draws_allocSet _ _ _

theorem draws_attachmentRefPayloadToString (ref : AttachmentRef) :
    Draws (attachmentRefPayloadToString dt ref) := by
  refine draws_draw.bind fun b => ?_
  refine Draws.ite (draws_pure _) ?_
  refine (draws_allocValue _).bind fun _ => (draws_setOptionText _ _ _).bind fun _ => ?_
  exact (draws_setOptionText _ _ _).bind fun _ => (draws_setOptionText _ _ _).bind fun _ => draws_writeText _

theorem Draws.clean {x : M α} {f : α → M (Option Nat)} (hx : Draws x)
    (hf : ∀ a t, Clean t (f a t)) (s : State) : Clean s ((x >>= f) s) := by
  obtain ⟨a, n, he⟩ := hx s
  rw [bind_run, he]
  generalize hr : f a { s with drawn := n } = r
  have hc := hf a { s with drawn := n }
  rw [hr] at hc
  cases hc with
  | refused m => exact .refused m
  | added hraw h i m => exact Clean.added (s := s) hraw h i m

theorem clean_none (s : State) : Clean s ((pure none : M (Option Nat)) s) := .refused s.drawn

/-- The part of an adder from `envelope_add_item` on, if it always returns the item. -/
theorem clean_of_link {tail : Nat → M (Option Nat)}
    (htail : ∀ s : State, s.raw = none → Keeps s (tail s.allocated) (· = some s.allocated)) (s : State) :
    Clean s ((envelopeAddItem >>= fun item => match item with
      | none => pure none
      | some item => tail item) s) := by
  rw [bind_run]
  rcases envelopeAddItem_cases s with ⟨-, n, he⟩ | ⟨hraw, -, i, he⟩
  · rw [he]; exact .refused n
  · rw [he]; exact (htail s hraw).clean hraw _ _ _

theorem addFromOwnedBuffer_clean (buf : Option Bytes) (type : Bytes) (s : State) :
    Clean s (addFromOwnedBuffer buf type s) := by
  cases buf with
  | none => exact clean_none s
  | some buf =>
    refine clean_of_link (fun s _ => ?_) s
    refine (keeps_setItem _).seq fun _ => (keeps_setHeaderText _ _).seq fun _ => ?_
    exact (keeps_itemSetHeader _ _).seq fun _ => keeps_pure rfl

theorem addFromBuffer_clean (buf : Option Bytes) (type : Bytes) (s : State) :
    Clean s (addFromBuffer buf type s) := by
  cases buf with
  | none => exact clean_none s
  | some buf => exact (draws_allocText buf).clean (fun _ t => addFromOwnedBuffer_clean _ _ t) s

theorem clean_ite {c : Prop} [Decidable c] {x y : M (Option Nat)} (hx : Clean s (x s))
    (hy : Clean s (y s)) : Clean s ((if c then x else y) s) := by
  split
  · exact hx
  · exact hy

theorem addSession_clean (json : Option Bytes) (s : State) : Clean s (addSession json s) := by
  cases json with
  | none => exact clean_none s
  | some json =>
    refine draws_draw.clean (fun b t => clean_ite (clean_none t) ?_) s
    exact (draws_allocText json).clean (fun _ u => addFromOwnedBuffer_clean _ _ u) t

theorem linkAttachmentRef_clean (payload filename attachmentType : Option Bytes)
    (attachmentLength : UInt64) (s : State) :
    Clean s (linkAttachmentRef payload filename attachmentType attachmentLength s) := by
  refine clean_of_link (fun s _ => ?_) s
  refine (keeps_setHeaderText _ _).seq fun _ => (keeps_setHeaderText _ _).seq fun _ => ?_
  refine (keeps_itemSetOptional _ _).seq fun _ => (keeps_itemSetOptional _ _).seq fun _ => ?_
  refine (keeps_allocValue _).seq fun _ => (keeps_itemSetHeader _ _).seq fun _ => ?_
  cases payload with
  | none => exact keeps_pure rfl
  | some payload => exact (keeps_setItem _).seq fun _ => (keeps_itemSetHeader _ _).seq fun _ => keeps_pure rfl

theorem addAttachmentRef_clean (ref : Option AttachmentRef) (filename attachmentType : Option Bytes)
    (attachmentLength : UInt64) (s : State) :
    Clean s (addAttachmentRef dt ref filename attachmentType attachmentLength s) := by
  unfold addAttachmentRef
  change Clean s ((if s.raw.isSome = true then _ else _ : M (Option Nat)) s)
  refine clean_ite (clean_none s) ?_
  cases ref.filter (·.hasPayload) with
  | none => exact linkAttachmentRef_clean _ _ _ _ s
  | some ref =>
    refine (draws_attachmentRefPayloadToString ref).clean (fun payload t => ?_) s
    cases payload with
    | none => exact clean_none t
    | some payload => exact linkAttachmentRef_clean _ _ _ _ t

theorem addClientReport_clean (report : Option Counts) (timestamp : Bytes) (s : State) :
    Clean s (addClientReport dt report timestamp s) := by
  unfold addClientReport
  change Clean s ((if s.raw.isSome = true then _ else _ : M (Option Nat)) s)
  refine clean_ite (clean_none s) ?_
  cases report with
  | none => exact clean_none s
  | some report =>
    refine draws_draw.clean (fun b t => clean_ite (clean_none t) ?_) s
    refine (draws_allocValue _).clean (fun time u => ?_) t
    refine (draws_writeText _).clean (fun payload v => ?_) u
    cases payload with
    | none => exact clean_none v
    | some payload => exact addFromBuffer_clean _ _ v

/-! ## The list in memory -/

/-- The items behind `first_item`, in order, with the end and the count that the envelope keeps. -/
structure Chain (s : State) (l : List Nat) : Prop where
  segment : Linked.Segment s.next s.firstItem l none
  nodup : l.Nodup
  live : ∀ a ∈ l, (s.mem a).isSome = true
  below : ∀ a ∈ l, a < s.allocated
  last : s.lastItem = l.getLast?
  count : s.itemCount = l.length
  raw : s.raw.isSome = true → l = []

variable {l k m : List Nat} {a b : Nat} {p : Option Nat}

/-- What is in an item does not matter to the list. -/
theorem Chain.of_same (hc : Chain s l) (hnext : ∀ a ∈ l, t.next a = s.next a)
    (hlive : ∀ a ∈ l, (t.mem a).isSome = (s.mem a).isSome) (hbelow : t.allocated = s.allocated)
    (hfirst : t.firstItem = s.firstItem) (hlast : t.lastItem = s.lastItem)
    (hcount : t.itemCount = s.itemCount) (hraw : t.raw = s.raw) : Chain t l where
  segment := by rw [hfirst]; exact hc.segment.congr hnext
  nodup := hc.nodup
  live := fun a ha => (hlive a ha).trans (hc.live a ha)
  below := fun a ha => hbelow ▸ hc.below a ha
  last := hlast.trans hc.last
  count := hcount.trans hc.count
  raw := fun h => hc.raw (hraw ▸ h)

theorem Chain.drawn (hc : Chain s l) (n : Nat) : Chain { s with drawn := n } l :=
  hc.of_same (fun _ _ => rfl) (fun _ _ => rfl) rfl rfl rfl rfl rfl

theorem Chain.setItem (hc : Chain s l) (a : Nat) (f : Item → Item) : Chain (setItem a f s).2 l := by
  refine hc.of_same (fun b _ => ?_) (fun b _ => ?_) rfl rfl rfl rfl rfl
  · simp only [EnvelopeItems.setItem, State.next, Function.update_apply]
    split
    · next he => subst he; cases s.mem b <;> rfl
    · rfl
  · simp only [EnvelopeItems.setItem, Function.update_apply]
    split
    · next he => subst he; cases s.mem b <;> rfl
    · rfl

theorem appended_next_new (h : Value) (i : Item) (n : Nat) :
    (s.appended h i n).next s.allocated = none := by simp [State.next, State.appended]

/-- Links into the old list stay, up to its last element. -/
theorem appended_next_old (h : Value) (i : Item) (n : Nat) (ha : a ≠ s.allocated)
    (hlast : s.lastItem ≠ some a) : (s.appended h i n).next a = s.next a := by
  simp only [State.next, State.appended, Function.update_of_ne ha]
  cases hl : s.lastItem with
  | none => rfl
  | some b =>
    have hb : a ≠ b := by rintro rfl; exact hlast hl
    simp only [Function.update_of_ne hb]

theorem Chain.appended (hc : Chain s l) (hraw : s.raw = none) (h : Value) (i : Item) (n : Nat) :
    Chain (s.appended h i n) (l ++ [s.allocated]) := by
  have hnew : ∀ a ∈ l, a ≠ s.allocated := fun a ha => Nat.ne_of_lt (hc.below a ha)
  refine ⟨?_, ?_, ?_, ?_, by simp [State.appended], by simp [State.appended, hc.count], ?_⟩
  · rw [Linked.segment_append]
    refine ⟨some s.allocated, ?_, rfl, appended_next_new h i n⟩
    rcases l.eq_nil_or_concat with rfl | ⟨k, b, rfl⟩
    · have hl : s.lastItem = none := hc.last
      simp [State.appended, hl]
    · rw [List.concat_eq_append] at hc hnew ⊢
      have hl : s.lastItem = some b := by rw [hc.last, List.getLast?_concat]
      have hfirst : (s.appended h i n).firstItem = s.firstItem := by simp [State.appended, hl]
      rw [hfirst]
      have hnd := hc.nodup
      rw [List.nodup_append] at hnd
      refine hc.segment.relink (fun a ha => ?_) ?_
      · refine appended_next_old h i n (hnew a (List.mem_append_left _ ha)) ?_
        rw [hl]
        rintro he
        cases he
        exact hnd.2.2 b ha b (by simp) rfl
      · have hb := hc.live b (by simp)
        have hne := hnew b (by simp)
        obtain ⟨c, hcell⟩ := Option.isSome_iff_exists.mp hb
        simp [State.next, State.appended, hl, hne, hcell]
  · rw [List.nodup_append]
    refine ⟨hc.nodup, by simp, fun a ha b hb he => ?_⟩
    rw [List.mem_singleton.mp hb] at he
    exact hnew a ha he
  · intro a ha
    rcases List.mem_append.mp ha with ha | ha
    · have hl := hc.live a ha
      simp only [State.appended, Function.update_of_ne (hnew a ha)]
      cases s.lastItem with
      | none => exact hl
      | some b =>
        simp only [Function.update_apply]
        split
        · next he => subst he; simpa using hl
        · exact hl
    · simp [State.appended, List.mem_singleton.mp ha]
  · intro a ha
    rcases List.mem_append.mp ha with ha | ha
    · exact Nat.lt_succ_of_lt (hc.below a ha)
    · rw [List.mem_singleton.mp ha]
      exact Nat.lt_succ_self _
  · intro hr
    simp [State.appended, hraw] at hr

/-! ## Removing -/

theorem unlink_next (p : Option Nat) (ha : a ≠ b) (hp : p ≠ some a) :
    (s.unlink p b).next a = s.next a := by
  simp only [State.next, State.unlink, Function.update_of_ne ha]
  cases p with
  | none => rfl
  | some c =>
    have hc : a ≠ c := by rintro rfl; exact hp rfl
    simp only [Function.update_of_ne hc]

/-- The other items stay as they are. -/
theorem unlink_item (p : Option Nat) (ha : a ≠ b) :
    ((s.unlink p b).mem a).map Cell.item = (s.mem a).map Cell.item := by
  simp only [State.unlink, Function.update_of_ne ha]
  cases p with
  | none => rfl
  | some c =>
    simp only [Function.update_apply]
    split
    · next he => subst he; cases s.mem a <;> rfl
    · rfl

theorem Chain.unlink (hc : Chain s (k ++ a :: m)) : Chain (s.unlink k.getLast? a) (k ++ m) := by
  have hnd := hc.nodup
  have hne : ∀ b ∈ k ++ m, b ≠ a := by
    rintro b hb rfl
    rw [List.nodup_append, List.nodup_cons] at hnd
    rcases List.mem_append.mp hb with hb | hb
    · exact hnd.2.2 b hb b (by simp) rfl
    · exact hnd.2.1.1 hb
  have hmem : ∀ b ∈ k ++ m, b ∈ k ++ a :: m := by simp; tauto
  have hseg := hc.segment
  rw [Linked.segment_append] at hseg
  obtain ⟨q, hk, hq, hm⟩ := hseg
  subst hq
  refine ⟨?_, ?_, ?_, fun b hb => hc.below b (hmem b hb), ?_, ?_, ?_⟩
  · rw [Linked.segment_append]
    refine ⟨s.next a, ?_, hm.congr fun b hb => ?_⟩
    · rcases k.eq_nil_or_concat with rfl | ⟨k, b, rfl⟩
      · simp [State.unlink]
      · rw [List.concat_eq_append] at hk hne hc hnd ⊢
        have hfirst : (s.unlink (k ++ [b]).getLast? a).firstItem = s.firstItem := by simp [State.unlink]
        rw [hfirst, List.getLast?_concat]
        refine hk.relink (fun c hc => ?_) ?_
        · refine unlink_next _ (hne c (by simp [hc])) ?_
          rintro he
          cases he
          rw [List.nodup_append, List.nodup_append] at hnd
          exact hnd.1.2.2 b hc b (by simp) rfl
        · obtain ⟨c, hcell⟩ := Option.isSome_iff_exists.mp (hc.live b (by simp))
          simp [State.next, State.unlink, hne b (by simp), hcell]
    · refine unlink_next _ (hne b (by simp [hb])) ?_
      intro he
      rw [List.nodup_append] at hnd
      exact hnd.2.2 b (List.mem_of_getLast? he) b (by simp [hb]) rfl
  · exact hnd.sublist ((List.sublist_cons_self a m).append_left k)
  · intro b hb
    have hi := congrArg Option.isSome (unlink_item (s := s) k.getLast? (hne b hb))
    rw [Option.isSome_map, Option.isSome_map] at hi
    exact hi.trans (hc.live b (hmem b hb))
  · have hl := hc.last
    simp only [State.unlink]
    split
    · next he =>
      rw [he] at hl
      rcases m.eq_nil_or_concat with rfl | ⟨m, b, rfl⟩
      · simp
      · exfalso
        rw [List.concat_eq_append, show k ++ a :: (m ++ [b]) = (k ++ a :: m) ++ [b] by simp,
          List.getLast?_concat] at hl
        exact hne b (by simp) (Option.some.inj hl).symm
    · next he =>
      rcases m.eq_nil_or_concat with rfl | ⟨m, b, rfl⟩
      · exact absurd (hl.trans (by simp)) he
      · rw [hl, List.concat_eq_append, show k ++ a :: (m ++ [b]) = (k ++ a :: m) ++ [b] by simp,
          List.getLast?_concat, ← List.append_assoc, List.getLast?_concat]
  · have hcount := hc.count
    simp only [State.unlink, hcount, List.length_append, List.length_cons]
    omega
  · intro hr
    exact absurd (hc.raw hr) (by simp)

/-- The loop finds an item that is in the rest of the list, and nothing else. -/
theorem removeLoop_spec (n : Nat) (hn : m.length < n) (hm : Linked.Segment s.next p m none) :
    (a ∉ m ∧ removeLoop s a n k.getLast? p = (false, s)) ∨
    ∃ m₁ m₂, m = m₁ ++ a :: m₂ ∧
      removeLoop s a n k.getLast? p = (true, s.unlink (k ++ m₁).getLast? a) := by
  induction m generalizing n k p with
  | nil =>
    cases hm
    cases n with
    | zero => exact .inl ⟨by simp, rfl⟩
    | succ n => exact .inl ⟨by simp, rfl⟩
  | cons b m ih =>
    obtain ⟨rfl, ht⟩ := hm
    obtain ⟨n, rfl⟩ : ∃ j, n = j + 1 := ⟨n - 1, by simp at hn; omega⟩
    rw [removeLoop]
    split
    · next he =>
      subst he
      exact .inr ⟨[], m, rfl, by simp⟩
    · next hne =>
      have hr := ih (k := k ++ [b]) n (by simpa using hn) ht
      rw [List.getLast?_concat] at hr
      rcases hr with ⟨ha, he⟩ | ⟨m₁, m₂, rfl, he⟩
      · exact .inl ⟨by simp [ha, Ne.symm hne], he⟩
      · exact .inr ⟨b :: m₁, m₂, rfl, by rw [he]; simp⟩

/-- What `sentry__envelope_remove_item` does to the list `l` of items. -/
def Removes (s : State) (l : List Nat) (item : Option Nat) : Prop :=
  match item with
  | none => removeItem none s = (false, s)
  | some a =>
    if a ∈ l then
      (removeItem (some a) s).1 = true ∧ Chain (removeItem (some a) s).2 (l.erase a) ∧
        (removeItem (some a) s).2.headers = s.headers ∧
        ∀ b ∈ l, b ≠ a → ((removeItem (some a) s).2.mem b).map Cell.item = (s.mem b).map Cell.item
    else removeItem (some a) s = (false, s)

theorem Chain.removes (hc : Chain s l) (item : Option Nat) : Removes s l item := by
  cases item with
  | none => rfl
  | some a =>
    rw [Removes]
    cases hraw : s.raw with
    | some p =>
      have hl := hc.raw (by rw [hraw]; rfl)
      simp [hl, removeItem, hraw]
    | none =>
      have hloop := removeLoop_spec (a := a) (k := []) (s.itemCount + 1) (by rw [hc.count]; omega) hc.segment
      have heq : removeItem (some a) s = removeLoop s a (s.itemCount + 1) none s.firstItem := by
        simp [removeItem, hraw]
      rw [heq]
      rcases hloop with ⟨ha, he⟩ | ⟨m₁, m₂, rfl, he⟩
      · rw [if_neg ha]
        exact he
      · rw [if_pos (by simp), show (none : Option Nat) = ([] : List Nat).getLast? from rfl, he,
          List.nil_append]
        have hfirst : a ∉ m₁ := by
          intro hm
          have hnd := hc.nodup
          rw [List.nodup_append] at hnd
          exact hnd.2.2 a hm a (by simp) rfl
        rw [List.erase_append_right _ hfirst, List.erase_cons_head]
        exact ⟨rfl, hc.unlink, rfl, fun b _ hb => unlink_item _ hb⟩

/-! ## Runs -/

theorem chain_start (h : Start s) : Chain s [] := by
  obtain ⟨ok, raw, rfl⟩ := h
  exact ⟨rfl, by simp, by simp, by simp, rfl, rfl, fun _ => rfl⟩

/-- Whether an addition strands an item: four of them build their payload first and never do. -/
def Addition.strands (s : State) : Addition → Bool
  | .event v _ _ | .feedbackEvent v _ _ | .transaction v _ _ _ | .userReport v _ =>
    s.strands (idDraws v)
  | .logs _ | .metrics _ => s.strands 0
  | .session _ | .attachmentRef .. | .fromBuffer _ _ | .clientReport _ _ => false

theorem Addition.ends (x : Addition) : Ends s (x.strands s) (x.run dt s) := by
  cases x with
  | event event newId scope => exact addEvent_ends event newId scope
  | transaction transaction newId dsc now => exact addTransaction_ends transaction newId dsc now
  | logs logs => exact addTelemetry_ends logs _ _
  | metrics metrics => exact addTelemetry_ends metrics _ _
  | userReport userReport newId => exact addUserReport_ends userReport newId
  | feedbackEvent event newId scope => exact addFeedbackEvent_ends event newId scope
  | session json => exact addSession_clean json s
  | attachmentRef ref filename attachmentType length => exact addAttachmentRef_clean _ _ _ _ s
  | fromBuffer buf type => exact addFromBuffer_clean buf type s
  | clientReport report timestamp => exact addClientReport_clean report timestamp s

theorem Ends.chain {b : Bool} {r : Option Nat × State} (h : Ends s b r) (hc : Chain s l) :
    ∃ l', Chain r.2 l' := by
  unfold Ends at h
  split at h
  · obtain ⟨hraw, i, n, rfl⟩ := h
    exact ⟨_, hc.appended hraw s.headers i n⟩
  · cases h with
    | refused n => exact ⟨l, hc.drawn n⟩
    | added hraw h i n => exact ⟨_, hc.appended hraw h i n⟩

theorem Chain.step (hc : Chain s l) (op : Op) : ∃ l', Chain (step dt s op) l' := by
  cases op with
  | add x => exact x.ends.chain hc
  | addItem =>
    rcases envelopeAddItem_cases s with ⟨-, n, he⟩ | ⟨hraw, -, i, he⟩
    · exact ⟨l, by rw [EnvelopeItems.step, he]; exact hc.drawn n⟩
    · exact ⟨_, by rw [EnvelopeItems.step, he]; exact hc.appended hraw _ i _⟩
  | setItem a f => exact ⟨l, hc.setItem a f⟩
  | setHeader key value =>
    refine ⟨l, ?_⟩
    simp only [EnvelopeItems.step, setHeader]
    split
    · exact hc
    · exact hc.of_same (fun _ _ => rfl) (fun _ _ => rfl) rfl rfl rfl rfl rfl
  | setHeaders v => exact ⟨l, hc.of_same (fun _ _ => rfl) (fun _ _ => rfl) rfl rfl rfl rfl rfl⟩
  | remove item =>
    have hr := hc.removes item
    cases item with
    | none => exact ⟨l, hc⟩
    | some a =>
      rw [Removes] at hr
      split at hr
      · exact ⟨_, hr.2.1⟩
      · exact ⟨l, by rw [EnvelopeItems.step, hr]; exact hc⟩
  | materialize =>
    simp only [EnvelopeItems.step]
    split
    · exact ⟨[], rfl, by simp, by simp, by simp, rfl, rfl, fun _ => rfl⟩
    · exact ⟨l, hc⟩
  | restore p => exact ⟨[], rfl, by simp, by simp, by simp, rfl, rfl, fun _ => rfl⟩

theorem Reachable.chain (h : Reachable dt s) : ∃ l, Chain s l :=
  Machine.Reachable.invariant (I := fun s => ∃ l, Chain s l) (fun _ hs => ⟨[], chain_start hs⟩)
    (by rintro s _ ⟨l, hc⟩ ⟨op, rfl⟩; exact hc.step op) h

/-! ## Failed additions -/

/-- The items and the headers are what they were. -/
structure Untouched (s t : State) : Prop where
  raw : t.raw = s.raw
  headers : t.headers = s.headers
  firstItem : t.firstItem = s.firstItem
  lastItem : t.lastItem = s.lastItem
  itemCount : t.itemCount = s.itemCount
  mem : t.mem = s.mem

theorem Ends.untouched_iff {b : Bool} {r : Option Nat × State} (h : Ends s b r) :
    (r.1 = none → Untouched s r.2) ↔ b = false := by
  unfold Ends at h
  split at h
  · next hb =>
    obtain ⟨-, i, n, rfl⟩ := h
    refine ⟨fun hu => ?_, fun he => absurd hb (by simp [he])⟩
    have hcount : s.itemCount + 1 = s.itemCount := (hu rfl).itemCount
    omega
  · next hb =>
    refine ⟨fun _ => by simpa using hb, fun _ hr => ?_⟩
    cases h with
    | refused n => exact ⟨rfl, rfl, rfl, rfl, rfl, rfl⟩
    | added => cases hr

/-- A failed addition leaves the envelope as it was unless it strands its item; the list, its end and
its count always agree, and removing an item removes that one. -/
theorem failed_additions (h : Reachable dt s) :
    (∀ x : Addition, ((x.run dt s).1 = none → Untouched s (x.run dt s).2) ↔ x.strands s = false) ∧
      ∃ l, Chain s l ∧ ∀ item, Removes s l item := by
  obtain ⟨l, hc⟩ := h.chain
  exact ⟨fun x => x.ends.untouched_iff, l, hc, hc.removes⟩

/-- The writer for a user report is not allocated: the call fails and its empty item stays. -/
theorem user_report_stranded : ∃ s, Reachable noDoubles s ∧
    (addUserReport noDoubles (.object []) (fun _ => 1) s).1 = none ∧
    ¬ Untouched s (addUserReport noDoubles (.object []) (fun _ => 1) s).2 := by
  refine ⟨State.new fun k => k ≠ 2, .start ⟨_, none, rfl⟩, rfl, fun hu => ?_⟩
  have hcount : (0 : Nat) + 1 = 0 := hu.itemCount
  omega

/-- An envelope with one item, whose next allocation fails. -/
theorem failed_additions_after_logs : ∃ s, (s.itemCount = 1 ∧ s.ok s.drawn = false) ∧
    (∀ x : Addition, ((x.run noDoubles s).1 = none → Untouched s (x.run noDoubles s).2) ↔
      x.strands s = false) ∧ ∃ l, Chain s l ∧ ∀ item, Removes s l item :=
  ⟨step noDoubles (State.new fun k => k ≠ 10) (.add (.logs .null)), ⟨rfl, by decide⟩,
    failed_additions (.next (.start ⟨_, none, rfl⟩) ⟨.add (.logs .null), rfl⟩)⟩

end SentryNative.EnvelopeItems
