import Mathlib.Logic.Function.Basic
import SentryNative.Envelope.Model
import SentryNative.Lib.Machine
import SentryNative.Scope.Apply

/-!
# Transactions and their spans

Transactions and spans are counted objects: callers hold them, scopes refer to them, and a span holds its transaction.
A transaction lists its live children without holding them. An operation that touches a freed object has no result.

Payloads are trees. Allocations of objects, and of a longer list of children, may fail.
-/

namespace SentryNative.Tracing.Spans

open CLib Value
open Envelope (isTrue getLength)
open Scope (getTraceContext)

def spansKey : Bytes := ascii "spans"
def timestampKey : Bytes := ascii "timestamp"
def sampledKey : Bytes := ascii "sampled"
def spanIdKey : Bytes := ascii "span_id"
def traceIdKey : Bytes := ascii "trace_id"
def parentSpanIdKey : Bytes := ascii "parent_span_id"
def statusKey : Bytes := ascii "status"
def dataKey : Bytes := ascii "data"
def nameKey : Bytes := ascii "transaction"

/-! ## The heap -/

/-- `sentry_span_t`; the count is that of its value. -/
structure Span where
  inner : Value
  refs : Nat
  transaction : Nat

/-- `sentry_transaction_t`. -/
structure Transaction where
  inner : Value
  refs : Nat
  children : List Nat
  childrenCap : Nat

structure Heap where
  spans : Nat → Option Span
  transactions : Nat → Option Transaction
  made : Nat

namespace Heap

def storeSpan (h : Heap) (i : Nat) (s : Option Span) : Heap := { h with spans := Function.update h.spans i s }

def storeTransaction (h : Heap) (t : Nat) (tx : Option Transaction) : Heap :=
  { h with transactions := Function.update h.transactions t tx }

/-- `sentry__transaction_incref`. -/
def transactionIncref (t : Nat) (h : Heap) : Option Heap := do
  let tx ← h.transactions t
  some (h.storeTransaction t (some { tx with refs := tx.refs + 1 }))

/-- `sentry__transaction_decref`. -/
def transactionDecref (t : Nat) (h : Heap) : Option Heap := do
  let tx ← h.transactions t
  if tx.refs = 1 then some (h.storeTransaction t none)
  else some (h.storeTransaction t (some { tx with refs := tx.refs - 1 }))

/-- The loop of `sentry__transaction_remove_child`: the last child takes the place of the one that leaves. -/
def unlist (i : Nat) (children : List Nat) : List Nat :=
  if children.idxOf i < children.length then (children.set (children.idxOf i) (children.getLastD 0)).dropLast
  else children

/-- `sentry__transaction_remove_child`. -/
def removeChild (t i : Nat) (h : Heap) : Option Heap := do
  let tx ← h.transactions t
  some (h.storeTransaction t (some { tx with children := unlist i tx.children }))

/-- `sentry__span_incref`. -/
def spanIncref (i : Nat) (h : Heap) : Option Heap := do
  let s ← h.spans i
  some (h.storeSpan i (some { s with refs := s.refs + 1 }))

/-- `sentry__span_decref`. -/
def spanDecref (i : Nat) (h : Heap) : Option Heap := do
  let s ← h.spans i
  if s.refs = 1 then
    let h ← h.removeChild s.transaction i
    let h ← h.transactionDecref s.transaction
    some (h.storeSpan i none)
  else some (h.storeSpan i (some { s with refs := s.refs - 1 }))

/-- `sentry__transaction_new`. -/
def transactionNew (inner : Value) (h : Heap) : Heap :=
  { h.storeTransaction h.made (some ⟨inner, 1, [], 0⟩) with made := h.made + 1 }

/-- The list of children in `sentry__span_new`: it has room, or finds room, or the span is not listed. -/
def list (i : Nat) (grows : Bool) (tx : Transaction) : Transaction :=
  let cap := if tx.children.length = tx.childrenCap ∧ grows then
    (if tx.childrenCap = 0 then 4 else tx.childrenCap * 2) else tx.childrenCap
  { tx with
    childrenCap := cap
    children := if tx.children.length < cap then tx.children ++ [i] else tx.children }

/-- `sentry__span_new`. -/
def spanNew (t : Nat) (inner : Value) (grows : Bool) (h : Heap) : Option Heap := do
  let h ← h.transactionIncref t
  let tx ← h.transactions t
  let h := h.storeTransaction t (some (list h.made grows tx))
  some { h.storeSpan h.made (some ⟨inner, 1, t⟩) with made := h.made + 1 }

end Heap

/-! ## Payloads -/

/-- The part of `new_span_n` and `sentry__value_span_new_n` that builds the value. -/
def childValue (parent : Value) (operation description spanId now : Bytes) : Value :=
  .object [(ascii "op", .string operation), (spanIdKey, .string spanId), (statusKey, .string (ascii "ok")),
    (traceIdKey, parent.getByKey traceIdKey), (parentSpanIdKey, parent.getByKey spanIdKey),
    (sampledKey, parent.getByKey sampledKey), (ascii "description", .string description),
    (ascii "start_timestamp", .string now)]

/-- `sentry__value_span_new_n`. -/
def valueSpanNew (maxSpans : Nat) (parent : Value) (operation description spanId now : Bytes) : Value :=
  if (parent.getByKey timestampKey).isNull ∧ getLength (parent.getByKey spansKey) < maxSpans then
    childValue parent operation description spanId now
  else .null

/-- `sentry__value_new_event_with_id`. -/
def newEvent (eventId now : Bytes) : Value :=
  .object [(ascii "event_id", .string eventId), (timestampKey, .string now), (ascii "platform", .string (ascii "native"))]

/-- The value that `sentry_transaction_start_ts` makes of a context. An incoming trace that is not continued is left
for the trace `fork`. -/
def startValue (ctx : Value) (eventId : Bytes) (fork : Option Value) (sampled : Bool) (now : Bytes) : Value :=
  let ctx := if getLength (ctx.getByKey parentSpanIdKey) < 1 then ctx.removeByKey parentSpanIdKey else ctx
  let tx := mergeObjects ((newEvent eventId now).removeByKey timestampKey) ctx
  let tx := match fork, (tx.getByKey (ascii "incoming_dsc")).isNull with
    | some traceId, false => ((tx.setByKey traceIdKey traceId).removeByKey parentSpanIdKey).removeByKey sampledKey
    | _, _ => tx
  ((tx.removeByKey (ascii "incoming_dsc")).setByKey sampledKey (.bool sampled)).setByKey (ascii "start_timestamp")
    (.string now)

/-- What `sentry_span_finish_ts` makes of the value of a span. -/
def finishedSpan (inner : Value) (now : Bytes) : Value :=
  (inner.setByKey timestampKey (.string now)).removeByKey sampledKey

/-- `sentry_value_append` to the spans of a transaction, which may have none. -/
def appendSpan (root span : Value) : Value :=
  match root.getByKey spansKey with
  | .null => root.setByKey spansKey (.list [span])
  | .list vs => root.setByKey spansKey (.list (vs ++ [span]))
  | _ => root

/-- What `sentry__transaction_finish_value` makes of the value of a sampled transaction. -/
def finishedTransaction (inner : Value) (now : Bytes) : Value :=
  let tx := inner.removeByKey sampledKey
  let tx := tx.setByKey (ascii "type") (.string (ascii "transaction"))
  let tx := tx.setByKey timestampKey (.string now)
  let tx := tx.setByKey (ascii "level") (.string (ascii "info"))
  let tx := if (tx.getByKey nameKey).isNull ∨ getLength (tx.getByKey nameKey) = 0 then
    tx.setByKey nameKey (.string (ascii "<unlabeled transaction>")) else tx
  let trace := (getTraceContext inner).setByKey dataKey (tx.getByKey dataKey)
  let tx := tx.setByKey (ascii "contexts") (.object [(ascii "trace", trace)])
  [traceIdKey, spanIdKey, parentSpanIdKey, ascii "op", ascii "description", statusKey, dataKey].foldl removeByKey tx

/-! ## Scopes and callers -/

/-- What a scope refers to. -/
structure Slots where
  span : Option Nat
  transactionObject : Option Nat

inductive Ref where
  | span (i : Nat)
  | transaction (i : Nat)
  deriving DecidableEq, Repr

/-- A span that was added to its transaction, by the caller who held it or by `sentry__trace_finish`. -/
structure Finished where
  span : Nat
  crashing : Bool
  inner : Value
  now : Bytes

def Finished.value (f : Finished) : Value := finishedSpan f.inner f.now

/-- What has been done with spans: those that are not listed though a caller still holds them, those that were added to
each transaction, and the transactions that were captured. -/
structure History where
  unlisted : List Nat
  appended : Nat → List Finished
  captured : List (Nat × Value)

/-- The first scope is the global one. -/
structure World where
  heap : Heap
  scopes : Nat → Slots
  scopeCount : Nat
  traceManaged : Bool
  propagationContext : Value
  maxSpans : Nat
  held : List Ref
  history : History

def begin (maxSpans : Nat) (traceManaged : Bool) (propagationContext : Value) : World where
  heap := ⟨fun _ => none, fun _ => none, 0⟩
  scopes := fun _ => ⟨none, none⟩
  scopeCount := 1
  traceManaged := traceManaged
  propagationContext := propagationContext
  maxSpans := maxSpans
  held := []
  history := ⟨[], fun _ => [], []⟩

namespace World

/-- An operation on the objects. -/
def on (w : World) (f : Heap → Option Heap) : Option World := (f w.heap).map fun h => { w with heap := h }

def setSlots (w : World) (c : Nat) (s : Slots) : World := { w with scopes := Function.update w.scopes c s }

def spanDecref (i : Option Nat) (w : World) : Option World := i.elim (some w) fun i => w.on (Heap.spanDecref i)

def spanIncref (i : Option Nat) (w : World) : Option World := i.elim (some w) fun i => w.on (Heap.spanIncref i)

def transactionDecref (t : Option Nat) (w : World) : Option World :=
  t.elim (some w) fun t => w.on (Heap.transactionDecref t)

def transactionIncref (t : Option Nat) (w : World) : Option World :=
  t.elim (some w) fun t => w.on (Heap.transactionIncref t)

/-- A setter of a span or a transaction. -/
def edit (o : Ref) (k : Bytes) (v : Value) (w : World) : Option World :=
  match o with
  | .span i => do
    let s ← w.heap.spans i
    some { w with heap := w.heap.storeSpan i (some { s with inner := s.inner.setByKey k v }) }
  | .transaction t => do
    let tx ← w.heap.transactions t
    some { w with heap := w.heap.storeTransaction t (some { tx with inner := tx.inner.setByKey k v }) }

/-- The global scope lets go of its span, if it has the id of the one that is finished. -/
def leaveSpan (span : Value) (w : World) : Option World :=
  match (w.scopes 0).span with
  | none => some w
  | some j => do
    let scopeSpan ← w.heap.spans j
    if (span.getByKey spanIdKey).asString = (scopeSpan.inner.getByKey spanIdKey).asString then
      let w ← w.spanDecref (some j)
      some (w.setSlots 0 ⟨none, (w.scopes 0).transactionObject⟩)
    else some w

/-- The global scope lets go of its transaction, if it has the span id of the one that is finished. -/
def leaveTransaction (tx : Value) (w : World) : Option World :=
  match (w.scopes 0).transactionObject with
  | none => some w
  | some u => do
    let scopeTx ← w.heap.transactions u
    if (tx.getByKey spanIdKey).asString = (scopeTx.inner.getByKey spanIdKey).asString then
      let w ← w.transactionDecref (some u)
      some (w.setSlots 0 ⟨(w.scopes 0).span, none⟩)
    else some w

/-- A transaction gets a finished span, unless it has enough of them. -/
def append (t : Nat) (root : Transaction) (f : Finished) (w : World) : World :=
  if w.maxSpans ≤ getLength (root.inner.getByKey spansKey) then w
  else
    { w with
      heap := w.heap.storeTransaction t (some { root with inner := appendSpan root.inner f.value })
      history.appended := Function.update w.history.appended t (w.history.appended t ++ [f]) }

/-- `sentry_span_finish_ts`, up to the reference that it consumes. -/
def closeSpan (i : Nat) (now : Bytes) (crashing : Bool) (w : World) : Option World := do
  let s ← w.heap.spans i
  let root ← w.heap.transactions s.transaction
  if s.inner.isNull ∨ root.inner.isNull then some w
  else
    let w ← w.on (Heap.removeChild s.transaction i)
    if ¬isTrue (root.inner.getByKey sampledKey) ∨ ¬(root.inner.getByKey timestampKey).isNull then some w
    else
      let w ← w.leaveSpan s.inner
      if ¬isTrue (s.inner.getByKey sampledKey) ∨ ¬(s.inner.getByKey timestampKey).isNull then some w
      else
        let root ← w.heap.transactions s.transaction
        some (w.append s.transaction root ⟨i, crashing, s.inner, now⟩)

/-- `sentry_span_finish_ts`. -/
def spanFinish (i : Nat) (now : Bytes) (crashing : Bool) (w : World) : Option World := do
  let w ← w.closeSpan i now crashing
  w.spanDecref (some i)

/-- `sentry_span_discard`. -/
def spanDiscard (i : Nat) (w : World) : Option World := do
  let s ← w.heap.spans i
  let w ← w.on (Heap.removeChild s.transaction i)
  let w ← if (w.scopes 0).span = some i then
      (w.spanDecref (some i)).map fun w => w.setSlots 0 ⟨none, (w.scopes 0).transactionObject⟩
    else some w
  w.spanDecref (some i)

/-- The trace id that the propagation context of an SDK-managed trace takes over. -/
def manageTrace (tx : Value) (w : World) : World :=
  let trace := w.propagationContext.getByKey (ascii "trace")
  if w.traceManaged ∧ trace.isObject then
    { w with
      propagationContext := w.propagationContext.setByKey (ascii "trace")
        (trace.setByKey traceIdKey (tx.getByKey traceIdKey)) }
  else w

/-- `sentry__transaction_finish_value`. -/
def transactionFinishValue (t : Nat) (now : Bytes) (w : World) : Option (World × Value) := do
  let root ← w.heap.transactions t
  if root.inner.isNull then
    let w ← w.transactionDecref (some t)
    some (w, .null)
  else
    let w ← w.leaveTransaction root.inner
    let w := w.manageTrace root.inner
    let w ← w.transactionDecref (some t)
    some (w, if isTrue (root.inner.getByKey sampledKey) then finishedTransaction root.inner now else .null)

def capture (t : Nat) (tx : Value) (w : World) : World :=
  if tx.isNull then w else { w with history.captured := w.history.captured ++ [(t, tx)] }

/-- `sentry_transaction_discard`. -/
def transactionDiscard (t : Nat) (w : World) : Option World := do
  let w ← if (w.scopes 0).transactionObject = some t then
      (w.transactionDecref (some t)).map fun w => w.setSlots 0 ⟨(w.scopes 0).span, none⟩
    else some w
  w.transactionDecref (some t)

/-- `sentry_scope_set_transaction_object`. -/
def setTransactionObject (c : Nat) (t : Option Nat) (w : World) : Option World := do
  let w ← w.spanDecref (w.scopes c).span
  let w := w.setSlots c ⟨none, (w.scopes c).transactionObject⟩
  let w ← w.transactionIncref t
  let w ← w.transactionDecref (w.scopes c).transactionObject
  some (w.setSlots c ⟨(w.scopes c).span, t⟩)

/-- `sentry_scope_set_span`. -/
def setSpan (c : Nat) (i : Option Nat) (w : World) : Option World := do
  let w ← w.transactionDecref (w.scopes c).transactionObject
  let w := w.setSlots c ⟨(w.scopes c).span, none⟩
  let w ← w.spanIncref i
  let w ← w.spanDecref (w.scopes c).span
  some (w.setSlots c ⟨i, (w.scopes c).transactionObject⟩)

/-- `sentry_scope_clone`, and `sentry_scope_new` for a scope that refers to nothing. -/
def cloneScope (s : Slots) (w : World) : Option World := do
  let w ← w.transactionIncref s.transactionObject
  let w ← w.spanIncref s.span
  some { w.setSlots w.scopeCount s with scopeCount := w.scopeCount + 1 }

/-- `cleanup_scope`. A scope that is made anew refers to nothing. -/
def cleanupScope (c : Nat) (w : World) : Option World := do
  let w ← w.transactionDecref (w.scopes c).transactionObject
  let w ← w.spanDecref (w.scopes c).span
  some (w.setSlots c ⟨none, none⟩)

/-! ## A crash -/

/-- `sentry_span_set_status` and `sentry_span_finish_ts` for one of the children that were listed. -/
def finishChild (status now : Bytes) (i : Nat) (w : World) : Option World := do
  let w ← w.edit (.span i) statusKey (.string status)
  w.spanFinish i now true

/-- `finish_children`. -/
def finishChildren (t : Nat) (status now : Bytes) (w : World) : Option World := do
  let tx ← w.heap.transactions t
  let w ← tx.children.foldlM (fun w i => w.spanIncref (some i)) w
  let tx ← w.heap.transactions t
  let w : World :=
    { w with
      heap := w.heap.storeTransaction t (some { tx with children := [], childrenCap := 0 })
      history.unlisted := tx.children ++ w.history.unlisted }
  tx.children.reverse.foldlM (fun w i => w.finishChild status now i) w

/-- `s.active_tx`. -/
def activeTransaction (w : World) : Option (Option Nat) :=
  match (w.scopes 0).span with
  | none => some (w.scopes 0).transactionObject
  | some i => do
    let s ← w.heap.spans i
    some (some s.transaction)

/-- `restore_active_trace`. -/
def restoreActiveTrace (saved : Slots) (w : World) : Option World := do
  let slots := w.scopes 0
  let w := w.setSlots 0 ⟨slots.span.or saved.span, slots.transactionObject.or saved.transactionObject⟩
  let w ← w.spanDecref (if slots.span.isSome then saved.span else none)
  w.transactionDecref (if slots.transactionObject.isSome then saved.transactionObject else none)

/-- `sentry__trace_finish`. -/
def traceFinish (status now : Bytes) (w : World) : Option World := do
  let saved := w.scopes 0
  let w ← w.spanIncref saved.span
  let w ← w.transactionIncref saved.transactionObject
  match ← w.activeTransaction with
  | none => w.restoreActiveTrace saved
  | some t =>
    let w ← w.transactionIncref (some t)
    let w ← w.finishChildren t status now
    let w ← w.edit (.transaction t) statusKey (.string status)
    let (w, tx) ← w.transactionFinishValue t now
    let w ← w.restoreActiveTrace saved
    some (w.capture t tx)

end World

/-! ## Calls -/

/-- A call of the API. Contexts are made by the API too. -/
inductive Label where
  | start (ctx : Value) (eventId : Bytes) (fork : Option Value) (sampled : Bool) (now : Bytes)
  | transactionStartChild (t : Nat) (operation description spanId now : Bytes) (grows : Bool)
  | spanStartChild (i : Nat) (operation description spanId now : Bytes) (grows : Bool)
  | spanFinish (i : Nat) (now : Bytes)
  | spanDiscard (i : Nat)
  | transactionFinish (t : Nat) (now : Bytes)
  | transactionDiscard (t : Nat)
  | setTransactionObject (c : Nat) (t : Option Nat)
  | setSpan (c : Nat) (i : Option Nat)
  | newScope
  | cloneScope (c : Nat)
  | cleanupScope (c : Nat)
  | edit (o : Ref) (k : Bytes) (v : Value)
  | traceFinish (status now : Bytes)

namespace World

/-- A caller gets what was made last. -/
def hold (w : World) (o : Ref) : World := { w with held := o :: w.held }

def letGo (w : World) (o : Ref) : World := { w with held := w.held.erase o }

/-- The common part of `sentry_transaction_start_child_ts_n` and `sentry_span_start_child_ts_n`. -/
def startChild (parent : Value) (t : Nat) (operation description spanId now : Bytes) (grows : Bool) (w : World) :
    Option World :=
  let inner := valueSpanNew w.maxSpans parent operation description spanId now
  if inner.isNull then some w
  else do
    let w' ← w.on (Heap.spanNew t inner grows)
    let tx ← w'.heap.transactions t
    let w' := w'.hold (.span w.heap.made)
    some (if w.heap.made ∈ tx.children then w' else { w' with history.unlisted := w.heap.made :: w'.history.unlisted })

end World

open World in
/-- One call. An object that is not allocated leaves everything as it was, and is not modelled. -/
def act (w : World) : Label → Option World
  | .start ctx eventId fork sampled now =>
    some ({ w with heap := w.heap.transactionNew (startValue ctx eventId fork sampled now) }.hold
      (.transaction w.heap.made))
  | .transactionStartChild t operation description spanId now grows => do
    let tx ← w.heap.transactions t
    if tx.inner.isNull then some w else w.startChild tx.inner t operation description spanId now grows
  | .spanStartChild i operation description spanId now grows => do
    let s ← w.heap.spans i
    if s.inner.isNull then some w else w.startChild s.inner s.transaction operation description spanId now grows
  | .spanFinish i now => (w.letGo (.span i)).spanFinish i now false
  | .spanDiscard i => (w.letGo (.span i)).spanDiscard i
  | .transactionFinish t now => do
    let (w, tx) ← (w.letGo (.transaction t)).transactionFinishValue t now
    some (w.capture t tx)
  | .transactionDiscard t => (w.letGo (.transaction t)).transactionDiscard t
  | .setTransactionObject c t => w.setTransactionObject c t
  | .setSpan c i => w.setSpan c i
  | .newScope => w.cloneScope ⟨none, none⟩
  | .cloneScope c => w.cloneScope (w.scopes c)
  | .cleanupScope c => w.cleanupScope c
  | .edit o k v => w.edit o k v
  | .traceFinish status now => w.traceFinish status now

/-- The keys that the setters of transactions and spans write. -/
def edited : List Bytes := [ascii "tags", dataKey, nameKey, statusKey]

/-- Contexts have no spans and no time at which they ended. -/
def Unspanned (ctx : Value) : Prop := ∃ ps, ctx = .object ps ∧ spansKey ∉ ps.map Prod.fst ∧ timestampKey ∉ ps.map Prod.fst

/-- Callers pass what they hold, and give it away once. -/
def Label.Allowed (w : World) : Label → Prop
  | .start ctx _ _ _ _ => Unspanned ctx
  | .transactionStartChild t .. | .transactionFinish t _ | .transactionDiscard t => .transaction t ∈ w.held
  | .spanStartChild i .. | .spanFinish i _ | .spanDiscard i => .span i ∈ w.held
  | .setTransactionObject c t => c < w.scopeCount ∧ ∀ u ∈ t, .transaction u ∈ w.held
  | .setSpan c i => c < w.scopeCount ∧ ∀ j ∈ i, .span j ∈ w.held
  | .cloneScope c | .cleanupScope c => c < w.scopeCount
  | .edit o k _ => o ∈ w.held ∧ k ∈ edited
  | .newScope | .traceFinish .. => True

def Step (w w' : World) : Prop := ∃ l : Label, l.Allowed w ∧ act w l = some w'

end SentryNative.Tracing.Spans
