import SentryNative.Value.Tree

/-!
# Discard counters

`sentry_client_report.c`: one counter for every reason and category. A counter
is a `long`, counted up one item at a time, and is a natural number here.
-/

namespace SentryNative

inductive DiscardReason where
  | queueOverflow
  | cacheOverflow
  | ratelimitBackoff
  | networkError
  | sampleRate
  | beforeSend
  | sendError
  deriving Repr, DecidableEq

inductive DataCategory where
  | error
  | session
  | transaction
  | attachment
  | logItem
  | feedback
  | traceMetric
  | replay
  deriving Repr, DecidableEq

namespace DiscardReason

/-- The reasons in the order of the enumeration. -/
def all : List DiscardReason :=
  [queueOverflow, cacheOverflow, ratelimitBackoff, networkError, sampleRate, beforeSend, sendError]

/-- `discard_reason_to_string`. -/
def toText : DiscardReason → String
  | queueOverflow => "queue_overflow"
  | cacheOverflow => "cache_overflow"
  | ratelimitBackoff => "ratelimit_backoff"
  | networkError => "network_error"
  | sampleRate => "sample_rate"
  | beforeSend => "before_send"
  | sendError => "send_error"

end DiscardReason

namespace DataCategory

def all : List DataCategory :=
  [error, session, transaction, attachment, logItem, feedback, traceMetric, replay]

/-- `data_category_to_string`. -/
def toText : DataCategory → String
  | error => "error"
  | session => "session"
  | transaction => "transaction"
  | attachment => "attachment"
  | logItem => "log_item"
  | feedback => "feedback"
  | traceMetric => "trace_metric"
  | replay => "replay"

end DataCategory

/-- `sentry_client_report_t`, and the global `g_discard_counts`. -/
def Counts := DiscardReason → DataCategory → Nat

namespace Counts

def zero : Counts := fun _ _ => 0

/-- `sentry__client_report_discard`. -/
def discard (counts : Counts) (reason : DiscardReason) (category : DataCategory)
    (quantity : Nat) : Counts :=
  fun r c => counts r c + if r = reason ∧ c = category then quantity else 0

/-- `sentry__client_report_has_pending`. -/
def hasPending (counts : Counts) : Bool :=
  DiscardReason.all.any fun r => DataCategory.all.any fun c => 0 < counts r c

/-- `sentry__client_report_save`: the report, whether it has counts, and what is left. -/
def save (counts : Counts) : Counts × Bool × Counts := (counts, counts.hasPending, zero)

/-- `sentry__client_report_restore`: the report is zero afterwards. -/
def restore (counts report : Counts) : Counts := fun r c => counts r c + report r c

/-- The entries of a report, in the order of the two loops. -/
def entries (report : Counts) : List (DiscardReason × DataCategory × Nat) :=
  DiscardReason.all.flatMap fun r => DataCategory.all.filterMap fun c =>
    if 0 < report r c then some (r, c, report r c) else none

end Counts

end SentryNative
