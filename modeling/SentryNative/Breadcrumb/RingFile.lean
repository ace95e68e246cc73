import SentryNative.Lib.Calendar
import SentryNative.Value.Msgpack

/-!
# The breadcrumb ring files

The process appends each breadcrumb to one of two files and starts the other one over after
every `max_breadcrumbs`. The daemon decodes both and merges them by the text of their
timestamps.
-/

namespace SentryNative.Breadcrumb

open CLib Msgpack

/-! ## Writing -/

/-- `num_breadcrumbs`, a `size_t`, and the contents of the two files. -/
structure Rings where
  numBreadcrumbs : Nat
  file1 : Bytes
  file2 : Bytes
  deriving DecidableEq, Repr

/-- Both files are touched at startup. -/
def startup : Rings := ⟨0, [], []⟩

/-- `native_backend_add_breadcrumb` for the encoded breadcrumb; `written` bytes of it reach the
file, which is truncated first when it is started over. -/
def addBreadcrumb (maxBreadcrumbs : Nat) (s : Rings) (mpack : Bytes) (written : Nat) : Rings :=
  if maxBreadcrumbs = 0 then s
  else
    let firstBreadcrumb := s.numBreadcrumbs % maxBreadcrumbs = 0
    let put (file : Bytes) : Bytes := if firstBreadcrumb then mpack.take written else file ++ mpack.take written
    let next := (s.numBreadcrumbs + 1) % 2 ^ 64
    if s.numBreadcrumbs % (maxBreadcrumbs * 2 % 2 ^ 64) < maxBreadcrumbs then ⟨next, put s.file1, s.file2⟩
    else ⟨next, s.file1, put s.file2⟩

/-- Breadcrumbs that are written completely, one after the other. -/
def addAll (maxBreadcrumbs : Nat) (es : List Bytes) : Rings :=
  es.foldl (fun s e => addBreadcrumb maxBreadcrumbs s e e.length) startup

/-- The files as the crash leaves them: after some breadcrumbs that were written completely,
and maybe one whose write was cut. -/
def crashed (m : Mpack) (maxBreadcrumbs : Nat) (vs : List Value) (torn : Option (Value × Nat)) : Rings :=
  match torn with
  | none => addAll maxBreadcrumbs (vs.map (toMsgpack m))
  | some (v, written) => addBreadcrumb maxBreadcrumbs (addAll maxBreadcrumbs (vs.map (toMsgpack m))) (toMsgpack m v) written

/-! ## Timestamps -/

/-- `sentry__usec_time_to_iso8601`. -/
def usecTimeToIso8601 (time : UInt64) : Option Bytes :=
  let tm := gmtime (time.toNat / 1000000)
  if 9000 < tm.year - 1900 then none
  else
    let usecs := time.toNat % 1000000
    some (strftimeSeconds tm ++ (if usecs ≠ 0 then 46 :: printPadded 6 usecs else []) ++ [90])

/-! ## Reading -/

def timestampKey : Bytes := ascii "timestamp"

def breadcrumbsKey : Bytes := ascii "breadcrumbs"

/-- `cmp_breadcrumb`. -/
def cmpBreadcrumb (a b : Value) : Int :=
  match a.getByKey timestampKey, b.getByKey timestampKey with
  | .null, _ => -1
  | _, .null => 1
  | ta, tb => strcmp ta.asString tb.asString

/-- Skipping the oldest, as many as given. -/
def skipOldest (le : α → α → Bool) : Nat → List α → List α → List α × List α
  | 0, as, bs => (as, bs)
  | n + 1, a :: as, b :: bs =>
    if le a b then skipOldest le n as (b :: bs) else skipOldest le n (a :: as) bs
  | n + 1, [], bs => ([], bs.drop (n + 1))
  | n + 1, as, [] => (as.drop (n + 1), [])

def items (list : Value) : List Value :=
  match list with
  | .list vs => vs
  | _ => []

/-- `sentry__value_merge_breadcrumbs`. -/
def mergeBreadcrumbs (listA listB : Value) (max : Nat) : Value :=
  match items listA, items listB with
  | [], [] => .null
  | [], _ => listB
  | _, [] => listA
  | as, bs =>
    let le (a b : Value) : Bool := cmpBreadcrumb a b ≤ 0
    let rest := skipOldest le (as.length + bs.length - max) as bs
    .list (List.merge rest.1 rest.2 le)

/-- `read_breadcrumb_ring_file`; the decoder takes no more rounds than there are bytes. -/
def readBreadcrumbRingFile (m : Mpack) (buf : Bytes) : Value :=
  if buf = [] then .null else (fromMsgpackStream m (buf.length + 1) buf).getD .null

def SENTRY_BREADCRUMBS_MAX : Nat := 100

/-- `apply_breadcrumbs_from_ring_files`, with the `max_breadcrumbs` of the context. -/
def applyBreadcrumbsFromRingFiles (m : Mpack) (event : Value) (rings : Rings) (ctx : Option UInt32) : Value :=
  if ctx = some 0 then event
  else
    let b1 := readBreadcrumbRingFile m rings.file1
    let b2 := readBreadcrumbRingFile m rings.file2
    let max := match ctx with
      | some n => n.toNat
      | none => SENTRY_BREADCRUMBS_MAX
    match mergeBreadcrumbs b1 b2 max with
    | .list vs => event.setByKey breadcrumbsKey (.list vs)
    | _ => event

end SentryNative.Breadcrumb
