import Mathlib.Data.Fintype.Basic
import Mathlib.Data.List.Sort
import SentryNative.Lib.Machine
import SentryNative.Retry.CacheFile

/-!
# Retries

The cache directory as a list of files, `sentry__retry_send` over it and what
becomes of each file. The environment of a call is an argument: the order in
which the directory is read, the clock, and how each file fares. Renames,
removals and allocations succeed.
-/

namespace SentryNative.Retry

open CLib

/-- An envelope as far as the retries look at it: which one it is, and its event
id if it has one. -/
structure Envelope where
  id : Nat
  eventId : Option Uuid
  deriving DecidableEq

/-- The files of the cache directory. -/
abbrev Dir := List (Bytes × Envelope)

namespace Dir

def names (d : Dir) : List Bytes := d.map Prod.fst

def remove (d : Dir) (name : Bytes) : Dir := d.filter (·.1 ≠ name)

def write (d : Dir) (name : Bytes) (e : Envelope) : Dir := d.remove name ++ [(name, e)]

/-- `sentry__path_rename`, which replaces a file of the new name. -/
def rename (d : Dir) (old new : Bytes) : Dir :=
  match d.lookup old with
  | some e => (d.remove old).write new e
  | none => d

def isFile (d : Dir) (name : Bytes) : Bool := (d.lookup name).isSome

/-- `sentry__cache_remove_envelope`: the file and its siblings. -/
def removeEnvelope (d : Dir) (name : Bytes) : Dir :=
  let rest : Dir := match parseCacheFilename name with
    | some c => d.filter fun f => !isCacheSibling f.1 c.uuid
    | none => d
  rest.remove name

/-- `sentry__run_move_cache`. -/
def moveCache (d : Dir) (src : Bytes) (retryCount : Int) (now : Nat) : Dir :=
  let cacheName := match parseCacheFilename src with
    | some c => c.uuid
    | none => src
  d.rename src (makeCachePath now retryCount cacheName)

end Dir

/-! ## Items -/

/-- `SENTRY_RETRY_ATTEMPTS` -/
def retryAttempts : Int := 6

/-- `SENTRY_RETRY_INTERVAL` -/
def retryInterval : Nat := 15 * 60 * 1000

/-- `sentry__retry_backoff`. -/
def retryBackoff (count : Int) : Nat := retryInterval <<< (min (max count 0) 5).toNat

/-- `retry_item_t`. -/
structure Item where
  name : Bytes
  ts : Nat
  count : Int
  uuid : Bytes
  deriving DecidableEq, Repr

/-- `compare_retry_items`. -/
def compareRetryItems (a b : Item) : Int :=
  if a.ts ≠ b.ts then (if a.ts < b.ts then -1 else 1)
  else if a.count ≠ b.count then a.count - b.count
  else strcmp a.uuid b.uuid

/-- A file that is queued for a retry. -/
def retryItem (name : Bytes) : Option Item :=
  match parseCacheFilename name with
  | some c => if c.count < 0 then none else some ⟨name, c.ts, c.count, c.uuid⟩
  | none => none

/-! ## Results -/

/-- `sentry_cache_keep_t`. -/
inductive CacheKeep where
  | none
  | offline
  | always
  deriving DecidableEq, Repr

/-- How a file fares that could be read: the status of the send, the clock after
it, whether a write to the cache works, and the id it takes there if the
envelope has none. -/
structure Reply where
  status : Int
  usec : UInt64
  written : Bool
  fresh : Uuid
  deriving DecidableEq

def Reply.now (r : Reply) : Nat := r.usec.toNat / 1000

/-- `sentry__envelope_write_to_cache`; nothing if it fails. -/
def writeToCache (d : Dir) (e : Envelope) (r : Reply) : Option Dir :=
  let name := (e.eventId.getD r.fresh).asString ++ extension
  if d.isFile name then some d
  else if r.written then some (d.write name e)
  else none

/-- `handle_result`. -/
def handleResult (keep : CacheKeep) (d : Dir) (item : Item) (e : Envelope) (r : Reply) :
    Dir × Bool :=
  if item.count + 1 < retryAttempts ∧ r.status < 0 then
    (d.rename item.name (makeCachePath r.now (item.count + 1) item.uuid), true)
  -- exhausted: cache on the last attempt
  else if item.count + 1 ≥ retryAttempts ∧ keep ≠ .none ∧ r.status < 0 then
    if keep = .always ∧ d.isFile (makeCachePath 0 (-1) item.uuid) then (d.remove item.name, false)
    else (d.moveCache item.name (-1) r.now, false)
  else
    match (if keep = .always then writeToCache d e r else none) with
    | some d => (d.remove item.name, false)
    | none => (d.removeEnvelope item.name, false)

/-! ## A round -/

/-- A call of `sentry__retry_send`: its argument, whether uploads are to be
skipped, the clock at its start, the order of the directory and how the files
fare; a file without a reply cannot be read. -/
structure Call where
  skipUpload : Bool
  before : UInt64
  usec : UInt64
  listing : List Bytes
  reply : Nat → Option Reply

namespace Call

def now (c : Call) : Nat := if c.before > 0 then 0 else c.usec.toNat / 1000

/-- The filter of the files that the result counts. -/
def counts (c : Call) (i : Item) : Bool := c.before = 0 ∨ i.ts < c.before.toNat

def eligible (c : Call) (i : Item) : Bool :=
  c.before ≠ 0 ∨ i.ts ≤ c.now ∧ retryBackoff i.count ≤ c.now - i.ts

def candidates (c : Call) : List Item := (c.listing.filterMap retryItem).filter c.counts

/-- The files of the round, in the order of `qsort`. -/
def items (c : Call) : List Item :=
  (c.candidates.filter c.eligible).insertionSort fun a b => compareRetryItems a b ≤ 0

end Call

/-- What was done with a file: `reply` is missing if it could not be read. -/
structure Event where
  item : Item
  envelope : Option Envelope
  reply : Option Reply
  before : UInt64
  now : Nat
  deriving DecidableEq

structure Round where
  dir : Dir
  total : Nat
  events : List Event

/-- The loop over the items. -/
def retryLoop (keep : CacheKeep) (c : Call) : Nat → List Item → Round → Round
  | _, [], s => s
  | i, item :: rest, s =>
    let event (r : Option Reply) : Event := ⟨item, s.dir.lookup item.name, r, c.before, c.now⟩
    match s.dir.lookup item.name, c.reply i with
    | some e, some r =>
      let (d, keepRetry) := handleResult keep s.dir item e r
      let s : Round := ⟨d, if keepRetry then s.total else s.total - 1, s.events ++ [event (some r)]⟩
      -- stop on a network failure
      if r.status < 0 then s else retryLoop keep c (i + 1) rest s
    | _, _ =>
      retryLoop keep c (i + 1) rest
        ⟨s.dir.removeEnvelope item.name, s.total - 1, s.events ++ [event none]⟩

/-- `sentry__retry_send`; the result is `total`. -/
def retrySend (keep : CacheKeep) (d : Dir) (c : Call) : Round :=
  if c.skipUpload then ⟨d, 1, []⟩
  else retryLoop keep c 0 c.items ⟨d, c.candidates.length, []⟩

/-! ## Runs -/

/-- An envelope that `sentry__retry_enqueue` wrote, and the id in its name. -/
structure Enqueued where
  envelope : Envelope
  uuid : Uuid
  usec : UInt64
  deriving DecidableEq

def Enqueued.name (q : Enqueued) : Bytes := makeCachePath (q.usec.toNat / 1000) 0 q.uuid.asString

structure State where
  dir : Dir
  log : List Event
  enqueued : List Enqueued
  next : Nat

inductive Label where
  | enqueue (eventId : Option Uuid) (fresh : Uuid) (usec : UInt64)
  | send (call : Call)

/-- The envelope of the next `sentry__retry_enqueue`. -/
def State.enqueue (s : State) (eventId : Option Uuid) (fresh : Uuid) (usec : UInt64) : Enqueued :=
  ⟨⟨s.next, eventId⟩, eventId.getD fresh, usec⟩

def step (keep : CacheKeep) (s : State) : Label → State
  | .enqueue eventId fresh usec =>
    let q := s.enqueue eventId fresh usec
    { s with
      dir := s.dir.write q.name q.envelope
      enqueued := s.enqueued ++ [q]
      next := s.next + 1 }
  | .send call =>
    let r := retrySend keep s.dir call
    { s with dir := r.dir, log := s.log ++ r.events }

/-- The files that are queued for a retry. -/
def Dir.queue (d : Dir) : Dir := d.filter fun f => (retryItem f.1).isSome

/-- A directory in which every queued file has a name that the retries gave it. -/
structure Tidy (d : Dir) : Prop where
  nodup : d.names.Nodup
  named : ∀ f ∈ d.queue, ∃ (ts n : Nat) (u : Uuid), ts < 2 ^ 64 ∧ n < 6 ∧
    f.1 = makeCachePath ts n u.asString
  distinct : (d.queue.map fun f => f.2.id).Nodup

/-- A run may begin with files that earlier runs have left. -/
def Start (s : State) : Prop :=
  Tidy s.dir ∧ (∀ f ∈ s.dir.queue, f.2.id < s.next) ∧ s.log = [] ∧ s.enqueued = []

/-- The names a round gives to the file at which it stops. -/
def renamedTo (r : Round) : List Bytes :=
  r.events.filterMap fun v => v.reply.bind fun reply =>
    if reply.status < 0 ∧ v.item.count + 1 < retryAttempts then
      some (makeCachePath reply.now (v.item.count + 1) v.item.uuid)
    else none

/-- The directory is read in any order, and no file takes the name of another. -/
def Allowed (keep : CacheKeep) (s : State) : Label → Prop
  | .enqueue eventId fresh usec => (s.enqueue eventId fresh usec).name ∉ s.dir.names
  | .send call =>
    call.listing.Perm s.dir.names ∧ ∀ n ∈ renamedTo (retrySend keep s.dir call), n ∉ s.dir.names

def Reachable (keep : CacheKeep) : State → Prop :=
  Machine.Reachable Start fun s t => ∃ l, Allowed keep s l ∧ t = step keep s l

end SentryNative.Retry
