import SentryNative.Lib.Machine

/-!
# Batch tasks

What becomes of a batch after `process_batch` got it: it is serialized and sent
by the thread pool, by the batcher itself when the pool is of no use, or written
to the run directory by a crash. Every critical section under `task_lock` is one
step; so is every call of `batch_func` and every disposal of an envelope.

A pool worker and the inline path without a pool run the same three functions,
so both are the worker of the task.
-/

namespace SentryNative.Batcher.Task

/-- `sentry_batch_task_state_t`. -/
inductive TaskState where
  | pending
  | running
  | ready
  | completing
  | dumped
  deriving DecidableEq, Repr

/-- Whose turn it is with a batch: the caller of `process_batch`, the worker of
its task, or a crash. -/
inductive Party where
  | batcher
  | worker
  | dumper
  deriving DecidableEq, Repr

/-- What is done with the items or the envelope of a batch. A write to the run
directory is followed by the free of the envelope, a call of `batch_func` by the
release of the items; `free` is an envelope freed unsent. -/
inductive Action where
  | batchFunc
  | send
  | write
  | free
  deriving DecidableEq, Repr

/-- A use, and whether the party was the one that had the batch. -/
structure Use where
  party : Party
  action : Action
  rightful : Bool
  deriving DecidableEq, Repr

/-- `process_batch`. -/
inductive BatcherPc where
  | idle
  | link
  | submit
  | refused
  | waitAll
  | sync (crashSafe : Bool)
  | dispose (crashSafe : Bool)
  | handedOver
  | done
  deriving DecidableEq, Repr

/-- `batch_task_exec`, `batch_task_complete` and `batch_task_free`. -/
inductive WorkerPc where
  | none
  | exec
  | batchFunc
  | setReady
  | complete
  | dispose
  | unlink
  | free
  | done
  deriving DecidableEq, Repr

/-- `batch_task_dump` of a claimed task. -/
inductive DumpPc where
  | none
  | batchFunc
  | write
  | done
  deriving DecidableEq, Repr

/-- A batch: the threads that may be busy with it, the fields of its task, the
party that has it and what was done with it so far. -/
structure Batch where
  batcher : BatcherPc
  worker : WorkerPc
  dump : DumpPc
  state : TaskState
  hasItems : Bool
  hasEnvelope : Bool
  owner : Party
  uses : List Use
  deriving DecidableEq, Repr

def Batch.new : Batch := ⟨.idle, .none, .none, .pending, false, false, .batcher, []⟩

def Batch.use (b : Batch) (party : Party) (action : Action) : Batch :=
  { b with uses := b.uses ++ [⟨party, action, decide (b.owner = party)⟩] }

structure State where
  batch : Nat → Batch
  tasks : List Nat
  crashFlush : Bool

def State.start : State := ⟨fun _ => .new, [], false⟩

def State.set (s : State) (i : Nat) (b : Batch) : State :=
  { s with batch := fun j => if j = i then b else s.batch j }

/-- `batch_task_claim_dump` takes a task in one of these states. -/
def Batch.claimable (b : Batch) : Bool := b.state = .pending ∨ b.state = .ready

/-- The end of `process_batch_sync` and of `batch_task_complete`: to disk in a
crash, else to the transport unless uploads are to be skipped. -/
def disposal (crash skipUpload : Bool) : Action :=
  if crash then .write else if skipUpload then .free else .send

/-- `batch_task_claim_dump` on the fields of a task. -/
def Batch.claimDump (b : Batch) : Batch :=
  if b.state = .pending then
    { b with
      state := .dumped
      hasItems := false
      hasEnvelope := false
      owner := .dumper
      dump := .batchFunc }
  else { b with state := .dumped, hasEnvelope := false, owner := .dumper, dump := .write }

/-- The steps, named by what happens. -/
inductive Label where
  | begin (i : Nat) (crashSafe allocated : Bool)
  | link (i : Nat)
  | accept (i : Nat)
  | refuse (i : Nat)
  | unlinkRefused (i : Nat)
  | waited (i : Nat)
  | syncFunc (i : Nat)
  | syncDispose (i : Nat) (skipUpload : Bool)
  | exec (i : Nat)
  | workerFunc (i : Nat)
  | setReady (i : Nat)
  | complete (i : Nat)
  | workerDispose (i : Nat) (skipUpload : Bool)
  | unlink (i : Nat)
  | free (i : Nat)
  | crash
  | claimDump (i : Nat)
  | dumpFunc (i : Nat)
  | dumpWrite (i : Nat)

/-- The state after a step, if the step can be made. -/
def step (s : State) : Label → Option State
  -- process_batch, called by a flush
  | .begin i crashSafe allocated =>
    if (s.batch i).batcher = .idle then
      let pc := if crashSafe then .sync true else if allocated then .link else .waitAll
      some (s.set i { s.batch i with batcher := pc })
    else none
  | .link i =>
    if (s.batch i).batcher = .link then
      some { s.set i { s.batch i with
              batcher := .submit, state := .pending, hasItems := true, hasEnvelope := true } with
            tasks := i :: s.tasks }
    else none
  | .accept i =>
    if (s.batch i).batcher = .submit then
      let b := { s.batch i with batcher := .handedOver, worker := .exec }
      some (s.set i (if b.owner = .batcher then { b with owner := .worker } else b))
    else none
  | .refuse i =>
    if (s.batch i).batcher = .submit then some (s.set i { s.batch i with batcher := .refused })
    else none
  | .unlinkRefused i =>
    if (s.batch i).batcher = .refused then
      some { s.set i { s.batch i with batcher := .waitAll } with tasks := s.tasks.erase i }
    else none
  -- process_batch_sync_ordered and process_batch_sync
  | .waited i =>
    if (s.batch i).batcher = .waitAll ∧ s.tasks = [] then
      some (s.set i { s.batch i with batcher := .sync false })
    else none
  | .syncFunc i =>
    match (s.batch i).batcher with
    | .sync crashSafe =>
      some (s.set i { (s.batch i).use .batcher .batchFunc with batcher := .dispose crashSafe })
    | _ => none
  | .syncDispose i skipUpload =>
    match (s.batch i).batcher with
    | .dispose crashSafe =>
      some (s.set i { (s.batch i).use .batcher (disposal (crashSafe || s.crashFlush) skipUpload) with
        batcher := .done })
    | _ => none
  -- batch_task_exec
  | .exec i =>
    if (s.batch i).worker = .exec then
      if (s.batch i).state = .pending then
        some (s.set i { s.batch i with state := .running, worker := .batchFunc })
      else some (s.set i { s.batch i with worker := .complete })
    else none
  | .workerFunc i =>
    if (s.batch i).worker = .batchFunc then
      some (s.set i { (s.batch i).use .worker .batchFunc with
        hasItems := false, worker := .setReady })
    else none
  | .setReady i =>
    if (s.batch i).worker = .setReady then
      some (s.set i { s.batch i with state := .ready, worker := .complete })
    else none
  -- batch_task_complete and batch_task_free
  | .complete i =>
    if (s.batch i).worker = .complete then
      if (s.batch i).state = .dumped then some (s.set i { s.batch i with worker := .unlink })
      else some (s.set i { s.batch i with state := .completing, worker := .dispose })
    else none
  | .workerDispose i skipUpload =>
    if (s.batch i).worker = .dispose then
      some (s.set i { (s.batch i).use .worker (disposal s.crashFlush skipUpload) with
        hasEnvelope := false, worker := .unlink })
    else none
  | .unlink i =>
    if (s.batch i).worker = .unlink then
      some { s.set i { s.batch i with worker := .free } with tasks := s.tasks.erase i }
    else none
  | .free i =>
    if (s.batch i).worker = .free then
      let b := if (s.batch i).hasEnvelope then (s.batch i).use .worker .free else s.batch i
      some (s.set i { b with worker := .done })
    else none
  -- sentry__batcher_flush_crash_safe and batch_task_dump_pending_all
  | .crash => some { s with crashFlush := true }
  | .claimDump i =>
    if s.crashFlush ∧ s.tasks.find? (fun j => (s.batch j).claimable) = some i then
      some (s.set i (s.batch i).claimDump)
    else none
  | .dumpFunc i =>
    if (s.batch i).dump = .batchFunc then
      some (s.set i { (s.batch i).use .dumper .batchFunc with dump := .write })
    else none
  | .dumpWrite i =>
    if (s.batch i).dump = .write then
      some (s.set i { (s.batch i).use .dumper .write with dump := .done })
    else none

/-! ## What is asked of a batch -/

def Batch.funcs (b : Batch) : Nat := b.uses.countP (·.action = .batchFunc)

def Batch.disposals (b : Batch) : Nat := b.uses.countP (·.action ≠ .batchFunc)

/-- No thread is busy with the batch any more. -/
def Batch.finished (b : Batch) : Bool :=
  (b.batcher = .done ∨ b.batcher = .handedOver ∧ b.worker = .done) ∧
    (b.dump = .none ∨ b.dump = .done)

/-- The batch is serialized at most once, its envelope disposed of at most once,
and both are done when nobody is busy with it; and it was used only by the
party that had it. -/
def Batch.HandedOutOnce (b : Batch) : Prop :=
  b.funcs ≤ 1 ∧ b.disposals ≤ 1 ∧ (b.finished = true → b.funcs = 1 ∧ b.disposals = 1) ∧
    ∀ u ∈ b.uses, u.rightful = true

instance (b : Batch) : Decidable b.HandedOutOnce :=
  inferInstanceAs (Decidable (_ ∧ _ ∧ _ ∧ _))

/-! ## Runs in which the pool and a crash do not meet on a task -/

/-- The pool does not refuse a task that a crash has claimed, and a crash does
not claim one the pool has refused. -/
def Apart (s : State) : Label → Prop
  | .refuse i => (s.batch i).state ≠ .dumped
  | .claimDump i => (s.batch i).batcher ≠ .refused
  | _ => True

instance (s : State) : ∀ l, Decidable (Apart s l)
  | .refuse i => inferInstanceAs (Decidable ((s.batch i).state ≠ .dumped))
  | .claimDump i => inferInstanceAs (Decidable ((s.batch i).batcher ≠ .refused))
  | .begin .. | .link _ | .accept _ | .unlinkRefused _ | .waited _ | .syncFunc _
  | .syncDispose .. | .exec _ | .workerFunc _ | .setReady _ | .complete _ | .workerDispose ..
  | .unlink _ | .free _ | .crash | .dumpFunc _ | .dumpWrite _ => inferInstanceAs (Decidable True)

/-- Every run. -/
def Reachable : State → Prop :=
  Machine.Reachable (· = State.start) fun s t => ∃ l, step s l = some t

/-- The runs whose steps all keep pool and crash apart. -/
def ReachableApart : State → Prop :=
  Machine.Reachable (· = State.start) fun s t => ∃ l, Apart s l ∧ step s l = some t

end SentryNative.Batcher.Task
