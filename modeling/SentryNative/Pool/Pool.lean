import SentryNative.Lib.Linked
import SentryNative.Lib.Machine

/-!
# The thread pool

`sentry_sync.c`: tasks are cells of a memory, linked by `next`, and the address of
a freed task may be handed out again. A stretch of code under `lock` is one step,
and so are a run of `exec_func`, a run of `complete_func` and the release of a
task, which all happen without the lock. A task is known by the number of its
submission; what is done with it is logged.
-/

namespace SentryNative.Pool

/-- `sentry_threadpool_task_t`; the number stands for its functions and data. -/
structure Task where
  next : Option Nat
  done : Bool
  number : Nat
  deriving DecidableEq, Repr

/-- What a worker does with a task between two stretches under the lock, with
the number of that task. -/
inductive Job where
  | exec (task number : Nat)
  | executed (task number : Nat)
  /-- In `complete_func`, called by `threadpool_commit_ready`. -/
  | completing (task number : Nat)
  | freeing (task number : Nat)
  /-- The task is freed; the commit ends under the lock. -/
  | relock (number : Nat)
  deriving DecidableEq, Repr

/-- Where `threadpool_thread` is. -/
inductive WorkerPc where
  | unstarted
  | top
  /-- In `sentry__cond_wait` on `work_signal`. -/
  | waiting
  /-- Woken, and about to lock again. -/
  | woken
  | busy (job : Job)
  | exited
  deriving DecidableEq, Repr

inductive Event where
  | exec (number : Nat)
  | complete (number : Nat)
  | free (number : Nat)
  deriving DecidableEq, Repr

/-- `sentry_threadpool_s`, with the workers, the number of accepted and of
completed tasks and the log. -/
structure State where
  mem : Nat → Task
  allocated : Nat → Bool
  firstTask : Option Nat
  lastTask : Option Nat
  nextTask : Option Nat
  pending : Nat
  running : Bool
  stopping : Bool
  committing : Bool
  workers : Nat → WorkerPc
  submitted : Nat
  completed : Nat
  log : List Event

def State.start : State where
  mem := fun _ => ⟨none, false, 0⟩
  allocated := fun _ => false
  firstTask := none
  lastTask := none
  nextTask := none
  pending := 0
  running := false
  stopping := false
  committing := false
  workers := fun _ => .unstarted
  submitted := 0
  completed := 0
  log := []

/-- `thread_count` and `max_pending`; `sentry__threadpool_new` takes no zero. -/
structure Config where
  threadCount : Nat
  maxPending : Nat
  threadCount_pos : 0 < threadCount
  maxPending_pos : 0 < maxPending

namespace State

def setTask (s : State) (a : Nat) (t : Task) : State :=
  { s with mem := fun b => if b = a then t else s.mem b }

def setWorker (s : State) (w : Nat) (pc : WorkerPc) : State :=
  { s with workers := fun v => if v = w then pc else s.workers v }

/-! ## Signals -/

/-- `sentry__cond_wake_all` on `work_signal`. -/
def wakeAll (s : State) : State :=
  { s with workers := fun v => if s.workers v = .waiting then .woken else s.workers v }

/-- `sentry__cond_wake` on `work_signal`: one of the waiting workers, if any waits. -/
def wakeOne (cfg : Config) (s : State) : Option Nat → Option State
  | some v => if s.workers v = .waiting then some (s.setWorker v .woken) else none
  | none => if ∀ v < cfg.threadCount, s.workers v ≠ .waiting then some s else none

/-! ## Under the lock -/

/-- The end of `sentry__threadpool_submit`, on a pool that takes the task. -/
def link (s : State) (a : Nat) : State :=
  let s := { s.setTask a ⟨none, false, s.submitted⟩ with
    allocated := fun b => if b = a then true else s.allocated b
    submitted := s.submitted + 1 }
  let s := match s.lastTask with
    | some l => s.setTask l { s.mem l with next := some a }
    | none => { s with firstTask := some a }
  let s := { s with lastTask := some a }
  let s := if s.nextTask = none then { s with nextTask := some a } else s
  { s with pending := s.pending + 1 }

/-- The top of the loop of `threadpool_thread`, up to the next unlock. -/
def take (s : State) (w : Nat) : State :=
  match s.nextTask with
  | some a =>
    { s.setWorker w (.busy (.exec a (s.mem a).number)) with nextTask := (s.mem a).next }
  | none =>
    if s.stopping && s.pending = 0 then s.setWorker w .exited else s.setWorker w .waiting

/-- A round of the loop of `threadpool_commit_ready` up to the unlock: the task
that is taken off the list, if there is one. -/
def detach (s : State) (w a : Nat) : State :=
  let s := { s with firstTask := (s.mem a).next }
  let s := if s.firstTask = none then { s with lastTask := none } else s
  { s.setWorker w (.busy (.completing a (s.mem a).number)) with
    log := s.log ++ [.complete (s.mem a).number] }

/-- The first task, if it is done. -/
def ready (s : State) : Option Nat :=
  match s.firstTask with
  | some a => if (s.mem a).done then some a else none
  | none => none

/-- The loop of `threadpool_commit_ready`, and the rest of the round of
`threadpool_thread` when it is left. -/
def commitLoop (cfg : Config) (s : State) (w : Nat) (woke : Option Nat) : Option State :=
  match s.ready with
  | some a => some (s.detach w a)
  | none =>
    let s := { s with committing := false }
    let s := if s.pending = 0 then s.wakeAll else s
    (s.wakeOne cfg woke).map (·.setWorker w .top)

/-- From the end of `exec_func` to the next unlock. -/
def finish (cfg : Config) (s : State) (w a : Nat) (woke : Option Nat) : Option State :=
  let s := s.setTask a { s.mem a with done := true }
  if s.committing then (s.wakeOne cfg woke).map (·.setWorker w .top)
  else { s with committing := true }.commitLoop cfg w woke

end State

/-! ## Steps -/

inductive Label where
  | start (threads : Nat)
  | submit (task : Nat) (woke : Option Nat)
  | take (worker : Nat)
  | spurious (worker : Nat)
  | exec (worker : Nat)
  | finish (worker : Nat) (woke : Option Nat)
  | complete (worker : Nat)
  | free (worker : Nat)
  | relock (worker : Nat) (woke : Option Nat)
  | shutdown
  | joined

/-- The state after a step, if the step can be made. -/
def step (cfg : Config) (s : State) : Label → Option State
  -- sentry__threadpool_start: if a thread cannot be spawned, those before it are stopped
  | .start threads =>
    if !s.running && threads ≤ cfg.threadCount then
      some { s with
        running := true
        stopping := threads < cfg.threadCount
        workers := fun w => if w < threads then .top else .unstarted }
    else none
  -- sentry__threadpool_submit; a task that is refused is freed and changes nothing
  | .submit a woke =>
    if s.allocated a then none
    else if !s.running || s.stopping || cfg.maxPending ≤ s.pending then some s
    else (s.link a).wakeOne cfg woke
  | .take w =>
    match s.workers w with
    | .top | .woken => some (s.take w)
    | _ => none
  | .spurious w => if s.workers w = .waiting then some (s.setWorker w .woken) else none
  | .exec w =>
    match s.workers w with
    | .busy (.exec a n) => some { s.setWorker w (.busy (.executed a n)) with log := s.log ++ [.exec n] }
    | _ => none
  | .finish w woke =>
    match s.workers w with
    | .busy (.executed a _) => s.finish cfg w a woke
    | _ => none
  | .complete w =>
    match s.workers w with
    | .busy (.completing a n) => some (s.setWorker w (.busy (.freeing a n)))
    | _ => none
  | .free w =>
    match s.workers w with
    | .busy (.freeing a n) => some { s.setWorker w (.busy (.relock n)) with
        allocated := fun b => if b = a then false else s.allocated b
        log := s.log ++ [.free n] }
    | _ => none
  | .relock w woke =>
    match s.workers w with
    | .busy (.relock _) =>
      { s with pending := s.pending - 1, completed := s.completed + 1 }.commitLoop cfg w woke
    | _ => none
  -- sentry__threadpool_shutdown before and after it joins the threads
  | .shutdown =>
    if s.running && !s.stopping then some { s with stopping := true }.wakeAll else none
  | .joined =>
    if s.running && s.stopping && (List.range cfg.threadCount).all
        (fun w => s.workers w = .exited || s.workers w = .unstarted) then
      some { s with running := false, workers := fun _ => .unstarted }
    else none

def Reachable (cfg : Config) : State → Prop :=
  Machine.Reachable (· = State.start) fun s t => ∃ l, step cfg s l = some t

end SentryNative.Pool
