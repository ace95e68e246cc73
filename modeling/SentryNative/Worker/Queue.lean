import SentryNative.Lib.Linked
import SentryNative.Lib.Machine

/-!
# The queue of the background worker

Tasks are cells of a memory, linked by `next_task`; the allocator may hand out
the address of a freed task again. A critical section under `task_lock` is one
step, and so are the allocation before it, the run of `exec_func` and the
release of the worker's reference, which all happen without the lock.
-/

namespace SentryNative.Worker

/-- `sentry_bgworker_task_t`. The data of a task is the number of its
submission, counted in the order in which tasks are linked. -/
structure Task where
  nextTask : Option Nat
  refcount : Nat
  executeAfter : Nat
  execFunc : Nat
  taskData : Nat
  deriving DecidableEq, Repr

/-- `worker_thread`: between the lock sections it holds a task, by its address,
and knows which submission it was. -/
inductive WorkerPc where
  | idle
  | exec (task submission : Nat)
  | release (task submission : Nat)
  | pop (task submission : Nat)
  | stopped
  deriving DecidableEq, Repr

structure State where
  mem : Nat → Task
  allocated : Nat → Bool
  waiting : List Nat
  firstTask : Option Nat
  lastTask : Option Nat
  currentTask : Option Nat
  worker : WorkerPc
  running : Bool
  draining : Bool
  submitted : Nat
  executed : List Nat
  dropped : List Nat
  popped : List Nat

def State.start : State where
  mem := fun _ => ⟨none, 0, 0, 0, 0⟩
  allocated := fun _ => false
  waiting := []
  firstTask := none
  lastTask := none
  currentTask := none
  worker := .idle
  running := true
  draining := false
  submitted := 0
  executed := []
  dropped := []
  popped := []

namespace State

def set (s : State) (a : Nat) (t : Task) : State :=
  { s with mem := fun b => if b = a then t else s.mem b }

def setNext (s : State) (a : Nat) (next : Option Nat) : State :=
  s.set a { s.mem a with nextTask := next }

/-- `sentry__task_incref`. -/
def incref (s : State) (a : Nat) : State :=
  s.set a { s.mem a with refcount := (s.mem a).refcount + 1 }

/-- `sentry__task_decref`: the last reference frees the task. -/
def decref (s : State) (a : Nat) : State :=
  { s.set a { s.mem a with refcount := (s.mem a).refcount - 1 } with
    allocated := fun b => if b = a ∧ (s.mem a).refcount = 1 then false else s.allocated b }

/-- `sentry__bgworker_is_done`. -/
def isDone (s : State) (now : Nat) : Bool :=
  s.draining || ((match s.firstTask with
    | none => true
    | some t => now < (s.mem t).executeAfter) && !s.running)

/-! ## Submissions -/

/-- The walk to the first task that is due later than the new one. -/
def findSlot (s : State) (executeAfter : Nat) :
    Nat → (prev cur : Option Nat) → Option (Option Nat × Option Nat)
  | _, prev, none => some (prev, none)
  | 0, _, some _ => none
  | n + 1, prev, some cur =>
    if (s.mem cur).executeAfter ≤ executeAfter then
      findSlot s executeAfter n (some cur) (s.mem cur).nextTask
    else some (prev, some cur)

/-- Where the sorted insertion starts: past the task that is executing. -/
def slotStart (s : State) : Option Nat :=
  match s.currentTask with
  | some c => (s.mem c).nextTask
  | none => s.firstTask

/-- The end of the sorted insertion. -/
def insertAt (s : State) (task : Nat) (prev cur : Option Nat) : State :=
  let s := s.setNext task cur
  let s := match prev with
    | some p => s.setNext p (some task)
    | none => { s with firstTask := some task }
  if cur = none then { s with lastTask := some task } else s

/-- The critical section of `sentry__bgworker_submit_at`. -/
def submitAt (s : State) (task : Nat) : Option State :=
  match s.firstTask, s.lastTask with
  | none, _ => some { s with firstTask := some task, lastTask := some task }
  | some _, none => none
  | some _, some l =>
    if (s.mem l).executeAfter ≤ (s.mem task).executeAfter then
      some { s.setNext l (some task) with lastTask := some task }
    else
      (s.findSlot (s.mem task).executeAfter (s.submitted + 1) s.currentTask s.slotStart).map
        fun slot => s.insertAt task slot.1 slot.2

/-- A task gets its number when it is linked. -/
def number (s : State) (task : Nat) : State :=
  { s.set task { s.mem task with taskData := s.submitted } with
    waiting := s.waiting.erase task
    submitted := s.submitted + 1 }

/-! ## Dropping tasks -/

/-- Takes a task out of the list. -/
def unlink (s : State) (prev : Option Nat) (task : Nat) (next : Option Nat) : State :=
  let s := match prev with
    | some p => s.setNext p next
    | none => { s with firstTask := next }
  match s.currentTask with
  | none => s
  | some c =>
    if c = task then { s with currentTask := none }
    else if (s.mem c).nextTask = some task then s.setNext c next
    else s

/-- One task of `sentry__bgworker_foreach_matching` is dropped. -/
def drop (s : State) (prev : Option Nat) (task : Nat) : State :=
  let t := s.unlink prev task (s.mem task).nextTask
  { t with dropped := t.dropped ++ [(t.mem task).taskData] }.decref task

/-- The loop of `sentry__bgworker_foreach_matching`. -/
def foreachLoop (dropTask : Task → Bool) :
    Nat → State → (prev task : Option Nat) → Option State
  | _, s, prev, none => some { s with lastTask := prev }
  | 0, _, _, some _ => none
  | n + 1, s, prev, some task =>
    if dropTask (s.mem task) then
      foreachLoop dropTask n (s.drop prev task) prev (s.mem task).nextTask
    else foreachLoop dropTask n s (some task) (s.mem task).nextTask

/-- `sentry__bgworker_foreach_matching`. -/
def foreachMatching (s : State) (execFunc : Nat) (callback : Option (Nat → Bool)) :
    Option State :=
  foreachLoop (fun t => t.execFunc == execFunc && callback.all (· t.taskData))
    (s.submitted + 1) s none s.firstTask

end State

/-! ## Steps -/

inductive Label where
  | alloc (task executeAfter execFunc : Nat)
  | link (task : Nat)
  | take (checked now : Nat)
  | exec
  | release
  | pop
  | foreachMatching (execFunc : Nat) (callback : Option (Nat → Bool))
  | shutdown
  | drain
  | stop (now : Nat)

/-- The state after a step, if the step can be made. -/
def step (s : State) : Label → Option State
  -- sentry__bgworker_submit_at before the lock, on any thread
  | .alloc a executeAfter execFunc =>
    if s.allocated a then none
    else some { s.set a ⟨none, 1, executeAfter, execFunc, 0⟩ with
      allocated := fun b => if b = a then true else s.allocated b
      waiting := a :: s.waiting }
  | .link a => if a ∈ s.waiting then (s.number a).submitAt a else none
  -- worker_thread: the head is taken with the lock held
  | .take checked now =>
    match s.worker, s.firstTask with
    | .idle, some t =>
      if s.isDone checked ∨ now < (s.mem t).executeAfter then none
      else some { s.incref t with
        currentTask := some t
        worker := .exec t (s.mem t).taskData }
    | _, _ => none
  | .exec =>
    match s.worker with
    | .exec t i => some { s with
        executed := s.executed ++ [(s.mem t).taskData]
        worker := .release t i }
    | _ => none
  | .release =>
    match s.worker with
    | .release t i => some { s.decref t with worker := .pop t i }
    | _ => none
  | .pop =>
    match s.worker with
    | .pop t _ =>
      let s := { s with currentTask := none, worker := .idle }
      if s.firstTask = some t then
        let s := { s with
          firstTask := (s.mem t).nextTask
          lastTask := if s.lastTask = some t then none else s.lastTask
          popped := s.popped ++ [(s.mem t).taskData] }
        some (s.decref t)
      else some s
    | _ => none
  | .foreachMatching execFunc callback => s.foreachMatching execFunc callback
  | .shutdown => some { s with running := false }
  | .drain => some { s with draining := true }
  | .stop now => if s.worker = .idle ∧ s.isDone now then some { s with worker := .stopped } else none

def Reachable : State → Prop :=
  Machine.Reachable (· = State.start) fun s t => ∃ l, step s l = some t

/-! ## What is asked of the queue -/

namespace State

/-- The links of the tasks. -/
def next (s : State) (a : Nat) : Option Nat := (s.mem a).nextTask

/-- `a` is the task that is executing, and not a later one at its address. -/
def Executing (s : State) (a : Nat) : Prop :=
  ∃ i, (s.mem a).taskData = i ∧
    (s.worker = .exec a i ∨ s.worker = .release a i ∨ s.worker = .pop a i)

/-- Due earlier, or at the same time and submitted earlier. -/
def Before (s : State) (a b : Nat) : Prop :=
  (s.mem a).executeAfter < (s.mem b).executeAfter ∨
    (s.mem a).executeAfter = (s.mem b).executeAfter ∧
      (s.mem a).taskData < (s.mem b).taskData

/-- The list after its executing head. -/
def IsRest (s : State) (q r : List Nat) : Prop :=
  (∃ a, s.Executing a ∧ q = a :: r) ∨ (∀ a ∈ q.head?, ¬ s.Executing a) ∧ r = q

/-- The queue is in order and no task is lost, popped unexecuted or run twice. -/
structure Sound (s : State) (q : List Nat) : Prop where
  linked : Linked.Segment s.next s.firstTask q none
  last : s.lastTask = q.getLast?
  sorted : ∀ r, s.IsRest q r → r.Pairwise s.Before
  once : s.executed.Nodup
  kept : ∀ i < s.submitted, i ∈ s.executed ∨ i ∈ s.dropped ∨ ∃ a ∈ q, (s.mem a).taskData = i
  popped : ∀ i ∈ s.popped, i ∈ s.executed

end State

/-- When the worker locks again, the head of the queue is not a later submission
that got the address of the task the worker has released. -/
def NotReused (s : State) : Label → Prop
  | .pop => ∀ a i, s.worker = .pop a i → s.firstTask = some a → (s.mem a).taskData = i
  | _ => True

/-- The runs whose steps all meet a head that is not reused. -/
def ReachableNotReused : State → Prop :=
  Machine.Reachable (· = State.start) fun s t => ∃ l, NotReused s l ∧ step s l = some t

end SentryNative.Worker
