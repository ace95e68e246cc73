import SentryNative.Pool.Pool

/-!
# Where every task is

The list from `first_task` on is a part that was started and a part that was not,
and `next_task` is the head of the second. A started task is done or in the hands
of one worker. At most one worker commits, and it has the task before the list.
-/

namespace SentryNative.Pool

open Linked

def Event.number : Event → Nat
  | .exec n | .complete n | .free n => n

/-- What was done with a task, in order. -/
def life (log : List Event) (n : Nat) : List Event := log.filter (·.number = n)

@[simp] theorem life_nil (n : Nat) : life [] n = [] := rfl

theorem life_append_self (log : List Event) (e : Event) :
    life (log ++ [e]) e.number = life log e.number ++ [e] := by simp [life]

theorem life_append_of_ne (log : List Event) {e : Event} {n : Nat} (h : e.number ≠ n) :
    life (log ++ [e]) n = life log n := by simp [life, h]

/-- The numbers of the calls of `complete_func`, in order. -/
def completions (log : List Event) : List Nat :=
  log.filterMap fun
    | .complete n => some n
    | _ => none

/-- What a worker does with a task. -/
def WorkerPc.job : WorkerPc → Option Job
  | .busy job => some job
  | _ => none

/-- The worker will go on by itself. -/
def WorkerPc.active : WorkerPc → Bool
  | .top | .woken | .busy _ => true
  | _ => false

/-- The task a worker executes. -/
def Job.executes : Job → Option (Nat × Nat)
  | .exec a n | .executed a n => some (a, n)
  | _ => none

/-- The number of the task a worker commits. -/
def Job.commits : Job → Option Nat
  | .completing _ n | .freeing _ n | .relock n => some n
  | _ => none

/-- The address of the task a worker commits, until it is freed. -/
def Job.keeps : Job → Option Nat
  | .completing a _ | .freeing a _ => some a
  | _ => none

/-- What was done so far with the task of a job. -/
def Job.lived : Job → List Event
  | .exec _ _ => []
  | .executed _ n => [.exec n]
  | .completing _ n | .freeing _ n => [.exec n, .complete n]
  | .relock n => [.exec n, .complete n, .free n]

def Job.number : Job → Nat
  | .exec _ n | .executed _ n | .completing _ n | .freeing _ n | .relock n => n

def State.jobs (s : State) (w : Nat) : Option Job := (s.workers w).job

/-- The list and the three pointers into it; `j` tasks of it were started. -/
structure Shape (mem : Nat → Task) (first last next : Option Nat) (submitted : Nat)
    (allocated : Nat → Bool) (q : List Nat) (j : Nat) : Prop where
  linked : Segment (fun a => (mem a).next) first q none
  last : last = q.getLast?
  nodup : q.Nodup
  length_le : q.length ≤ submitted
  numbers : q.map (fun a => (mem a).number) = List.range' (submitted - q.length) q.length
  j_le : j ≤ q.length
  next : next = (q.drop j).head?
  allocated : ∀ a ∈ q, allocated a = true

/-- Who executes which task. -/
structure Owners (mem : Nat → Task) (jobs : Nat → Option Job) (q : List Nat) (j : Nat) : Prop where
  task : ∀ w job a n, jobs w = some job → job.executes = some (a, n) →
    a ∈ q.take j ∧ (mem a).number = n ∧ (mem a).done = false
  one : ∀ w w' job job' a n n', jobs w = some job → jobs w' = some job' →
    job.executes = some (a, n) → job'.executes = some (a, n') → w = w'
  taken : ∀ a ∈ q.take j, (mem a).done = false → ∃ w job n, jobs w = some job ∧
    job.executes = some (a, n)
  queued : ∀ a ∈ q.drop j, (mem a).done = false

/-- Who commits, and the sums. -/
structure Commits (jobs : Nat → Option Job) (committing : Bool) (completed submitted pending : Nat)
    (allocated : Nat → Bool) (q : List Nat) : Prop where
  one : ∀ w w' job job' n n', jobs w = some job → jobs w' = some job' → job.commits = some n →
    job'.commits = some n' → w = w'
  flag : committing = true ↔ ∃ w job n, jobs w = some job ∧ job.commits = some n
  number : ∀ w job n, jobs w = some job → job.commits = some n → n = completed
  keeps : ∀ w job a, jobs w = some job → job.keeps = some a → allocated a = true ∧ a ∉ q
  count : completed + (if committing then 1 else 0) + q.length = submitted
  pending : pending = q.length + if committing then 1 else 0

/-- What was done with each task. -/
structure Lives (log : List Event) (mem : Nat → Task) (jobs : Nat → Option Job)
    (committing : Bool) (completed submitted : Nat) (q : List Nat) (j : Nat) : Prop where
  past : ∀ n < completed, life log n = [.exec n, .complete n, .free n]
  job : ∀ w job, jobs w = some job → life log job.number = job.lived
  done : ∀ a ∈ q, (mem a).done = true → life log (mem a).number = [.exec (mem a).number]
  queued : ∀ a ∈ q.drop j, life log (mem a).number = []
  future : ∀ n, submitted ≤ n → life log n = []
  order : completions log = List.range (completed + if committing then 1 else 0)

/-- The workers as a crew. -/
structure Crew (cfg : Config) (workers : Nat → WorkerPc) (running stopping : Bool) (pending : Nat)
    (next : Option Nat) : Prop where
  pending_le : pending ≤ cfg.maxPending
  exited : ∀ w, workers w = .exited → stopping = true ∧ pending = 0
  outside : ∀ w, cfg.threadCount ≤ w → workers w = .unstarted
  idle : running = false → ∀ w, workers w = .unstarted
  started : running = true → stopping = false → ∀ w < cfg.threadCount,
    workers w ≠ .unstarted ∧ workers w ≠ .exited
  awake : next ≠ none → ∃ w, (workers w).active = true

/-- All of it but that a done task is committed at once. -/
structure Inv₀ (cfg : Config) (s : State) (q : List Nat) (j : Nat) : Prop where
  shape : Shape s.mem s.firstTask s.lastTask s.nextTask s.submitted s.allocated q j
  owners : Owners s.mem s.jobs q j
  commits : Commits s.jobs s.committing s.completed s.submitted s.pending s.allocated q
  lives : Lives s.log s.mem s.jobs s.committing s.completed s.submitted q j
  crew : Crew cfg s.workers s.running s.stopping s.pending s.nextTask

structure Inv (cfg : Config) (s : State) (q : List Nat) (j : Nat) : Prop extends Inv₀ cfg s q j where
  ready : s.committing = false → ∀ a ∈ q.head?, (s.mem a).done = false

theorem inv_start (cfg : Config) : Inv cfg .start [] 0 where
  shape := ⟨rfl, rfl, List.nodup_nil, Nat.le_refl _, rfl, Nat.le_refl _, rfl, nofun⟩
  owners := ⟨nofun, nofun, nofun, nofun⟩
  commits := ⟨nofun, by simp [State.start, State.jobs, WorkerPc.job], nofun, nofun, rfl, rfl⟩
  lives := ⟨nofun, nofun, nofun, nofun, fun _ _ => rfl, rfl⟩
  crew := ⟨Nat.zero_le _, nofun, fun _ _ => rfl, fun _ _ => rfl, nofun, fun h => absurd rfl h⟩
  ready := nofun

/-! ## The numbers of the list -/

namespace Shape

variable {mem : Nat → Task} {first last next : Option Nat} {submitted : Nat} {allocated : Nat → Bool}
  {q : List Nat} {j : Nat}

theorem number_bounds (h : Shape mem first last next submitted allocated q j) {a : Nat} (ha : a ∈ q) :
    submitted - q.length ≤ (mem a).number ∧ (mem a).number < submitted := by
  have hm : (mem a).number ∈ q.map fun a => (mem a).number := List.mem_map_of_mem ha
  rw [h.numbers, List.mem_range'_1] at hm
  have := h.length_le
  omega

theorem number_inj (h : Shape mem first last next submitted allocated q j) {a b : Nat} (ha : a ∈ q)
    (hb : b ∈ q) (he : (mem a).number = (mem b).number) : a = b := by
  have hn : (q.map fun a => (mem a).number).Nodup := by
    rw [h.numbers]
    exact List.nodup_range'
  exact List.inj_on_of_nodup_map hn ha hb he

/-- Only the links and numbers of listed tasks matter. -/
theorem congr (h : Shape mem first last next submitted allocated q j) {mem' : Nat → Task}
    {allocated' : Nat → Bool} (hm : ∀ a ∈ q, (mem' a).next = (mem a).next ∧
      (mem' a).number = (mem a).number) (ha : ∀ a ∈ q, allocated' a = true) :
    Shape mem' first last next submitted allocated' q j := by
  refine { h with linked := ?_, numbers := ?_, allocated := ha }
  · exact h.linked.congr fun a ha => (hm a ha).1
  · rw [← h.numbers]
    exact List.map_congr_left fun a ha => (hm a ha).2

end Shape

end SentryNative.Pool
