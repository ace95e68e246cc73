import SentryNative.Worker.Queue

/-!
# Who has a task

Every allocated task is on the list, in the hands of a thread that is about to
link it, or in the hands of the worker. The task that executes is the head of the
list for as long as it is on it.
-/

namespace SentryNative.Worker

open Linked

/-- The task whose reference the worker has. -/
def WorkerPc.holds : WorkerPc → Option Nat
  | .exec t _ | .release t _ => some t
  | _ => none

/-- The task and the submission the worker is busy with. -/
def WorkerPc.busy : WorkerPc → Option (Nat × Nat)
  | .exec t i | .release t i | .pop t i => some (t, i)
  | _ => none

/-- The worker has run the `exec_func` of its task. -/
def WorkerPc.hasRun : WorkerPc → Bool
  | .release .. | .pop .. => true
  | _ => false

namespace State

/-- The list after the executing task. -/
def rest (s : State) (q : List Nat) : List Nat := if s.currentTask = none then q else q.tail

/-- The references to a task: of the list or of the thread that links it, and of the worker. -/
def refs (s : State) (q : List Nat) (a : Nat) : Nat :=
  (if a ∈ q ∨ a ∈ s.waiting then 1 else 0) + (if s.worker.holds = some a then 1 else 0)

end State

/-- The part of the invariant that does not read the links. -/
structure Ledger (s : State) (q : List Nat) : Prop where
  nodup : q.Nodup
  waiting_nodup : s.waiting.Nodup
  waiting_fresh : ∀ a ∈ s.waiting, a ∉ q ∧ s.worker.holds ≠ some a
  allocated : ∀ a, s.allocated a = true ↔ a ∈ q ∨ a ∈ s.waiting ∨ s.worker.holds = some a
  refcount : ∀ a, s.allocated a = true → (s.mem a).refcount = s.refs q a
  numbers : (q.map fun a => (s.mem a).taskData).Nodup
  numbered : ∀ a ∈ q, (s.mem a).taskData < s.submitted
  holds : ∀ a i, s.worker.busy = some (a, i) → s.worker.holds = some a →
    (s.mem a).taskData = i
  busy : ∀ a i, s.worker.busy = some (a, i) →
    (s.currentTask = some a ∧ q.head? = some a ∧ (s.mem a).taskData = i) ∨
      (s.currentTask = none ∧ ∀ b ∈ q, (s.mem b).taskData ≠ i)
  current : s.worker.busy = none → s.currentTask = none
  busy_lt : ∀ a i, s.worker.busy = some (a, i) → i < s.submitted
  sorted : (s.rest q).Pairwise s.Before
  once : s.executed.Nodup
  executed_lt : ∀ i ∈ s.executed, i < s.submitted
  hasRun : ∀ a i, s.worker.busy = some (a, i) → (i ∈ s.executed ↔ s.worker.hasRun = true)
  unexecuted : ∀ a ∈ q, (s.mem a).taskData ∈ s.executed → s.currentTask = some a
  kept : ∀ i < s.submitted, i ∈ s.executed ∨ i ∈ s.dropped ∨ ∃ a ∈ q, (s.mem a).taskData = i
  popped : ∀ i ∈ s.popped, i ∈ s.executed

/-- The invariant, all but `last_task`, which `foreach_matching` sets at its end. -/
structure Inv (s : State) (q : List Nat) : Prop extends Ledger s q where
  linked : Segment s.next s.firstTask q none
  waiting_next : ∀ a ∈ s.waiting, (s.mem a).nextTask = none

theorem inv_start : Inv State.start [] where
  nodup := List.nodup_nil
  waiting_nodup := List.nodup_nil
  waiting_fresh := by simp [State.start]
  allocated := by simp [State.start, WorkerPc.holds]
  refcount := by simp [State.start]
  numbers := List.nodup_nil
  numbered := by simp
  holds := by simp [State.start, WorkerPc.busy]
  busy := by simp [State.start, WorkerPc.busy]
  current := by simp [State.start]
  busy_lt := by simp [State.start, WorkerPc.busy]
  sorted := by simp [State.rest]
  once := List.nodup_nil
  executed_lt := by simp [State.start]
  hasRun := by simp [State.start, WorkerPc.busy]
  unexecuted := by simp
  kept := by simp [State.start]
  popped := by simp [State.start]
  linked := rfl
  waiting_next := by simp [State.start]

namespace Ledger

variable {s : State} {q : List Nat}

/-- An executing task that is known to the queue is its head. -/
theorem current_head (h : Ledger s q) {c : Nat} (hc : s.currentTask = some c) :
    q.head? = some c ∧ ∃ i, s.worker.busy = some (c, i) ∧ (s.mem c).taskData = i := by
  cases hb : s.worker.busy with
  | none => simp [h.current hb] at hc
  | some p =>
    obtain ⟨a, i⟩ := p
    rcases h.busy a i hb with ⟨ha, hh, hi⟩ | ⟨hn, -⟩
    · rw [ha] at hc
      cases hc
      exact ⟨hh, i, rfl, hi⟩
    · simp [hn] at hc

theorem length_le (h : Ledger s q) : q.length ≤ s.submitted := by
  have hsub : (q.map fun a => (s.mem a).taskData) ⊆ List.range s.submitted := by
    intro i hi
    obtain ⟨a, ha, rfl⟩ := List.mem_map.mp hi
    exact List.mem_range.mpr (h.numbered a ha)
  simpa using (h.numbers.subperm hsub).length_le

theorem not_mem_of_free (h : Ledger s q) {a : Nat} (ha : s.allocated a = false) :
    a ∉ q ∧ a ∉ s.waiting ∧ s.worker.holds ≠ some a := by
  have hn : ¬ (a ∈ q ∨ a ∈ s.waiting ∨ s.worker.holds = some a) := by
    rw [← h.allocated a, ha]
    simp
  rw [not_or, not_or] at hn
  exact hn

theorem eq_of_taskData (h : Ledger s q) {a b : Nat} (ha : a ∈ q) (hb : b ∈ q)
    (e : (s.mem a).taskData = (s.mem b).taskData) : a = b :=
  List.inj_on_of_nodup_map h.numbers ha hb e

/-- The list without its executing head is in order. -/
theorem sorted_rest (h : Ledger s q) {r : List Nat} (hr : s.IsRest q r) : r.Pairwise s.Before := by
  have hs := h.sorted
  rcases hr with ⟨a, ⟨i, hi, hw⟩, rfl⟩ | ⟨hn, rfl⟩
  · have hb : s.worker.busy = some (a, i) := by
      rcases hw with hw | hw | hw <;> rw [hw] <;> rfl
    rcases h.busy a i hb with ⟨hc, -, -⟩ | ⟨-, hd⟩
    · simpa [State.rest, hc] using hs
    · exact absurd hi (hd a (by simp))
  · cases hc : s.currentTask with
    | none => simpa [State.rest, hc] using hs
    | some c =>
      obtain ⟨hh, i, hb, hi⟩ := h.current_head hc
      refine absurd ⟨i, hi, ?_⟩ (hn c hh)
      revert hb
      cases s.worker <;> simp [WorkerPc.busy]

end Ledger

theorem Inv.sound {s : State} {q : List Nat} (h : Inv s q) (hl : s.lastTask = q.getLast?) :
    s.Sound q where
  linked := h.linked
  last := hl
  sorted := fun _ hr => h.sorted_rest hr
  once := h.once
  kept := h.kept
  popped := h.popped

/-! ## Changes of the links only -/

/-- Two states that differ in their links only. -/
structure SameTasks (s t : State) : Prop where
  refcount : ∀ a, (t.mem a).refcount = (s.mem a).refcount
  executeAfter : ∀ a, (t.mem a).executeAfter = (s.mem a).executeAfter
  execFunc : ∀ a, (t.mem a).execFunc = (s.mem a).execFunc
  taskData : ∀ a, (t.mem a).taskData = (s.mem a).taskData
  allocated : t.allocated = s.allocated
  waiting : t.waiting = s.waiting
  currentTask : t.currentTask = s.currentTask
  worker : t.worker = s.worker
  submitted : t.submitted = s.submitted
  executed : t.executed = s.executed
  dropped : t.dropped = s.dropped
  popped : t.popped = s.popped

namespace SameTasks

variable {s t u : State}

theorem refl (s : State) : SameTasks s s := by constructor <;> intros <;> rfl

theorem trans (h : SameTasks s t) (h' : SameTasks t u) : SameTasks s u where
  refcount a := (h'.refcount a).trans (h.refcount a)
  executeAfter a := (h'.executeAfter a).trans (h.executeAfter a)
  execFunc a := (h'.execFunc a).trans (h.execFunc a)
  taskData a := (h'.taskData a).trans (h.taskData a)
  allocated := h'.allocated.trans h.allocated
  waiting := h'.waiting.trans h.waiting
  currentTask := h'.currentTask.trans h.currentTask
  worker := h'.worker.trans h.worker
  submitted := h'.submitted.trans h.submitted
  executed := h'.executed.trans h.executed
  dropped := h'.dropped.trans h.dropped
  popped := h'.popped.trans h.popped

theorem setNext (s : State) (a : Nat) (next : Option Nat) : SameTasks s (s.setNext a next) := by
  constructor <;> try rfl
  all_goals
    intro b
    simp only [State.setNext, State.set]
    split
    · rename_i hb
      rw [hb]
    · rfl

theorem ledger (e : SameTasks s t) {q : List Nat} (h : Ledger s q) : Ledger t q := by
  obtain ⟨hr, hx, -, hd, ha, hw, hc, hk, hs, he, hdr, hp⟩ := e
  have hb : t.Before = s.Before := by
    funext a b
    simp only [State.Before, hx, hd]
  constructor
  · exact h.nodup
  · simpa only [hw] using h.waiting_nodup
  · simpa only [hw, hk] using h.waiting_fresh
  · simpa only [ha, hw, hk] using h.allocated
  · simpa only [ha, hr, State.refs, hw, hk] using h.refcount
  · simpa only [hd] using h.numbers
  · simpa only [hd, hs] using h.numbered
  · simpa only [hk, hd] using h.holds
  · simpa only [hk, hc, hd] using h.busy
  · simpa only [hk, hc] using h.current
  · simpa only [hk, hs] using h.busy_lt
  · simpa only [State.rest, hc, hb] using h.sorted
  · simpa only [he] using h.once
  · simpa only [he, hs] using h.executed_lt
  · simpa only [hk, he] using h.hasRun
  · simpa only [hd, he, hc] using h.unexecuted
  · simpa only [hs, he, hdr, hd] using h.kept
  · simpa only [hp, he] using h.popped

end SameTasks

end SentryNative.Worker
