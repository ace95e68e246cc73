import SentryNative.Worker.QueueRuns

/-!
# Flushing the background worker

`sentry__bgworker_flush` next to the steps of the queue. Any number of threads flush: each looks
through the queue for the last task that is due within its timeout, submits a sentinel for that time
and waits until the sentinel has run. A flush that finds the worker not running returns at once and
is set apart.

* `Flushing.step`: what every step keeps;
* `flush_of_not_reused`: a flush that returns 0 has flushed.
-/

namespace SentryNative.Worker

open Linked

inductive FlushPc where
  | idle
  | refused
  | started
  | scanned (executeAfter : Nat)
  | built (task executeAfter : Nat)
  | waiting (sentinel : Nat)
  | returned (code : Nat)
  deriving DecidableEq, Repr

/-- A thread in `sentry__bgworker_flush`, with the submissions that it owes: those that were queued or
executing when it took the lock, and due. -/
structure Flush where
  pc : FlushPc
  owed : List Nat
  deriving DecidableEq, Repr

structure FlushState where
  base : State
  flush : Nat → Flush

def FlushState.start : FlushState where
  base := .start
  flush := fun _ => ⟨.idle, []⟩

/-- `sentry__flush_task`, as an `exec_func`. -/
def flushTask : Nat := 0

/-- `add_saturate` -/
def addSaturate (a b : Nat) : Nat := min (a + b) (2 ^ 64 - 1)

namespace State

/-- The loop of `sentry__bgworker_flush` over the tasks that are due. -/
def scanLoop (s : State) (deadline : Nat) : Nat → Option Nat → Nat → Option Nat
  | _, none, executeAfter => some executeAfter
  | 0, some _, _ => none
  | n + 1, some t, executeAfter =>
    if (s.mem t).executeAfter ≤ deadline then
      scanLoop s deadline n (s.mem t).nextTask (max executeAfter (s.mem t).executeAfter)
    else some executeAfter

/-- The tasks from an address on. -/
def tasksFrom (s : State) : Nat → Option Nat → List Nat
  | 0, _ => []
  | _, none => []
  | n + 1, some t => t :: s.tasksFrom n (s.mem t).nextTask

/-- The submissions that are queued and due, and the one that is executing. -/
def dueBy (s : State) (deadline : Nat) : List Nat :=
  ((s.tasksFrom (s.submitted + 1) s.firstTask).filter fun t => (s.mem t).executeAfter ≤ deadline).map
      (fun t => (s.mem t).taskData) ++
    match s.worker with
    | .exec _ i => [i]
    | _ => []

end State

inductive FlushLabel where
  | queue (l : Label)
  | begin (thread : Nat)
  | scan (thread before timeout : Nat)
  | build (thread task : Nat)
  | finish (thread : Nat)

/-- Linking the sentinel of a flush gives it its number. -/
def Flush.afterStep (l : Label) (submitted : Nat) (f : Flush) : Flush :=
  match l, f.pc with
  | .link a, .built b _ => if a = b then { f with pc := .waiting submitted } else f
  | _, _ => f

def FlushState.setFlush (s : FlushState) (thread : Nat) (f : Flush) : FlushState :=
  { s with flush := fun i => if i = thread then f else s.flush i }

def flushStep (s : FlushState) : FlushLabel → Option FlushState
  | .queue l => (step s.base l).map fun t => ⟨t, fun i => (s.flush i).afterStep l s.base.submitted⟩
  | .begin thread =>
    match (s.flush thread).pc with
    | .idle | .refused | .returned _ =>
      some (s.setFlush thread ⟨if s.base.running then .started else .refused, []⟩)
    | _ => none
  | .scan thread before timeout =>
    match (s.flush thread).pc with
    | .started =>
      (s.base.scanLoop (addSaturate before timeout) (s.base.submitted + 1) s.base.slotStart before).map
        fun executeAfter => s.setFlush thread ⟨.scanned executeAfter, s.base.dueBy (addSaturate before timeout)⟩
    | _ => none
  -- the sentinel is allocated before the lock is taken again
  | .build thread a =>
    match (s.flush thread).pc with
    | .scanned executeAfter =>
      (step s.base (.alloc a executeAfter flushTask)).map fun t =>
        FlushState.setFlush ⟨t, s.flush⟩ thread ⟨.built a executeAfter, (s.flush thread).owed⟩
    | _ => none
  -- `was_flushed` is set when the sentinel has run; until then only the timeout ends the wait
  | .finish thread =>
    match (s.flush thread).pc with
    | .scanned _ => some (s.setFlush thread ⟨.returned 1, (s.flush thread).owed⟩)
    | .waiting sentinel =>
      some (s.setFlush thread ⟨.returned (if sentinel ∈ s.base.executed then 0 else 1), (s.flush thread).owed⟩)
    | _ => none

/-- The condition on a step of a run with flushes. -/
def FlushNotReused (s : FlushState) : FlushLabel → Prop
  | .queue l => NotReused s.base l
  | _ => True

def FlushReachable : FlushState → Prop :=
  Machine.Reachable (· = FlushState.start) fun s t => ∃ l, flushStep s l = some t

def FlushReachableNotReused : FlushState → Prop :=
  Machine.Reachable (· = FlushState.start) fun s t => ∃ l, FlushNotReused s l ∧ flushStep s l = some t

/-- A flush that has returned 0 has flushed. -/
def Flushed (s : FlushState) : Prop :=
  ∀ thread, (s.flush thread).pc = .returned 0 →
    ∀ i ∈ (s.flush thread).owed, i ∈ s.base.executed ∨ i ∈ s.base.dropped

variable {s t : State} {q : List Nat}

/-! ## What a step of the queue keeps -/

/-- A step that neither builds nor links a task. -/
structure Frame (s t : State) : Prop where
  executeAfter : ∀ a, (t.mem a).executeAfter = (s.mem a).executeAfter
  taskData : ∀ a, (t.mem a).taskData = (s.mem a).taskData
  allocated : ∀ a, t.allocated a = true → s.allocated a = true
  waiting : t.waiting = s.waiting
  submitted : t.submitted = s.submitted
  dropped : ∀ i ∈ s.dropped, i ∈ t.dropped

theorem Frame.refl (s : State) : Frame s s := by
  constructor <;> intros <;> first | rfl | assumption

theorem Frame.trans {u : State} (h : Frame s t) (h' : Frame t u) : Frame s u where
  executeAfter a := (h'.executeAfter a).trans (h.executeAfter a)
  taskData a := (h'.taskData a).trans (h.taskData a)
  allocated a ha := h.allocated a (h'.allocated a ha)
  waiting := h'.waiting.trans h.waiting
  submitted := h'.submitted.trans h.submitted
  dropped i hi := h'.dropped i (h.dropped i hi)

theorem SameTasks.frame (h : SameTasks s t) : Frame s t where
  executeAfter := h.executeAfter
  taskData := h.taskData
  allocated a ha := by rwa [h.allocated] at ha
  waiting := h.waiting
  submitted := h.submitted
  dropped i hi := by rwa [h.dropped]

theorem frame_decref (s : State) (a : Nat) : Frame s (s.decref a) where
  executeAfter := decref_executeAfter a
  taskData := decref_taskData a
  allocated b hb := by
    simp only [State.decref] at hb
    split at hb
    · cases hb
    · exact hb
  waiting := rfl
  submitted := rfl
  dropped _ hi := hi

theorem unlink_frame (s : State) (prev : Option Nat) (task : Nat) (next : Option Nat) :
    Frame s (s.unlink prev task next) ∧ (s.unlink prev task next).worker = s.worker ∧
      (s.unlink prev task next).executed = s.executed := by
  have hbypass := bypass_sameTasks s prev next
  rw [unlink_eq_letGo, State.letGo]
  split
  · exact ⟨hbypass.frame, hbypass.worker, hbypass.executed⟩
  · split
    · refine ⟨hbypass.frame.trans ?_, hbypass.worker, hbypass.executed⟩
      constructor <;> intros <;> first | rfl | assumption
    · split
      · have hset := SameTasks.setNext (s.bypass prev next) (by assumption) next
        exact ⟨hbypass.frame.trans hset.frame, hset.worker.trans hbypass.worker, hset.executed.trans hbypass.executed⟩
      · exact ⟨hbypass.frame, hbypass.worker, hbypass.executed⟩

theorem foreachLoop_frame {dropTask : Task → Bool} {n : Nat} {prev task : Option Nat}
    (h : State.foreachLoop dropTask n s prev task = some t) :
    Frame s t ∧ t.worker = s.worker ∧ t.executed = s.executed := by
  induction n generalizing s prev task with
  | zero =>
    cases task with
    | none =>
      cases h
      exact ⟨by constructor <;> intros <;> first | rfl | assumption, rfl, rfl⟩
    | some a => cases h
  | succ n ih =>
    cases task with
    | none =>
      cases h
      exact ⟨by constructor <;> intros <;> first | rfl | assumption, rfl, rfl⟩
    | some a =>
      rw [State.foreachLoop] at h
      split at h
      · obtain ⟨hrest, hworker, hexecuted⟩ := ih h
        obtain ⟨hun, hunworker, hunexecuted⟩ := unlink_frame s prev a (s.mem a).nextTask
        refine ⟨hun.trans (Frame.trans ?_ ((frame_decref _ a).trans hrest)), ?_, ?_⟩
        · constructor <;> intros <;> first | rfl | assumption | (simp; tauto)
        · exact hworker.trans hunworker
        · exact hexecuted.trans hunexecuted
      · exact ih h

theorem submitAt_sameTasks {a : Nat} (h : s.submitAt a = some t) : SameTasks s t := by
  have hends : ∀ (u : State) (x y : Option Nat), SameTasks u { u with firstTask := x, lastTask := y } := by
    intro u x y
    constructor <;> intros <;> rfl
  unfold State.submitAt at h
  split at h
  · cases h
    exact hends s _ _
  · cases h
  · next l _ _ =>
    split at h
    · cases h
      exact (SameTasks.setNext s l (some a)).trans (hends _ _ _)
    · obtain ⟨slot, -, rfl⟩ := Option.map_eq_some_iff.mp h
      exact insertAt_sameTasks s a slot.1 slot.2

/-- The time of a submission, which outlives its task. -/
def KeepsDue (s : State) (due : Nat → Nat) : Prop :=
  ∀ a, s.allocated a = true → a ∉ s.waiting → (s.mem a).executeAfter = due (s.mem a).taskData

theorem Frame.keepsDue (h : Frame s t) {due : Nat → Nat} (hd : KeepsDue s due) : KeepsDue t due := by
  intro a ha hw
  rw [h.waiting] at hw
  rw [h.executeAfter, h.taskData]
  exact hd a (h.allocated a ha) hw

/-- The steps that neither build nor link a task. -/
def Label.frames : Label → Bool
  | .alloc .. | .link _ => false
  | _ => true

theorem step_frame {l : Label} (hl : l.frames = true) (h : step s l = some t) : Frame s t := by
  cases l with
  | alloc a k f => cases hl
  | link a => cases hl
  | take checked now =>
    simp only [step] at h
    split at h
    · split at h
      · cases h
      · cases h
        constructor <;> intros <;> first | rfl | assumption | exact incref_executeAfter _ _ | exact incref_taskData _ _
    · cases h
  | exec =>
    simp only [step] at h
    split at h
    · cases h
      constructor <;> intros <;> first | rfl | assumption
    · cases h
  | release =>
    simp only [step] at h
    split at h
    · next a _ _ =>
      cases h
      refine (frame_decref s a).trans ?_
      constructor <;> intros <;> first | rfl | assumption
    · cases h
  | pop =>
    simp only [step] at h
    split at h
    · next a _ _ =>
      split at h
      · cases h
        refine Frame.trans ?_ (frame_decref _ a)
        constructor <;> intros <;> first | rfl | assumption
      · cases h
        constructor <;> intros <;> first | rfl | assumption
    · cases h
  | foreachMatching execFunc callback => exact (foreachLoop_frame h).1
  | shutdown =>
    cases h
    constructor <;> intros <;> first | rfl | assumption
  | drain =>
    cases h
    constructor <;> intros <;> first | rfl | assumption
  | stop now =>
    simp only [step] at h
    split at h
    · cases h
      constructor <;> intros <;> first | rfl | assumption
    · cases h

/-! ## What a flush relies on -/

/-- A submission that is due at a time, or is executing or has been executed. -/
def Ahead (s : State) (due : Nat → Nat) (executeAfter i : Nat) : Prop :=
  due i ≤ executeAfter ∨ i ∈ s.executed ∨ ∃ a, s.worker = .exec a i

/-- A sentinel that is executing or has been executed leaves nothing that its flush owes. -/
structure SentinelOk (s : State) (due : Nat → Nat) (sentinel : Nat) (owed : List Nat) : Prop where
  submitted : sentinel < s.submitted
  before : ∀ i ∈ owed, i < sentinel
  ahead : ∀ i ∈ owed, Ahead s due (due sentinel) i
  done : (sentinel ∈ s.executed ∨ ∃ a, s.worker.busy = some (a, sentinel)) →
    ∀ i ∈ owed, i ∈ s.executed ∨ i ∈ s.dropped

def Flush.Ok (s : State) (due : Nat → Nat) (f : Flush) : Prop :=
  match f.pc with
  | .scanned executeAfter => ∀ i ∈ f.owed, i < s.submitted ∧ Ahead s due executeAfter i
  | .built a executeAfter => a ∈ s.waiting ∧ (s.mem a).executeAfter = executeAfter ∧
      ∀ i ∈ f.owed, i < s.submitted ∧ Ahead s due executeAfter i
  | .waiting sentinel => SentinelOk s due sentinel f.owed
  | .returned 0 => ∀ i ∈ f.owed, i ∈ s.executed ∨ i ∈ s.dropped
  | _ => True

structure Flushing (s : FlushState) : Prop where
  queued : Queued s.base
  ok : ∃ due, KeepsDue s.base due ∧ ∀ thread, (s.flush thread).Ok s.base due

/-- What a step does to the executions: none is forgotten, and what was executing is executed or goes on. -/
structure Executes (s t : State) : Prop where
  executed : ∀ i ∈ s.executed, i ∈ t.executed
  exec : ∀ a i, s.worker = .exec a i → i ∈ t.executed ∨ t.worker = .exec a i
  new : ∀ i ∈ t.executed, i ∈ s.executed ∨ ∃ a, s.worker.busy = some (a, i)

theorem Executes.of_eq (h : t.worker = s.worker) (h' : t.executed = s.executed) : Executes s t where
  executed i hi := by rwa [h']
  exec a i hw := Or.inr (h.trans hw)
  new i hi := by
    rw [h'] at hi
    exact Or.inl hi

theorem Executes.ahead (h : Executes s t) {due : Nat → Nat} {k i : Nat} (ha : Ahead s due k i) : Ahead t due k i := by
  obtain hd | he | ⟨a, hw⟩ := ha
  · exact Or.inl hd
  · exact Or.inr (Or.inl (h.executed i he))
  · obtain he | hw := h.exec a i hw
    · exact Or.inr (Or.inl he)
    · exact Or.inr (Or.inr ⟨a, hw⟩)

theorem step_executes (hq : Ledger s q) {l : Label} (h : step s l = some t) : Executes s t := by
  cases l with
  | alloc a k f =>
    simp only [step] at h
    split at h
    · cases h
    · cases h
      exact .of_eq rfl rfl
  | link a =>
    simp only [step] at h
    split at h
    · have hsame := submitAt_sameTasks h
      exact .of_eq hsame.worker hsame.executed
    · cases h
  | take checked now =>
    simp only [step] at h
    split at h
    · next hw _ =>
      split at h
      · cases h
      · cases h
        exact ⟨fun _ hi => hi, fun a i hexec => (by rw [hw] at hexec; cases hexec), fun _ hi => Or.inl hi⟩
    · cases h
  | exec =>
    simp only [step] at h
    split at h
    · next a i hw =>
      cases h
      have hbusy : s.worker.busy = some (a, i) := by rw [hw]; rfl
      have hi : (s.mem a).taskData = i := hq.holds a i hbusy (by rw [hw]; rfl)
      refine ⟨fun _ hj => List.mem_append_left _ hj, ?_, ?_⟩
      · intro a' i' hexec
        rw [hw] at hexec
        cases hexec
        exact Or.inl (List.mem_append_right _ (by simp [hi]))
      · intro j hj
        obtain hj | hj := List.mem_append.mp hj
        · exact Or.inl hj
        · rw [List.mem_singleton.mp hj, hi]
          exact Or.inr ⟨a, hbusy⟩
    · cases h
  | release =>
    simp only [step] at h
    split at h
    · next hw =>
      cases h
      exact ⟨fun _ hi => hi, fun a i hexec => (by rw [hw] at hexec; cases hexec), fun _ hi => Or.inl hi⟩
    · cases h
  | pop =>
    simp only [step] at h
    split at h
    · next hw =>
      have hno : ∀ a i, s.worker ≠ .exec a i := fun a i hexec => by rw [hw] at hexec; cases hexec
      split at h
      · cases h
        exact ⟨fun _ hi => hi, fun a i hexec => absurd hexec (hno a i), fun _ hi => Or.inl hi⟩
      · cases h
        exact ⟨fun _ hi => hi, fun a i hexec => absurd hexec (hno a i), fun _ hi => Or.inl hi⟩
    · cases h
  | foreachMatching execFunc callback =>
    obtain ⟨-, hworker, hexecuted⟩ := foreachLoop_frame h
    exact .of_eq hworker hexecuted
  | shutdown =>
    cases h
    exact .of_eq rfl rfl
  | drain =>
    cases h
    exact .of_eq rfl rfl
  | stop now =>
    simp only [step] at h
    split at h
    · next hw =>
      cases h
      exact ⟨fun _ hi => hi, fun a i hexec => (by rw [hw.1] at hexec; cases hexec), fun _ hi => Or.inl hi⟩
    · cases h

/-- A step other than taking a task makes the worker busy with nothing new. -/
theorem step_busy {l : Label} (h : step s l = some t) (hl : ∀ checked now, l ≠ .take checked now) {a i : Nat}
    (hb : t.worker.busy = some (a, i)) : s.worker.busy = some (a, i) := by
  cases l with
  | alloc b k f =>
    simp only [step] at h
    split at h
    · cases h
    · cases h
      exact hb
  | link b =>
    simp only [step] at h
    split at h
    · rw [(submitAt_sameTasks h).worker] at hb
      exact hb
    · cases h
  | take checked now => exact absurd rfl (hl checked now)
  | exec =>
    simp only [step] at h
    split at h
    · next hw =>
      cases h
      rw [hw]
      exact hb
    · cases h
  | release =>
    simp only [step] at h
    split at h
    · next hw =>
      cases h
      rw [hw]
      exact hb
    · cases h
  | pop =>
    simp only [step] at h
    split at h
    · split at h <;> cases h <;> cases hb
    · cases h
  | foreachMatching execFunc callback =>
    rw [(foreachLoop_frame h).2.1] at hb
    exact hb
  | shutdown =>
    cases h
    exact hb
  | drain =>
    cases h
    exact hb
  | stop now =>
    simp only [step] at h
    split at h
    · cases h
      cases hb
    · cases h

/-- When the sentinel is taken, all that was due before it has left the queue. -/
theorem take_done (hq : Inv s q) {due : Nat → Nat} (hd : KeepsDue s due) {n : Nat} {owed : List Nat}
    (h : SentinelOk s due n owed) (hw : s.worker = .idle) {a : Nat} (ha : s.firstTask = some a)
    (hn : (s.mem a).taskData = n) : ∀ i ∈ owed, i ∈ s.executed ∨ i ∈ s.dropped := by
  have hnone : s.currentTask = none := hq.current (by rw [hw]; rfl)
  have hsorted := hq.sorted
  rw [State.rest, if_pos hnone] at hsorted
  have hhead : q.head? = some a := hq.linked.start_eq ▸ ha
  obtain ⟨r, rfl⟩ := List.head?_eq_some_iff.mp hhead
  have hdue : ∀ b ∈ a :: r, (s.mem b).executeAfter = due (s.mem b).taskData := by
    intro b hb
    exact hd b ((hq.allocated b).mpr (Or.inl hb)) fun hwait => (hq.waiting_fresh b hwait).1 hb
  intro i hi
  have hlt := h.before i hi
  obtain hexec | hdrop | ⟨b, hb, hbi⟩ := hq.kept i (Nat.lt_trans hlt h.submitted)
  · exact Or.inl hexec
  · exact Or.inr hdrop
  · obtain hle | hexec | ⟨c, hexec⟩ := h.ahead i hi
    · -- a task behind the sentinel is due later, or at the same time and submitted later
      obtain rfl | hr := List.mem_cons.mp hb
      · omega
      · have hbefore := (List.pairwise_cons.mp hsorted).1 b hr
        rw [State.Before, hdue a List.mem_cons_self, hdue b hb, hn, hbi] at hbefore
        omega
    · exact Or.inl hexec
    · rw [hw] at hexec
      cases hexec

theorem SentinelOk.step {due due' : Nat → Nat} {n : Nat} {owed : List Nat} (h : SentinelOk s due n owed)
    (he : Executes s t) (hdrop : ∀ i ∈ s.dropped, i ∈ t.dropped) (hsub : s.submitted ≤ t.submitted)
    (hdue : ∀ i < s.submitted, due' i = due i)
    (hbusy : ∀ a, t.worker.busy = some (a, n) →
      (∃ b, s.worker.busy = some (b, n)) ∨ ∀ i ∈ owed, i ∈ s.executed ∨ i ∈ s.dropped) :
    SentinelOk t due' n owed where
  submitted := Nat.lt_of_lt_of_le h.submitted hsub
  before := h.before
  ahead i hi := by
    have hlt := Nat.lt_trans (h.before i hi) h.submitted
    have hahead := he.ahead (h.ahead i hi)
    rwa [Ahead, hdue n h.submitted, hdue i hlt]
  done hpremise i hi := by
    have hdone : ∀ i ∈ owed, i ∈ s.executed ∨ i ∈ s.dropped := by
      obtain hexec | ⟨a, hb⟩ := hpremise
      · obtain hexec | hb := he.new n hexec
        · exact h.done (Or.inl hexec)
        · exact h.done (Or.inr hb)
      · obtain hb | hdone := hbusy a hb
        · exact h.done (Or.inr hb)
        · exact hdone
    obtain hexec | hd := hdone i hi
    · exact Or.inl (he.executed i hexec)
    · exact Or.inr (hdrop i hd)

/-- What a step of the queue keeps of a flush. -/
theorem Flush.Ok.step {due due' : Nat → Nat} {f : Flush} (h : f.Ok s due) (he : Executes s t)
    (hdrop : ∀ i ∈ s.dropped, i ∈ t.dropped) (hsub : s.submitted ≤ t.submitted)
    (hdue : ∀ i < s.submitted, due' i = due i)
    (hwait : ∀ a k, f.pc = .built a k → a ∈ t.waiting ∧ (t.mem a).executeAfter = (s.mem a).executeAfter)
    (hbusy : ∀ n, f.pc = .waiting n → ∀ a, t.worker.busy = some (a, n) →
      (∃ b, s.worker.busy = some (b, n)) ∨ ∀ i ∈ f.owed, i ∈ s.executed ∨ i ∈ s.dropped) : f.Ok t due' := by
  have hahead : ∀ k i, i < s.submitted ∧ Ahead s due k i → i < t.submitted ∧ Ahead t due' k i := by
    rintro k i ⟨hlt, ha⟩
    have ha' := he.ahead ha
    refine ⟨Nat.lt_of_lt_of_le hlt hsub, ?_⟩
    rwa [Ahead, hdue i hlt]
  obtain ⟨pc, owed⟩ := f
  cases pc with
  | idle | refused | started => trivial
  | scanned k => exact fun i hi => hahead k i (h i hi)
  | built a k =>
    obtain ⟨ha, hk⟩ := hwait a k rfl
    exact ⟨ha, hk.trans h.2.1, fun i hi => hahead k i (h.2.2 i hi)⟩
  | waiting n => exact SentinelOk.step h he hdrop hsub hdue (hbusy n rfl)
  | returned code =>
    cases code with
    | zero =>
      intro i hi
      obtain hexec | hd := h i hi
      · exact Or.inl (he.executed i hexec)
      · exact Or.inr (hdrop i hd)
    | succ code => trivial

theorem Flush.afterStep_of_ne {l : Label} {f : Flush} {n : Nat} (h : ∀ a k, l = .link a → f.pc ≠ .built a k) :
    f.afterStep l n = f := by
  unfold Flush.afterStep
  split
  · next a b k hpc =>
    rw [if_neg]
    rintro rfl
    exact h a k rfl hpc
  · rfl

theorem taskData_lt (hq : Ledger s q) {a : Nat} (ha : s.allocated a = true) (hw : a ∉ s.waiting) :
    (s.mem a).taskData < s.submitted := by
  obtain hmem | hwait | hholds := (hq.allocated a).mp ha
  · exact hq.numbered a hmem
  · exact absurd hwait hw
  · obtain ⟨i, hi⟩ : ∃ i, s.worker.busy = some (a, i) := by
      cases hworker : s.worker <;> rw [hworker] at hholds <;> cases hholds <;> exact ⟨_, rfl⟩
    rw [hq.holds a i hi hholds]
    exact hq.busy_lt a i hi

/-- Building a task keeps every flush on its way. -/
theorem ok_alloc (hq : Ledger s q) {due : Nat → Nat} (hkeeps : KeepsDue s due) {a k f : Nat}
    (h : step s (.alloc a k f) = some t) :
    KeepsDue t due ∧ (∀ fl : Flush, fl.Ok s due → fl.Ok t due) ∧ a ∈ t.waiting ∧ (t.mem a).executeAfter = k := by
  have he := step_executes hq h
  simp only [step] at h
  split at h
  · cases h
  · next hfree =>
    cases h
    refine ⟨?_, ?_, List.mem_cons_self, by simp [State.set]⟩
    · intro b hb hwait
      have hne : b ≠ a := fun heq => hwait (heq ▸ List.mem_cons_self)
      simp only [State.set, if_neg hne] at hb ⊢
      exact hkeeps b hb fun hmem => hwait (List.mem_cons_of_mem a hmem)
    · intro fl hok
      apply hok.step he (fun _ hi => hi) (Nat.le_refl _) fun _ _ => rfl
      · intro b k' hpc
        rw [Flush.Ok, hpc] at hok
        have hne : b ≠ a := by
          rintro rfl
          exact hfree ((hq.allocated b).mpr (Or.inr (Or.inl hok.1)))
        exact ⟨List.mem_cons_of_mem a hok.1, by simp only [State.set, if_neg hne]⟩
      · exact fun n _ b hb => Or.inl ⟨b, hb⟩

/-- Linking a task keeps every flush on its way; that of a sentinel starts its wait. -/
theorem ok_link (hq : Ledger s q) {due : Nat → Nat} (hkeeps : KeepsDue s due) {a : Nat} (ha : a ∈ s.waiting)
    (h : (s.number a).submitAt a = some t) :
    ∃ due', KeepsDue t due' ∧ ∀ fl : Flush, fl.Ok s due → (fl.afterStep (.link a) s.submitted).Ok t due' := by
  have hsame := submitAt_sameTasks h
  have he : Executes s t := .of_eq hsame.worker hsame.executed
  have hdue : ∀ i < s.submitted, Function.update due s.submitted (s.mem a).executeAfter i = due i := by
    intro i hi
    exact Function.update_of_ne (Nat.ne_of_lt hi) _ _
  have hkey : ∀ b, (t.mem b).executeAfter = (s.mem b).executeAfter := by
    intro b
    rw [hsame.executeAfter]
    by_cases hb : b = a
    · rw [hb, number_mem_same]
    · rw [number_mem hb]
  have hsub : t.submitted = s.submitted + 1 := hsame.submitted
  have hwaiting : t.waiting = s.waiting.erase a := hsame.waiting
  refine ⟨Function.update due s.submitted (s.mem a).executeAfter, ?_, ?_⟩
  · intro b hb hwait
    rw [hsame.allocated] at hb
    rw [hwaiting] at hwait
    rw [hkey, hsame.taskData]
    by_cases hne : b = a
    · rw [hne, number_mem_same]
      rw [Function.update_self]
    · have hwait' : b ∉ s.waiting := fun hmem => hwait ((List.mem_erase_of_ne hne).mpr hmem)
      rw [number_mem hne, hdue _ (taskData_lt hq hb hwait')]
      exact hkeeps b hb hwait'
  · intro fl hok
    by_cases hmine : ∃ k, fl.pc = .built a k
    · obtain ⟨k, hpc⟩ := hmine
      rw [Flush.Ok, hpc] at hok
      obtain ⟨-, hk, howed⟩ := hok
      have hafter : fl.afterStep (.link a) s.submitted = ⟨.waiting s.submitted, fl.owed⟩ := by
        obtain ⟨pc, owed⟩ := fl
        cases hpc
        exact if_pos rfl
      rw [hafter]
      refine ⟨by omega, fun i hi => (howed i hi).1, fun i hi => ?_, ?_⟩
      · have hahead := he.ahead (howed i hi).2
        rw [Ahead, hdue i (howed i hi).1, Function.update_self, hk]
        exact hahead
      · rintro (hexec | ⟨b, hb⟩)
        · rw [hsame.executed] at hexec
          exact absurd (hq.executed_lt _ hexec) (Nat.lt_irrefl _)
        · rw [hsame.worker] at hb
          exact absurd (hq.busy_lt b _ hb) (Nat.lt_irrefl _)
    · rw [Flush.afterStep_of_ne]
      · apply hok.step he (fun i hi => by rwa [hsame.dropped]) (by omega) hdue
        · intro b k hpc
          rw [Flush.Ok, hpc] at hok
          have hne : b ≠ a := fun heq => hmine ⟨k, heq ▸ hpc⟩
          exact ⟨hwaiting ▸ (List.mem_erase_of_ne hne).mpr hok.1, hkey b⟩
        · intro n _ b hb
          rw [hsame.worker] at hb
          exact Or.inl ⟨b, hb⟩
      · rintro b k ⟨⟩ hpc
        exact hmine ⟨k, hpc⟩

/-- A step of the queue that is not reused keeps every flush on its way. -/
theorem Flushing.queue {s s' : FlushState} (h : Flushing s) {l : Label} (hn : NotReused s.base l)
    (hs : flushStep s (.queue l) = some s') : Flushing s' := by
  obtain ⟨hqueued, due, hkeeps, hok⟩ := h
  obtain ⟨t, ht, rfl⟩ := Option.map_eq_some_iff.mp hs
  refine ⟨hqueued.step hn ht, ?_⟩
  obtain ⟨q, hq, -⟩ := hqueued
  have he := step_executes hq.toLedger ht
  by_cases hframes : l.frames = true
  · have hf := step_frame hframes ht
    refine ⟨due, hf.keepsDue hkeeps, fun thread => ?_⟩
    dsimp only
    rw [Flush.afterStep_of_ne fun a k hl => by rw [hl] at hframes; cases hframes]
    apply (hok thread).step he hf.dropped (Nat.le_of_eq hf.submitted.symm) fun _ _ => rfl
    · intro a k hpc
      have hbuilt := hok thread
      rw [Flush.Ok, hpc] at hbuilt
      exact ⟨hf.waiting ▸ hbuilt.1, hf.executeAfter a⟩
    · intro n hpc a hb
      have hsentinel := hok thread
      rw [Flush.Ok, hpc] at hsentinel
      by_cases htake : ∃ checked now, l = .take checked now
      · obtain ⟨checked, now, rfl⟩ := htake
        simp only [step] at ht
        split at ht
        · next b hw hb' =>
          split at ht
          · cases ht
          · cases ht
            cases hb
            exact Or.inr (take_done hq hkeeps hsentinel hw hb' rfl)
        · cases ht
      · exact Or.inl ⟨a, step_busy ht (fun checked now heq => htake ⟨checked, now, heq⟩) hb⟩
  · cases l with
    | alloc a k f =>
      obtain ⟨hkeeps', hok', -⟩ := ok_alloc hq.toLedger hkeeps ht
      exact ⟨due, hkeeps', fun thread => hok' _ (hok thread)⟩
    | link a =>
      simp only [step] at ht
      split at ht
      · next ha =>
        obtain ⟨due', hkeeps', hok'⟩ := ok_link hq.toLedger hkeeps ha ht
        exact ⟨due', hkeeps', fun thread => hok' _ (hok thread)⟩
      · cases ht
    | _ => exact absurd rfl hframes

/-! ## Looking through the queue -/

theorem tasksFrom_eq {l : List Nat} {cur : Option Nat} (h : Segment s.next cur l none) {n : Nat} (hn : l.length ≤ n) :
    s.tasksFrom n cur = l := by
  induction l generalizing cur n with
  | nil =>
    cases h
    cases n <;> rfl
  | cons a l ih =>
    obtain ⟨rfl, hl⟩ := h
    cases n with
    | zero => cases hn
    | succ n => exact congrArg (a :: ·) (ih hl (Nat.le_of_succ_le_succ hn))

/-- The loop ends behind the last task that is due. -/
theorem scanLoop_spec {l : List Nat} {cur : Option Nat} (h : Segment s.next cur l none) {n : Nat} (hn : l.length ≤ n)
    (hsorted : l.Pairwise s.Before) (deadline k : Nat) :
    ∃ k', s.scanLoop deadline n cur k = some k' ∧ k ≤ k' ∧
      ∀ a ∈ l, (s.mem a).executeAfter ≤ deadline → (s.mem a).executeAfter ≤ k' := by
  induction l generalizing cur n k with
  | nil =>
    cases h
    exact ⟨k, by cases n <;> rfl, Nat.le_refl k, by simp⟩
  | cons a l ih =>
    obtain ⟨rfl, hl⟩ := h
    obtain ⟨hhead, htail⟩ := List.pairwise_cons.mp hsorted
    cases n with
    | zero => cases hn
    | succ n =>
      rw [State.scanLoop]
      split
      · obtain ⟨k', hk', hle, hall⟩ := ih hl (Nat.le_of_succ_le_succ hn) htail (max k (s.mem a).executeAfter)
        refine ⟨k', hk', by omega, List.forall_mem_cons.mpr ⟨fun _ => by omega, hall⟩⟩
      · next hlate =>
        refine ⟨k, rfl, Nat.le_refl k, List.forall_mem_cons.mpr ⟨fun hdue => absurd hdue hlate, ?_⟩⟩
        intro b hb hdue
        have hbefore := hhead b hb
        rw [State.Before] at hbefore
        omega

/-- The time for the sentinel is found, and what the flush owes is due by then or executing. -/
theorem scan_spec (h : Queued s) {due : Nat → Nat} (hkeeps : KeepsDue s due) (deadline before : Nat) :
    ∃ k, s.scanLoop deadline (s.submitted + 1) s.slotStart before = some k ∧
      ∀ i ∈ s.dueBy deadline, i < s.submitted ∧ Ahead s due k i := by
  obtain ⟨q, hq, -⟩ := h
  have hlen := hq.length_le
  obtain ⟨r, hr, hseg, hmem⟩ : ∃ r, r = s.rest q ∧ Segment s.next s.slotStart r none ∧
      ∀ a ∈ q, a ∈ r ∨ s.currentTask = some a := by
    cases hc : s.currentTask with
    | none => exact ⟨q, by simp [State.rest, hc], by simpa [State.slotStart, hc] using hq.linked, fun a ha => Or.inl ha⟩
    | some c =>
      obtain ⟨c', x, hc', rfl⟩ := hq.current_ne_nil (by simp [hc])
      rw [hc] at hc'
      cases hc'
      refine ⟨x, by simp [State.rest, hc], by rw [State.slotStart, hc]; exact hq.linked.2, fun a ha => ?_⟩
      obtain rfl | ha := List.mem_cons.mp ha
      · exact Or.inr rfl
      · exact Or.inl ha
  have hrlen : r.length ≤ s.submitted + 1 := by
    have hsub : r.length ≤ q.length := by
      rw [hr, State.rest]
      split
      · exact Nat.le_refl _
      · rw [List.length_tail]
        exact Nat.sub_le _ _
    omega
  obtain ⟨k, hk, -, hall⟩ := scanLoop_spec hseg hrlen (hr ▸ hq.sorted) deadline before
  refine ⟨k, hk, fun i hi => ?_⟩
  obtain hi | hi := List.mem_append.mp hi
  · rw [tasksFrom_eq hq.linked (by omega)] at hi
    obtain ⟨a, ha, rfl⟩ := List.mem_map.mp hi
    obtain ⟨haq, hdue⟩ := List.mem_filter.mp ha
    refine ⟨hq.numbered a haq, ?_⟩
    obtain har | hcur := hmem a haq
    · have hkey := hkeeps a ((hq.allocated a).mpr (Or.inl haq)) fun hw => (hq.waiting_fresh a hw).1 haq
      exact Or.inl (hkey ▸ hall a har (of_decide_eq_true hdue))
    · -- the task at the head is executing, or has just been executed
      obtain ⟨-, i, hbusy, hi⟩ := hq.current_head hcur
      rw [hi]
      by_cases hrun : s.worker.hasRun = true
      · exact Or.inr (Or.inl ((hq.hasRun a i hbusy).mpr hrun))
      · cases hw : s.worker <;> rw [hw] at hbusy hrun <;> cases hbusy
        · exact Or.inr (Or.inr ⟨a, hw⟩)
        · exact absurd rfl hrun
        · exact absurd rfl hrun
  · cases hw : s.worker <;> rw [hw] at hi <;> simp only [List.not_mem_nil, List.mem_singleton] at hi
    next a j =>
      subst hi
      exact ⟨hq.busy_lt a i (by rw [hw]; rfl), Or.inr (Or.inr ⟨a, hw⟩)⟩

/-! ## Runs -/

theorem Flushing.start : Flushing .start where
  queued := ⟨[], inv_start, rfl⟩
  ok := ⟨fun _ => 0, fun a ha => (by cases ha), fun _ => trivial⟩

/-- One thread goes on, the queue stays as it is. -/
theorem Flushing.setFlush {s : FlushState} (h : Flushing s) (thread : Nat) {f : Flush}
    (hf : ∀ due, KeepsDue s.base due → (s.flush thread).Ok s.base due → f.Ok s.base due) :
    Flushing (s.setFlush thread f) := by
  obtain ⟨hqueued, due, hkeeps, hok⟩ := h
  refine ⟨hqueued, due, hkeeps, fun i => ?_⟩
  unfold FlushState.setFlush
  dsimp only
  split
  · exact hf due hkeeps (hok thread)
  · exact hok i

theorem Flushing.step {s s' : FlushState} (h : Flushing s) {l : FlushLabel} (hn : FlushNotReused s l)
    (hs : flushStep s l = some s') : Flushing s' := by
  cases l with
  | queue l => exact h.queue hn hs
  | begin thread =>
    simp only [flushStep] at hs
    split at hs <;> cases hs
    all_goals
      apply h.setFlush
      intro due _ _
      cases s.base.running <;> trivial
  | scan thread before timeout =>
    simp only [flushStep] at hs
    split at hs
    · obtain ⟨k, hk, rfl⟩ := Option.map_eq_some_iff.mp hs
      apply h.setFlush
      intro due hkeeps _
      obtain ⟨k', hk', howed⟩ := scan_spec h.queued hkeeps (addSaturate before timeout) before
      rw [hk] at hk'
      cases hk'
      exact howed
    · cases hs
  | build thread a =>
    simp only [flushStep] at hs
    split at hs
    · next k hpc =>
      obtain ⟨t, ht, rfl⟩ := Option.map_eq_some_iff.mp hs
      have hqueued := h.queued.step (l := .alloc a k flushTask) trivial ht
      obtain ⟨⟨q, hq, -⟩, due, hkeeps, hok⟩ := h
      obtain ⟨hkeeps', hok', hwait, hkey⟩ := ok_alloc hq.toLedger hkeeps ht
      have hbuilding : Flushing ⟨t, s.flush⟩ := ⟨hqueued, due, hkeeps', fun i => hok' _ (hok i)⟩
      apply hbuilding.setFlush
      intro due' _ hscanned
      rw [Flush.Ok, hpc] at hscanned
      exact ⟨hwait, hkey, hscanned⟩
    · cases hs
  | finish thread =>
    simp only [flushStep] at hs
    split at hs
    · cases hs
      exact h.setFlush thread fun _ _ _ => trivial
    · next n hpc =>
      cases hs
      apply h.setFlush
      intro due _ hwaiting
      rw [Flush.Ok, hpc] at hwaiting
      by_cases hrun : n ∈ s.base.executed
      · rw [if_pos hrun]
        exact hwaiting.done (Or.inl hrun)
      · rw [if_neg hrun]
        trivial
    · cases hs

theorem FlushReachableNotReused.flushing {s : FlushState} (h : FlushReachableNotReused s) : Flushing s :=
  Machine.Reachable.invariant (by rintro s rfl; exact .start) (fun _ _ hi ⟨_, hn, hs⟩ => hi.step hn hs) h

/-- **Flush really flushes** in every run in which the head of the queue is never a later submission at
the address of the task the worker has released. The look through the queue comes to its end. -/
theorem flush_of_not_reused {s : FlushState} (h : FlushReachableNotReused s) :
    Flushed s ∧ ∀ thread before timeout, (s.flush thread).pc = .started →
      (flushStep s (.scan thread before timeout)).isSome = true := by
  obtain ⟨hqueued, due, hkeeps, hok⟩ := h.flushing
  constructor
  · intro thread hpc
    have hreturned := hok thread
    rw [Flush.Ok, hpc] at hreturned
    exact hreturned
  · intro thread before timeout hpc
    obtain ⟨k, hk, -⟩ := scan_spec hqueued hkeeps (addSaturate before timeout) before
    simp [flushStep, hpc, hk]

/-- The steps of a run with flushes and without a reused head. -/
def flushStepNotReused (s : FlushState) (l : FlushLabel) : Option FlushState :=
  if s.base.worker.busy.all fun p => s.base.firstTask ≠ some p.1 ∨ (s.base.mem p.1).taskData = p.2 then flushStep s l
  else none

theorem flushStepNotReused_cases (s : FlushState) (l : FlushLabel) (t : FlushState)
    (h : flushStepNotReused s l = some t) : ∃ l, FlushNotReused s l ∧ flushStep s l = some t := by
  simp only [flushStepNotReused] at h
  split at h
  · next hall =>
    refine ⟨l, ?_, h⟩
    cases l with
    | queue l =>
      cases l with
      | pop =>
        intro a i hw hf
        simpa [hw, WorkerPc.busy, hf] using hall
      | _ => trivial
    | _ => trivial
  · cases h

/-- A flush with one task executing and one delayed into the time it waits. -/
theorem flush_of_not_reused_delayed :
    ∃ s, FlushReachableNotReused s ∧ (s.flush 7 = ⟨.returned 0, [0, 1, 0]⟩ ∧ s.base.executed = [0, 1, 2]) ∧
      (Flushed s ∧ ∀ thread before timeout, (s.flush thread).pc = .started →
        (flushStep s (.scan thread before timeout)).isSome = true) := by
  obtain ⟨s, hs, he⟩ : ∃ s, FlushReachableNotReused s ∧
      decide (s.flush 7 = ⟨.returned 0, [0, 1, 0]⟩ ∧ s.base.executed = [0, 1, 2]) = true :=
    Machine.Reachable.exists_of_run flushStepNotReused flushStepNotReused_cases
      [.queue (.alloc 10 5 1), .queue (.link 10), .queue (.alloc 11 12 1), .queue (.link 11), .queue (.take 9 9),
        .begin 7, .scan 7 9 5, .build 7 12, .queue (.link 12), .queue .exec, .queue .release, .queue .pop,
        .queue (.take 12 12), .queue .exec, .queue .release, .queue .pop, .queue (.take 12 12), .queue .exec, .finish 7]
      (fun s => decide (s.flush 7 = ⟨.returned 0, [0, 1, 0]⟩ ∧ s.base.executed = [0, 1, 2])) (by decide)
  exact ⟨s, hs, of_decide_eq_true he, flush_of_not_reused hs⟩

/-- A submission gets the address of a dropped task while the worker is about to lock again; a flush sees
it in the queue, the worker pops it unexecuted, and the flush returns 0. -/
theorem flush_misses_popped : ∃ s, FlushReachable s ∧ ¬ Flushed s := by
  obtain ⟨s, hs, he⟩ : ∃ s, FlushReachable s ∧
      decide (s.flush 7 = ⟨.returned 0, [1]⟩ ∧ 1 ∉ s.base.executed ∧ 1 ∉ s.base.dropped) = true :=
    Machine.Reachable.exists_of_run flushStep (fun _ l _ h => ⟨l, h⟩)
      [.queue (.alloc 10 0 1), .queue (.link 10), .queue (.take 9 9), .queue .exec, .queue (.foreachMatching 1 none),
        .queue .release, .queue (.alloc 10 0 1), .queue (.link 10), .begin 7, .scan 7 9 5, .queue .pop, .build 7 11,
        .queue (.link 11), .queue (.take 9 9), .queue .exec, .finish 7]
      (fun s => decide (s.flush 7 = ⟨.returned 0, [1]⟩ ∧ 1 ∉ s.base.executed ∧ 1 ∉ s.base.dropped)) (by decide)
  obtain ⟨hflush, hexec, hdrop⟩ := of_decide_eq_true he
  refine ⟨s, hs, fun hflushed => ?_⟩
  obtain h | h := hflushed 7 (by rw [hflush]) 1 (by rw [hflush]; exact List.mem_cons_self)
  · exact hexec h
  · exact hdrop h

end SentryNative.Worker
