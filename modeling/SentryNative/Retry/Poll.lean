import SentryNative.Retry.Round

/-!
# The retry poll

`retry->state` and `retry->scheduled` decide whether a poll is in the queue of
the background worker. Each task runs as one step, any task of the queue may be
the next one, and an envelope is enqueued from within a task. The directory may
hold any files at the start.
-/

namespace SentryNative.Retry.Poll

open CLib

/-- `sentry_retry_state_t`. -/
inductive RetryState where
  | startup
  | running
  | sealed
  deriving DecidableEq, Repr

/-- `sentry_poll_state_t`. -/
inductive PollState where
  | idle
  | scheduled
  | shutdown
  deriving DecidableEq, Repr

/-- The tasks of the worker: `retry_poll_task`, `retry_flush_task`,
`retry_trigger_task` and `http_send_task`. -/
inductive Task where
  | poll
  | flush
  | trigger
  | send
  deriving DecidableEq, Repr

structure State where
  state : RetryState
  scheduled : PollState
  tasks : List Task
  dir : Dir
  startupTime : UInt64
  started : Bool
  shutdownCalled : Bool
  sealCalled : Bool
  written : List Nat
  next : Nat

/-- `sentry__retry_new`, over a directory that earlier runs have left. -/
def Start (s : State) : Prop :=
  s.state = .startup ∧ s.scheduled = .idle ∧ s.tasks = [] ∧ s.dir.names.Nodup ∧
    (∀ f ∈ s.dir, f.2.id < s.next) ∧ s.started = false ∧ s.shutdownCalled = false ∧
    s.sealCalled = false ∧ s.written = []

namespace State

/-- `sentry__atomic_compare_swap` on `state`. -/
def casState (s : State) (old new : RetryState) : State :=
  if s.state = old then { s with state := new } else s

/-- `sentry__atomic_compare_swap` on `scheduled`, and what follows if it succeeds. -/
def casScheduled (s : State) (old new : PollState) (andThen : State → State) : State :=
  if s.scheduled = old then andThen { s with scheduled := new } else s

def submit (s : State) (t : Task) : State := { s with tasks := s.tasks ++ [t] }

/-- `retry_poll_task`. -/
def pollTask (keep : CacheKeep) (s : State) (c : Call) : State :=
  let before := if s.state = .startup then s.startupTime else 0
  let s := s.casScheduled .scheduled .idle id
  let r := retrySend keep s.dir { c with before := before }
  let s := { s with dir := r.dir }
  let s := if r.total = 0 then s else s.casScheduled .idle .scheduled (·.submit .poll)
  s.casState .startup .running

/-- `retry_flush_task` and `retry_trigger_task`: a round for all files before a time. -/
def roundTask (keep : CacheKeep) (s : State) (before : UInt64) (c : Call) : State :=
  { s with dir := (retrySend keep s.dir { c with before := before }).dir }

/-- `sentry__retry_enqueue`: `written` is whether the write works. -/
def enqueue (s : State) (eventId : Option Uuid) (fresh : Uuid) (usec : UInt64) (written : Bool) :
    State :=
  if s.state = .sealed ∨ written = false then s
  else
    let name := makeCachePath (usec.toNat / 1000) 0 (eventId.getD fresh).asString
    let s := { s with
      dir := s.dir.write name ⟨s.next, eventId⟩
      written := s.written ++ [s.next]
      next := s.next + 1 }
    (s.casState .startup .running).casScheduled .idle .scheduled (·.submit .poll)

/-- `sentry__retry_start`. -/
def start (s : State) : State := { s with scheduled := .scheduled, started := true }.submit .poll

/-- `sentry__retry_shutdown`. -/
def shutdown (s : State) : State :=
  { s with
    tasks := s.tasks.filter (· ≠ Task.poll)
    scheduled := .shutdown
    shutdownCalled := true }.submit .flush

/-- `sentry__retry_seal`. -/
def sealed (s : State) : State := { s with state := .sealed, sealCalled := true }

/-- The next task leaves the queue. -/
def take (s : State) (t : Task) : State := { s with tasks := s.tasks.erase t }

end State

inductive Step (keep : CacheKeep) : State → State → Prop where
  | start (s : State) : s.started = false → Step keep s s.start
  | submit (s : State) : Step keep s (s.submit .send)
  | trigger (s : State) : s.started = true → Step keep s (s.submit .trigger)
  | shutdown (s : State) : s.started = true → Step keep s s.shutdown
  | sealed (s : State) : Step keep s s.sealed
  | poll (s : State) (c : Call) : .poll ∈ s.tasks → c.listing.Perm s.dir.names →
      Step keep s ((s.take .poll).pollTask keep c)
  | flush (s : State) (c : Call) : .flush ∈ s.tasks → c.listing.Perm s.dir.names →
      Step keep s ((s.take .flush).roundTask keep s.startupTime c)
  | triggered (s : State) (c : Call) : .trigger ∈ s.tasks → c.listing.Perm s.dir.names →
      Step keep s ((s.take .trigger).roundTask keep 0xFFFFFFFFFFFFFFFF c)
  | send (s : State) : .send ∈ s.tasks → Step keep s (s.take .send)
  | failed (s : State) (eventId : Option Uuid) (fresh : Uuid) (usec : UInt64) (written : Bool) :
      .send ∈ s.tasks → s.started = true →
      Step keep s ((s.take .send).enqueue eventId fresh usec written)

def Reachable (keep : CacheKeep) : State → Prop := Machine.Reachable Start (Step keep)

/-! ## The invariant -/

/-- A poll is queued, or none is needed, or none may be queued any more. -/
inductive Polls (s : State) : Prop where
  | scheduled (h : s.scheduled = .scheduled) (hc : s.tasks.count .poll = 1)
      (hs : s.shutdownCalled = false)
  | idle (h : s.scheduled = .idle) (hc : s.tasks.count .poll = 0) (hs : s.shutdownCalled = false)
      (hn : ∀ f ∈ s.dir.queue, f.2.id ∉ s.written)
  | shutdown (h : s.scheduled = .shutdown) (hc : s.tasks.count .poll = 0)
      (hs : s.shutdownCalled = true)

structure Inv (s : State) : Prop where
  nodup : s.dir.names.Nodup
  polls : Polls s
  startup : s.state = .startup → s.written = []
  unstarted : s.started = false → s.scheduled = .idle
  sealed : s.sealCalled = true → s.state = .sealed

variable {keep : CacheKeep} {s t : State}

theorem Start.inv (h : Start s) : Inv s := by
  obtain ⟨-, hsch, htasks, hnd, -, -, hshut, hseal, hw⟩ := h
  refine ⟨hnd, .idle hsch (by simp [htasks]) hshut (by simp [hw]), fun _ => hw, fun _ => hsch, ?_⟩
  intro hc
  rw [hseal] at hc
  cases hc

theorem count_submit (s : State) {t : Task} (h : t ≠ .poll) :
    (s.submit t).tasks.count .poll = s.tasks.count .poll := by
  simp [State.submit, List.count_append, h]

theorem count_take (s : State) {t : Task} (h : t ≠ .poll) :
    (s.take t).tasks.count .poll = s.tasks.count .poll := by
  rw [State.take]
  exact List.count_erase_of_ne h.symm

/-- Steps that touch neither the polls nor the files this run has written. -/
theorem Inv.congr (h : Inv s) (hnd : t.dir.names.Nodup) (hsch : t.scheduled = s.scheduled)
    (hc : t.tasks.count .poll = s.tasks.count .poll) (hshut : t.shutdownCalled = s.shutdownCalled)
    (hw : t.written = s.written) (hq : ∀ f ∈ t.dir.queue, ∃ g ∈ s.dir.queue, g.2 = f.2)
    (hst : t.state = .startup → s.state = .startup) (hstarted : t.started = s.started)
    (hseal : t.sealCalled = true → t.state = .sealed) : Inv t := by
  refine ⟨hnd, ?_, fun e => hw ▸ h.startup (hst e), ?_, hseal⟩
  · cases h.polls with
    | scheduled hs hcount hshutdown =>
      exact .scheduled (hsch.trans hs) (hc.trans hcount) (hshut.trans hshutdown)
    | idle hs hcount hshutdown hn =>
      refine .idle (hsch.trans hs) (hc.trans hcount) (hshut.trans hshutdown) fun f hf => ?_
      obtain ⟨g, hg, hgf⟩ := hq f hf
      rw [← hgf, hw]
      exact hn g hg
    | shutdown hs hcount hshutdown =>
      exact .shutdown (hsch.trans hs) (hc.trans hcount) (hshut.trans hshutdown)
  · intro hn
    rw [hsch]
    exact h.unstarted (hstarted ▸ hn)

theorem Inv.roundTask (h : Inv s) {task : Task} (ht : task ≠ .poll) {before : UInt64} {c : Call}
    (hl : c.listing.Perm s.dir.names) : Inv ((s.take task).roundTask keep before c) := by
  obtain ⟨hnd, hsub, -⟩ := @retrySend_within s.dir keep { c with before := before } h.nodup hl
  exact h.congr hnd rfl (count_take s ht) rfl rfl hsub id rfl h.sealed

/-! ## The poll -/

theorem casState_eq (s : State) (old new : RetryState) :
    s.casState old new = { s with state := if s.state = old then new else s.state } := by
  simp only [State.casState]
  split
  · rfl
  · rfl

/-- The round of a poll: until the first one has run, for the files of earlier runs. -/
def State.pollRound (keep : CacheKeep) (s : State) (c : Call) : Round :=
  retrySend keep s.dir { c with before := if s.state = .startup then s.startupTime else 0 }

theorem pollTask_done (hs : s.scheduled = .scheduled) {c : Call}
    (ht : (s.pollRound keep c).total = 0) : s.pollTask keep c = { s with
      dir := (s.pollRound keep c).dir
      scheduled := .idle
      state := if s.state = .startup then .running else s.state } := by
  simp only [State.pollRound] at ht ⊢
  simp only [State.pollTask, State.casScheduled, if_pos hs, casState_eq, id_eq, ht, if_true]

theorem pollTask_again (hs : s.scheduled = .scheduled) {c : Call}
    (ht : (s.pollRound keep c).total ≠ 0) : s.pollTask keep c = { s with
      dir := (s.pollRound keep c).dir
      tasks := s.tasks ++ [.poll]
      state := if s.state = .startup then .running else s.state } := by
  simp only [State.pollRound] at ht ⊢
  simp only [State.pollTask, State.casScheduled, if_pos hs, casState_eq, id_eq, ht, if_false,
    if_true, State.submit]
  rw [hs]

theorem moved_on_ne {x : RetryState} : (if x = .startup then .running else x) ≠ RetryState.startup := by
  split
  · simp
  · assumption

/-- `retry_poll_task` leaves a poll behind, or nothing that this run wrote. -/
theorem Inv.pollTask (h : Inv s) {c : Call} (hmem : .poll ∈ s.tasks)
    (hl : c.listing.Perm s.dir.names) : Inv ((s.take .poll).pollTask keep c) := by
  have hpos : 0 < s.tasks.count .poll := List.count_pos_iff.mpr hmem
  obtain ⟨hsch, hcount, hshut⟩ : s.scheduled = .scheduled ∧ s.tasks.count .poll = 1 ∧
      s.shutdownCalled = false := by
    cases h.polls with
    | scheduled hs hc hshut => exact ⟨hs, hc, hshut⟩
    | idle hs hc => omega
    | shutdown hs hc => omega
  have hzero : (s.take .poll).tasks.count .poll = 0 := by
    rw [State.take, List.count_erase_self]
    omega
  have hround : (s.take .poll).pollRound keep c = s.pollRound keep c := rfl
  obtain ⟨hnd, -, hempty⟩ := @retrySend_within s.dir keep
    { c with before := if s.state = .startup then s.startupTime else 0 } h.nodup hl
  -- files of this run are missed only while there are none
  have hnone : (s.pollRound keep c).total = 0 →
      ∀ f ∈ (s.pollRound keep c).dir.queue, f.2.id ∉ s.written := by
    intro htot f hf
    by_cases hst : s.state = .startup
    · rw [h.startup hst]
      exact List.not_mem_nil
    · rw [State.pollRound, hempty (if_neg hst) htot] at hf
      cases hf
  have hstarted : s.started = false → False := by
    intro hn
    rw [h.unstarted hn] at hsch
    cases hsch
  have hsealed : s.sealCalled = true →
      (if s.state = .startup then .running else s.state) = RetryState.sealed := by
    intro hc
    rw [h.sealed hc]
    rfl
  by_cases htot : (s.pollRound keep c).total = 0
  · rw [@pollTask_done keep (s.take .poll) hsch c (hround ▸ htot)]
    exact ⟨hnd, .idle rfl hzero hshut (hnone htot), fun e => absurd e moved_on_ne,
      fun hn => (hstarted hn).elim, hsealed⟩
  · rw [@pollTask_again keep (s.take .poll) hsch c (hround ▸ htot)]
    refine ⟨hnd, .scheduled hsch ?_ hshut, fun e => absurd e moved_on_ne,
      fun hn => (hstarted hn).elim, hsealed⟩
    rw [List.count_append, hzero]
    rfl

/-! ## The other steps -/

theorem Inv.start (h : Inv s) (hn : s.started = false) : Inv s.start := by
  obtain ⟨hcount, hshut⟩ : s.tasks.count .poll = 0 ∧ s.shutdownCalled = false := by
    cases h.polls with
    | scheduled hs => rw [h.unstarted hn] at hs; cases hs
    | idle hs hc hshut => exact ⟨hc, hshut⟩
    | shutdown hs => rw [h.unstarted hn] at hs; cases hs
  refine ⟨h.nodup, .scheduled rfl ?_ hshut, h.startup, (fun e => by cases e), h.sealed⟩
  simp [State.start, State.submit, List.count_append, hcount]

theorem Inv.shutdown (h : Inv s) (hs : s.started = true) : Inv s.shutdown := by
  refine ⟨h.nodup, .shutdown rfl ?_ rfl, h.startup, ?_, h.sealed⟩
  · simp only [State.shutdown, State.submit, List.count_append]
    have hnone : (s.tasks.filter (· ≠ Task.poll)).count .poll = 0 := by
      rw [List.count_eq_zero]
      intro hc
      simp at hc
    rw [hnone]
    rfl
  · intro hn
    have hst : s.started = false := hn
    rw [hs] at hst
    cases hst

/-- `sentry__retry_enqueue` on a retry that is not sealed, when the write works. -/
theorem enqueue_eq (hn : s.state ≠ .sealed) (eventId : Option Uuid) (fresh : Uuid)
    (usec : UInt64) : s.enqueue eventId fresh usec true =
      { s with
        dir := s.dir.write
          (makeCachePath (usec.toNat / 1000) 0 (eventId.getD fresh).asString) ⟨s.next, eventId⟩
        written := s.written ++ [s.next]
        next := s.next + 1
        state := if s.state = .startup then .running else s.state
        scheduled := if s.scheduled = .idle then .scheduled else s.scheduled
        tasks := if s.scheduled = .idle then s.tasks ++ [.poll] else s.tasks } := by
  rw [State.enqueue, if_neg (by simp [hn])]
  simp only [casState_eq, State.casScheduled, State.submit]
  split
  · rfl
  · rfl

theorem Inv.enqueue (h : Inv s) (hs : s.started = true) (eventId : Option Uuid) (fresh : Uuid)
    (usec : UInt64) (written : Bool) : Inv (s.enqueue eventId fresh usec written) := by
  by_cases hstop : s.state = .sealed ∨ written = false
  · rw [State.enqueue, if_pos hstop]
    exact h
  · rw [not_or] at hstop
    obtain ⟨hne, hwritten⟩ := hstop
    have hw : written = true := by simpa using hwritten
    subst hw
    rw [enqueue_eq hne]
    refine ⟨Dir.nodup_write h.nodup _ _, ?_, fun e => absurd e moved_on_ne, ?_, ?_⟩
    · cases h.polls with
      | scheduled hsch hc hshut =>
        exact .scheduled (by simp [hsch]) (by simpa [hsch] using hc) hshut
      | idle hsch hc hshut hn =>
        refine .scheduled (by simp [hsch]) ?_ hshut
        simp [hsch, List.count_append, hc]
      | shutdown hsch hc hshut =>
        exact .shutdown (by simp [hsch]) (by simpa [hsch] using hc) hshut
    · intro hn
      have hst : s.started = false := hn
      rw [hs] at hst
      cases hst
    · intro hc
      exact absurd (h.sealed hc) hne

theorem Inv.step (h : Inv s) (hs : Step keep s t) : Inv t := by
  have hself : ∀ f ∈ s.dir.queue, ∃ g ∈ s.dir.queue, g.2 = f.2 := fun f hf => ⟨f, hf, rfl⟩
  have htake : ∀ {x : Task}, x ≠ .poll → Inv (s.take x) := fun hx =>
    h.congr h.nodup rfl (count_take s hx) rfl rfl hself id rfl h.sealed
  cases hs with
  | start hn => exact h.start hn
  | submit => exact h.congr h.nodup rfl (count_submit s (by simp)) rfl rfl hself id rfl h.sealed
  | trigger hst =>
    exact h.congr h.nodup rfl (count_submit s (by simp)) rfl rfl hself id rfl h.sealed
  | shutdown hst => exact h.shutdown hst
  | sealed =>
    exact h.congr h.nodup rfl rfl rfl rfl hself (fun e => by cases e) rfl fun _ => rfl
  | poll c hmem hl => exact h.pollTask hmem hl
  | flush c hmem hl => exact h.roundTask (by simp) hl
  | triggered c hmem hl => exact h.roundTask (by simp) hl
  | send hmem => exact htake (by simp)
  | failed eventId fresh usec written hmem hst =>
    exact (htake (by simp)).enqueue hst eventId fresh usec written

theorem Reachable.inv (h : Reachable keep s) : Inv s :=
  Machine.Reachable.invariant (I := Inv) (fun _ hs => Start.inv hs) (fun _ _ hi hs => hi.step hs) h

end SentryNative.Retry.Poll
