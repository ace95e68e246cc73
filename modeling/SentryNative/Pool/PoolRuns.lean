import SentryNative.Pool.PoolWorker

/-!
# The pool over whole runs

Submissions, the start and the end of the pool keep the invariant as the steps of
a worker do, so it holds in every state that is reached.
-/

namespace SentryNative.Pool

open Linked

variable {cfg : Config} {s t : State} {q : List Nat} {j w : Nat}

/-! ## Submissions -/

/-- The memory after `link`. -/
def linkMem (s : State) (a b : Nat) : Task :=
  if b = a then ⟨none, false, s.submitted⟩
  else if s.lastTask = some b then { s.mem b with next := some a }
  else s.mem b

theorem link_eq {a : Nat} (ha : s.lastTask ≠ some a) : s.link a =
    { s with
      mem := linkMem s a
      allocated := fun b => if b = a then true else s.allocated b
      firstTask := if s.lastTask = none then some a else s.firstTask
      lastTask := some a
      nextTask := if s.nextTask = none then some a else s.nextTask
      pending := s.pending + 1
      submitted := s.submitted + 1 } := by
  have hmem : ∀ l, s.lastTask = some l → (fun b => if b = l then
      { (if l = a then ⟨none, false, s.submitted⟩ else s.mem l : Task) with next := some a }
      else if b = a then ⟨none, false, s.submitted⟩ else s.mem b) = linkMem s a := by
    intro l hl
    have hne : l ≠ a := by
      rintro rfl
      exact ha hl
    funext b
    unfold linkMem
    by_cases hb : b = l
    · subst b
      simp [hne, hl]
    · by_cases hba : b = a
      · subst b
        simp [hb]
      · have : s.lastTask ≠ some b := by
          rw [hl]
          exact fun he => hb (Option.some.inj he).symm
        simp [hb, hba, this]
  unfold State.link
  cases hl : s.lastTask with
  | none =>
    have hmem' : linkMem s a = fun b => if b = a then ⟨none, false, s.submitted⟩ else s.mem b := by
      funext b
      simp [linkMem, hl]
    rw [hmem']
    simp only [State.setTask, hl, if_true]
    split <;> rfl
  | some l =>
    rw [← hmem l hl]
    simp only [State.setTask, hl, reduceCtorEq, if_false]
    split <;> rfl

theorem linkMem_self (s : State) (a : Nat) : linkMem s a a = ⟨none, false, s.submitted⟩ := by
  simp [linkMem]

theorem linkMem_done {a b : Nat} (h : b ≠ a) : (linkMem s a b).done = (s.mem b).done := by
  unfold linkMem
  rw [if_neg h]
  split <;> rfl

theorem linkMem_number {a b : Nat} (h : b ≠ a) : (linkMem s a b).number = (s.mem b).number := by
  unfold linkMem
  rw [if_neg h]
  split <;> rfl

theorem linkMem_next {a b : Nat} (h : b ≠ a) (hl : s.lastTask ≠ some b) :
    (linkMem s a b).next = (s.mem b).next := by
  simp [linkMem, h, hl]

theorem linkMem_last {a b : Nat} (h : b ≠ a) (hl : s.lastTask = some b) :
    (linkMem s a b).next = some a := by
  simp [linkMem, h, hl]

/-- The new task is the end of the list. -/
theorem Inv.link_shape (h : Inv cfg s q j) {a : Nat} (ha : a ∉ q) :
    Shape (linkMem s a) (if s.lastTask = none then some a else s.firstTask) (some a)
      (if s.nextTask = none then some a else s.nextTask) (s.submitted + 1)
      (fun b => if b = a then true else s.allocated b) (q ++ [a]) j := by
  have hlen := h.shape.length_le
  have hne : ∀ b ∈ q, b ≠ a := fun b hb he => ha (he ▸ hb)
  have hself : (linkMem s a a).next = none := by rw [linkMem_self]
  constructor
  · cases hq : q.getLast? with
    | none =>
      have hnil : q = [] := List.getLast?_eq_none_iff.mp hq
      rw [h.shape.last, hq, hnil, if_pos rfl]
      exact ⟨rfl, hself⟩
    | some b =>
      obtain ⟨r, hr⟩ := List.getLast?_eq_some_iff.mp hq
      have hlast : s.lastTask = some b := h.shape.last.trans hq
      have hnd := h.shape.nodup
      rw [hr, List.nodup_append] at hnd
      rw [hlast, if_neg (Option.some_ne_none b), segment_append]
      refine ⟨some a, ?_, rfl, hself⟩
      have hlink := h.shape.linked
      rw [hr] at hlink ⊢
      apply hlink.relink
      · intro c hc
        apply linkMem_next (hne c (by rw [hr]; exact List.mem_append_left _ hc))
        rw [hlast]
        exact fun he => hnd.2.2 c hc b List.mem_cons_self (Option.some.inj he).symm
      · exact linkMem_last (hne b (by rw [hr]; simp)) hlast
  · simp
  · rw [List.nodup_append]
    refine ⟨h.shape.nodup, List.nodup_singleton a, ?_⟩
    intro b hb c hc
    rw [List.mem_singleton.mp hc]
    exact hne b hb
  · simp only [List.length_append, List.length_singleton]
    omega
  · have hmap : q.map (fun b => (linkMem s a b).number) = q.map fun b => (s.mem b).number :=
      List.map_congr_left fun b hb => linkMem_number (hne b hb)
    rw [List.map_append, hmap, h.shape.numbers, List.length_append, List.length_singleton,
      show s.submitted + 1 - (q.length + 1) = s.submitted - q.length by omega,
      List.range'_append_1.symm]
    simp only [List.map_cons, List.map_nil, linkMem_self, List.append_cancel_left_eq, List.range'_one,
      List.cons.injEq, and_true]
    omega
  · rw [List.length_append]
    exact Nat.le_add_right_of_le h.shape.j_le
  · rw [List.drop_append_of_le_length h.shape.j_le, h.shape.next]
    cases q.drop j with
    | nil => rfl
    | cons b r => rfl
  · intro b hb
    rw [List.mem_append, List.mem_singleton] at hb
    rcases hb with hb | rfl
    · simp only [hne b hb, if_false]
      exact h.shape.allocated b hb
    · simp

/-- The pool takes a task and signals it. -/
theorem Inv.submit (h : Inv cfg s q j) {a : Nat} (ha : s.allocated a = false)
    (hrun : s.running = true) (hstop : s.stopping = false) (hmax : s.pending < cfg.maxPending)
    {woke : Option Nat} (ht : (s.link a).wakeOne cfg woke = some t) : Inv cfg t (q ++ [a]) j := by
  have haq : a ∉ q := fun hm => by
    rw [h.shape.allocated a hm] at ha
    cases ha
  have hne : ∀ b ∈ q, b ≠ a := fun b hb he => haq (he ▸ hb)
  have hlast : s.lastTask ≠ some a := by
    rw [h.shape.last]
    exact fun he => haq (List.mem_of_getLast? he)
  rw [link_eq hlast] at ht
  obtain ⟨ws, rfl, hws, hone⟩ := wakeOne_spec ht
  have hjobs : ∀ u : State, u.workers = ws → u.jobs = s.jobs := by
    intro u hu
    funext v
    rw [State.jobs, hu]
    exact hws.job v
  have hcount := h.commits.count
  have hpend := h.commits.pending
  have htake : (q ++ [a]).take j = q.take j := List.take_append_of_le_length h.shape.j_le
  have hdrop : ∀ b ∈ (q ++ [a]).drop j, b ∈ q.drop j ∨ b = a := by
    intro b hb
    rw [List.drop_append_of_le_length h.shape.j_le, List.mem_append, List.mem_singleton] at hb
    exact hb
  refine ⟨⟨h.link_shape haq, ?_, ?_, ?_, ?_⟩, ?_⟩
  · rw [hjobs _ rfl]
    constructor
    · intro v k b n hv he
      obtain ⟨h1, h2, h3⟩ := h.owners.task v k b n hv he
      have hb := hne b (List.mem_of_mem_take h1)
      rw [htake]
      exact ⟨h1, (linkMem_number hb).trans h2, (linkMem_done hb).trans h3⟩
    · exact h.owners.one
    · intro b hb hd
      rw [htake] at hb
      exact h.owners.taken b hb ((linkMem_done (hne b (List.mem_of_mem_take hb))).symm.trans hd)
    · intro b hb
      rcases hdrop b hb with hb | rfl
      · exact (linkMem_done (hne b (List.mem_of_mem_drop hb))).trans (h.owners.queued b hb)
      · exact congrArg Task.done (linkMem_self s b)
  · rw [hjobs _ rfl]
    refine { h.commits with keeps := ?_, count := ?_, pending := ?_ }
    · intro v k b hv hk
      obtain ⟨h1, h2⟩ := h.commits.keeps v k b hv hk
      have hb : b ≠ a := by
        rintro rfl
        rw [ha] at h1
        cases h1
      simp only [if_neg hb, List.mem_append, List.mem_singleton, not_or]
      exact ⟨h1, h2, hb⟩
    · simp only [List.length_append, List.length_singleton]
      omega
    · simp only [List.length_append, List.length_singleton]
      omega
  · rw [hjobs _ rfl]
    refine { h.lives with done := ?_, queued := ?_, future := ?_ }
    · intro b hb hd
      have hba : b ≠ a := by
        rintro rfl
        cases (congrArg Task.done (linkMem_self s b)).symm.trans hd
      have hbq : b ∈ q := by
        simpa [hba] using hb
      have hn : (linkMem s a b).number = (s.mem b).number := linkMem_number hba
      simp only [hn]
      exact h.lives.done b hbq ((linkMem_done hba).symm.trans hd)
    · intro b hb
      rcases hdrop b hb with hb | rfl
      · have hn : (linkMem s a b).number = (s.mem b).number :=
          linkMem_number (hne b (List.mem_of_mem_drop hb))
        simp only [hn]
        exact h.lives.queued b hb
      · simp only [linkMem_self]
        exact h.lives.future _ (Nat.le_refl _)
    · exact fun n hn => h.lives.future n (Nat.le_of_succ_le hn)
  · show Crew cfg ws s.running s.stopping (s.pending + 1) _
    constructor
    · exact hmax
    · intro v hv
      have hx := (hws.crew h.crew).exited v hv
      rw [hstop] at hx
      cases hx.1
    · exact (hws.crew h.crew).outside
    · exact (hws.crew h.crew).idle
    · exact (hws.crew h.crew).started
    · intro _
      rcases hone with ⟨v, hv⟩ | hnone
      · exact ⟨v, by rw [hv]; rfl⟩
      · -- no worker waits, so the first one is at work
        obtain ⟨h1, h2⟩ := (hws.crew h.crew).started hrun hstop 0 cfg.threadCount_pos
        have h3 : ws 0 ≠ .waiting := by
          rw [hws.eq_of_ne (hnone 0 cfg.threadCount_pos)]
          exact hnone 0 cfg.threadCount_pos
        refine ⟨0, ?_⟩
        cases hpc : ws 0 <;> simp_all [WorkerPc.active]
  · intro hc b hb
    cases hq : q with
    | nil =>
      rw [hq] at hb
      cases hb
      exact congrArg Task.done (linkMem_self s a)
    | cons c r =>
      rw [hq] at hb
      have hbc : c = b := Option.some.inj hb
      have hbq : b ∈ q := by
        rw [hq, hbc]
        exact List.mem_cons_self
      exact (linkMem_done (hne b hbq)).trans (h.ready hc b (by rw [hq]; exact hb))

/-! ## Start and end -/

theorem jobs_none (hw : ∀ w, (s.workers w).active = false) (w : Nat) : s.jobs w = none := by
  have := hw w
  unfold State.jobs
  cases hpc : s.workers w <;> simp_all [WorkerPc.job, WorkerPc.active]

/-- Idle workers give way to others that have no task either. -/
theorem Inv.idle (h : Inv cfg s q j) (hw : ∀ w, (s.workers w).active = false) {running stopping : Bool}
    {ws : Nat → WorkerPc} (hws : ∀ w, (ws w).job = none)
    (hcrew : Crew cfg ws running stopping s.pending s.nextTask) :
    Inv cfg { s with running := running, stopping := stopping, workers := ws } q j := by
  have hjobs : State.jobs { s with running := running, stopping := stopping, workers := ws } =
      s.jobs := by
    funext v
    rw [jobs_none hw v]
    exact hws v
  exact ⟨⟨h.shape, hjobs ▸ h.owners, hjobs ▸ h.commits, hjobs ▸ h.lives, hcrew⟩, h.ready⟩

theorem Inv.start (h : Inv cfg s q j) (hr : s.running = false) {threads : Nat}
    (hle : threads ≤ cfg.threadCount) :
    Inv cfg { s with
      running := true
      stopping := threads < cfg.threadCount
      workers := fun w => if w < threads then .top else .unstarted } q j := by
  have hact : ∀ w, (s.workers w).active = false := by
    intro w
    rw [h.crew.idle hr w]
    rfl
  apply h.idle hact
  · intro w
    split <;> rfl
  · constructor
    · exact h.crew.pending_le
    · intro w hw
      split at hw
      · cases hw
      · cases hw
    · intro w hw
      rw [if_neg (by omega)]
    · exact nofun
    · intro _ hs w hw
      simp only [decide_eq_false_iff_not, Nat.not_lt] at hs
      rw [if_pos (by omega)]
      exact ⟨by decide, by decide⟩
    · intro hn
      obtain ⟨v, hv⟩ := h.crew.awake hn
      rw [hact v] at hv
      cases hv

theorem Inv.shutdown (h : Inv cfg s q j) : Inv cfg { s with stopping := true }.wakeAll q j := by
  have hs : Inv cfg { s with stopping := true } q j := by
    refine ⟨{ h with crew := { h.crew with exited := ?_, started := ?_ } }, h.ready⟩
    · exact fun w hw => ⟨rfl, (h.crew.exited w hw).2⟩
    · exact fun _ hf => nomatch hf
  exact (wakeAll_wakes { s with stopping := true }).inv hs

theorem Inv.joined (h : Inv cfg s q j)
    (hw : ∀ w < cfg.threadCount, s.workers w = .exited ∨ s.workers w = .unstarted) :
    Inv cfg { s with running := false, workers := fun _ => .unstarted } q j := by
  have hact : ∀ w, (s.workers w).active = false := by
    intro w
    by_cases hlt : w < cfg.threadCount
    · rcases hw w hlt with hx | hx <;> rw [hx] <;> rfl
    · rw [h.crew.outside w (by omega)]
      rfl
  apply h.idle hact
  · exact fun _ => rfl
  · constructor
    · exact h.crew.pending_le
    · exact nofun
    · exact fun _ _ => rfl
    · exact fun _ _ => rfl
    · exact nofun
    · intro hn
      obtain ⟨v, hv⟩ := h.crew.awake hn
      rw [hact v] at hv
      cases hv

/-! ## Runs -/

theorem Inv.step (h : Inv cfg s q j) {l : Label} (ht : step cfg s l = some t) :
    ∃ q' j', Inv cfg t q' j' := by
  cases l with
  | start threads =>
    simp only [Pool.step] at ht
    split at ht
    · rename_i hg
      simp only [Bool.and_eq_true, Bool.not_eq_true', decide_eq_true_eq] at hg
      cases ht
      exact ⟨q, j, h.start hg.1 hg.2⟩
    · cases ht
  | submit a woke =>
    simp only [Pool.step] at ht
    split at ht
    · cases ht
    · rename_i ha
      split at ht
      · cases ht
        exact ⟨q, j, h⟩
      · rename_i hg
        simp only [Bool.or_eq_true, Bool.not_eq_true', decide_eq_true_eq, not_or, Bool.not_eq_false,
          Bool.not_eq_true, Nat.not_le] at hg
        exact ⟨_, j, h.submit (Bool.eq_false_of_not_eq_true ha) hg.1.1 hg.1.2 hg.2 ht⟩
  | take w =>
    simp only [Pool.step] at ht
    split at ht
    · rename_i hw
      cases ht
      exact ⟨q, h.take (Or.inl hw)⟩
    · rename_i hw
      cases ht
      exact ⟨q, h.take (Or.inr hw)⟩
    · cases ht
  | spurious w =>
    simp only [Pool.step] at ht
    split at ht
    · rename_i hw
      cases ht
      refine ⟨q, j, Wakes.inv ?_ h⟩
      intro v
      by_cases hv : v = w
      · subst v
        exact Or.inr ⟨hw, if_pos rfl⟩
      · exact Or.inl (if_neg hv)
    · cases ht
  | exec w =>
    simp only [Pool.step] at ht
    split at ht
    · rename_i a n hw
      cases ht
      exact ⟨q, j, h.exec hw⟩
    · cases ht
  | finish w woke =>
    simp only [Pool.step] at ht
    split at ht
    · rename_i a n hw
      exact h.finish hw ht
    · cases ht
  | complete w =>
    simp only [Pool.step] at ht
    split at ht
    · rename_i a n hw
      cases ht
      exact ⟨q, j, h.complete hw⟩
    · cases ht
  | free w =>
    simp only [Pool.step] at ht
    split at ht
    · rename_i a n hw
      cases ht
      exact ⟨q, j, h.free hw⟩
    · cases ht
  | relock w woke =>
    simp only [Pool.step] at ht
    split at ht
    · rename_i n hw
      exact h.relock hw ht
    · cases ht
  | shutdown =>
    simp only [Pool.step] at ht
    split at ht
    · cases ht
      exact ⟨q, j, h.shutdown⟩
    · cases ht
  | joined =>
    simp only [Pool.step] at ht
    split at ht
    · rename_i hg
      simp only [Bool.and_eq_true, List.all_eq_true, List.mem_range, Bool.or_eq_true,
        decide_eq_true_eq] at hg
      cases ht
      exact ⟨q, j, h.joined hg.2⟩
    · cases ht

theorem Reachable.inv (h : Reachable cfg s) : ∃ q j, Inv cfg s q j := by
  apply Machine.Reachable.invariant (I := fun s => ∃ q j, Inv cfg s q j) _ _ h
  · rintro s rfl
    exact ⟨[], 0, inv_start cfg⟩
  · rintro s t ⟨q, j, hi⟩ ⟨l, hl⟩
    exact hi.step hl

/-! ## Progress -/

/-- A step of a worker that was not woken for nothing. -/
def Label.works : Label → Bool
  | .take _ | .exec _ | .finish _ _ | .complete _ | .free _ | .relock _ _ => true
  | _ => false

theorem exists_wakeOne (cfg : Config) (s : State) : ∃ woke t, s.wakeOne cfg woke = some t := by
  by_cases h : ∀ v < cfg.threadCount, s.workers v ≠ .waiting
  · exact ⟨none, s, by simp only [State.wakeOne, if_pos h]⟩
  · simp only [not_forall, not_not] at h
    obtain ⟨v, -, hv⟩ := h
    exact ⟨some v, s.setWorker v .woken, by simp only [State.wakeOne, if_pos hv]⟩

theorem exists_commitLoop (cfg : Config) (s : State) (w : Nat) :
    ∃ woke t, s.commitLoop cfg w woke = some t := by
  unfold State.commitLoop
  cases s.ready with
  | some a => exact ⟨none, _, rfl⟩
  | none =>
    simp only [Option.map_eq_some_iff]
    split
    · obtain ⟨woke, t, ht⟩ := exists_wakeOne cfg { s with committing := false }.wakeAll
      exact ⟨woke, _, t, ht, rfl⟩
    · obtain ⟨woke, t, ht⟩ := exists_wakeOne cfg { s with committing := false }
      exact ⟨woke, _, t, ht, rfl⟩

theorem exists_finish (cfg : Config) (s : State) (w a : Nat) :
    ∃ woke t, s.finish cfg w a woke = some t := by
  unfold State.finish
  simp only
  split
  · obtain ⟨woke, t, ht⟩ := exists_wakeOne cfg (s.setTask a { s.mem a with done := true })
    exact ⟨woke, t.setWorker w .top, by rw [ht]; rfl⟩
  · exact exists_commitLoop cfg _ w

/-- An active worker can make its next step. -/
theorem exists_step (cfg : Config) (h : (s.workers w).active = true) :
    ∃ l t, l.works = true ∧ step cfg s l = some t := by
  cases hw : s.workers w with
  | unstarted => rw [hw] at h; cases h
  | waiting => rw [hw] at h; cases h
  | exited => rw [hw] at h; cases h
  | top => exact ⟨.take w, _, rfl, by simp only [step, hw]; rfl⟩
  | woken => exact ⟨.take w, _, rfl, by simp only [step, hw]; rfl⟩
  | busy job =>
    cases job with
    | exec a n => exact ⟨.exec w, _, rfl, by simp only [step, hw]; rfl⟩
    | executed a n =>
      obtain ⟨woke, t, ht⟩ := exists_finish cfg s w a
      exact ⟨.finish w woke, t, rfl, by simp only [step, hw, ht]⟩
    | completing a n => exact ⟨.complete w, _, rfl, by simp only [step, hw]; rfl⟩
    | freeing a n => exact ⟨.free w, _, rfl, by simp only [step, hw]; rfl⟩
    | relock n =>
      obtain ⟨woke, t, ht⟩ := exists_commitLoop cfg
        { s with pending := s.pending - 1, completed := s.completed + 1 } w
      exact ⟨.relock w woke, t, rfl, by simp only [step, hw, ht]⟩

theorem active_of_job {job : Job} (h : s.jobs w = some job) : (s.workers w).active = true := by
  unfold State.jobs at h
  cases hpc : s.workers w <;> simp_all [WorkerPc.job, WorkerPc.active]

/-- While a task is pending, some worker goes on. -/
theorem Inv.awake (h : Inv cfg s q j) (hp : 0 < s.pending) : ∃ w, (s.workers w).active = true := by
  by_cases hn : s.nextTask = none
  · cases hc : s.committing with
    | true =>
      obtain ⟨w, job, -, hw, -⟩ := h.commits.flag.mp hc
      exact ⟨w, active_of_job hw⟩
    | false =>
      -- all tasks were started, and the head of the list is not done
      have hpend := h.commits.pending
      rw [hc] at hpend
      have hdrop : q.drop j = [] := List.head?_eq_none_iff.mp (h.shape.next.symm.trans hn)
      have htake : q.take j = q := by
        rw [← List.take_append_drop j q, hdrop, List.append_nil, List.take_take, Nat.min_self]
      cases hq : q with
      | nil =>
        rw [hq] at hpend
        simp only [List.length_nil, Bool.false_eq_true, if_false] at hpend
        omega
      | cons a r =>
        have ha : a ∈ q.take j := by
          rw [htake, hq]
          exact List.mem_cons_self
        obtain ⟨w, job, -, hw, -⟩ := h.owners.taken a ha (h.ready hc a (by rw [hq]; rfl))
        exact ⟨w, active_of_job hw⟩
  · exact h.crew.awake hn

/-! ## What the pool is for -/

/-- What holds in every state: the tasks are served one by one, in their order. -/
structure Served (cfg : Config) (s : State) : Prop where
  /-- `next_task` is the first task of the list that no worker took. -/
  list : ∃ started unstarted, Segment (fun a => (s.mem a).next) s.firstTask (started ++ unstarted) none ∧
    s.lastTask = (started ++ unstarted).getLast? ∧ s.nextTask = unstarted.head? ∧
    (∀ a ∈ started, life s.log (s.mem a).number = [.exec (s.mem a).number] ∨
      ∃ w job, s.workers w = .busy job ∧ job.executes = some (a, (s.mem a).number)) ∧
    ∀ a ∈ unstarted, life s.log (s.mem a).number = [] ∧
      ∀ w job n, s.workers w = .busy job → job.executes ≠ some (a, n)
  /-- Executed once, then completed once, then freed once. -/
  life : ∀ n, life s.log n <+: [.exec n, .complete n, .free n]
  accepted : ∀ n, s.submitted ≤ n → Pool.life s.log n = []
  completed : ∀ n < s.completed, Pool.life s.log n = [.exec n, .complete n, .free n]
  /-- A task is not completed before its commit ends under the lock. -/
  incomplete : ∀ n, s.completed ≤ n → Pool.life s.log n = [.exec n, .complete n, .free n] →
    ∃ w, s.workers w = .busy (.relock n)
  order : completions s.log = List.range (completions s.log).length
  alone : ∀ w w' a a' n n', s.workers w = .busy (.completing a n) →
    s.workers w' = .busy (.completing a' n') → w = w'
  pending : s.pending + s.completed = s.submitted
  pending_le : s.pending ≤ cfg.maxPending
  exited : ∀ w, s.workers w = .exited → s.stopping = true ∧ s.completed = s.submitted
  progress : s.completed < s.submitted → ∃ l t, l.works = true ∧ step cfg s l = some t

/-- A life is that of a task that is past, in a job, done, queued or not yet there. -/
theorem Inv.life_cases (h : Inv cfg s q j) (n : Nat) :
    n < s.completed ∨ (∃ w job, s.workers w = .busy job ∧ job.number = n) ∨
      life s.log n = [.exec n] ∨ life s.log n = [] := by
  by_cases hpast : n < s.completed
  · exact Or.inl hpast
  by_cases hfuture : s.submitted ≤ n
  · exact Or.inr (Or.inr (Or.inr (h.lives.future n hfuture)))
  have hbusy : ∀ w job, s.jobs w = some job → s.workers w = .busy job := by
    intro w job hw
    unfold State.jobs at hw
    cases hpc : s.workers w <;> simp_all [WorkerPc.job]
  have hcount := h.commits.count
  by_cases hc : s.committing = true ∧ n = s.completed
  · obtain ⟨w, job, m, hw, hm⟩ := h.commits.flag.mp hc.1
    have hm' := h.commits.number w job m hw hm
    refine Or.inr (Or.inl ⟨w, job, hbusy w job hw, ?_⟩)
    rw [hc.2, ← hm']
    cases job <;> simp_all [Job.commits, Job.number]
  · -- the task is on the list
    have hmem : n ∈ q.map fun a => (s.mem a).number := by
      rw [h.shape.numbers, List.mem_range'_1]
      cases hcm : s.committing <;> simp_all <;> omega
    obtain ⟨a, ha, rfl⟩ := List.mem_map.mp hmem
    cases hd : (s.mem a).done with
    | true => exact Or.inr (Or.inr (Or.inl (h.lives.done a ha hd)))
    | false =>
      rw [← List.take_append_drop j q, List.mem_append] at ha
      rcases ha with ha | ha
      · obtain ⟨w, job, m, hw, he⟩ := h.owners.taken a ha hd
        obtain ⟨-, hm, -⟩ := h.owners.task w job a m hw he
        refine Or.inr (Or.inl ⟨w, job, hbusy w job hw, ?_⟩)
        rw [hm]
        cases job <;> simp_all [Job.executes, Job.number]
      · exact Or.inr (Or.inr (Or.inr (h.lives.queued a ha)))

theorem Job.lived_prefix (job : Job) :
    job.lived <+: [.exec job.number, .complete job.number, .free job.number] := by
  cases job
  · exact ⟨_, rfl⟩
  · exact ⟨_, rfl⟩
  · exact ⟨_, rfl⟩
  · exact ⟨_, rfl⟩
  · exact ⟨[], rfl⟩

theorem Inv.served (h : Inv cfg s q j) : Served cfg s := by
  have hcount := h.commits.count
  have hpend := h.commits.pending
  constructor
  · refine ⟨q.take j, q.drop j, ?_, ?_, h.shape.next, ?_, ?_⟩
    · rw [List.take_append_drop]
      exact h.shape.linked
    · rw [List.take_append_drop]
      exact h.shape.last
    · intro a ha
      cases hd : (s.mem a).done with
      | true => exact Or.inl (h.lives.done a (List.mem_of_mem_take ha) hd)
      | false =>
        obtain ⟨w, job, n, hw, he⟩ := h.owners.taken a ha hd
        obtain ⟨-, hn, -⟩ := h.owners.task w job a n hw he
        refine Or.inr ⟨w, job, ?_, by rw [hn, he]⟩
        unfold State.jobs at hw
        cases hpc : s.workers w <;> simp_all [WorkerPc.job]
    · intro a ha
      refine ⟨h.lives.queued a ha, fun w job n hw he => ?_⟩
      have hm := (h.owners.task w job a n (jobs_of_busy hw) he).1
      exact List.disjoint_take_drop h.shape.nodup (Nat.le_refl j) hm ha
  · intro n
    rcases h.life_cases n with hn | ⟨w, job, hw, rfl⟩ | hn | hn
    · rw [h.lives.past n hn]
    · rw [h.lives.job w job (jobs_of_busy hw)]
      exact job.lived_prefix
    · rw [hn]
      exact ⟨_, rfl⟩
    · rw [hn]
      exact ⟨_, rfl⟩
  · exact h.lives.future
  · exact h.lives.past
  · intro n hn hl
    rcases h.life_cases n with hn' | ⟨w, job, hw, rfl⟩ | hn' | hn'
    · omega
    · refine ⟨w, ?_⟩
      rw [h.lives.job w job (jobs_of_busy hw)] at hl
      rw [hw]
      cases job <;> simp_all [Job.lived, Job.number]
    · rw [hn'] at hl
      simp at hl
    · rw [hn'] at hl
      cases hl
  · rw [h.lives.order, List.length_range]
  · exact fun w w' a a' n n' hw hw' =>
      h.commits.one w w' _ _ n n' (jobs_of_busy hw) (jobs_of_busy hw') rfl rfl
  · omega
  · exact h.crew.pending_le
  · intro w hw
    obtain ⟨h1, h2⟩ := h.crew.exited w hw
    exact ⟨h1, by omega⟩
  · intro hlt
    obtain ⟨w, hw⟩ := h.awake (by omega)
    exact exists_step cfg hw

/-- For any number of workers and any interleaving. -/
theorem threadpool_serves (cfg : Config) {s : State} (h : Reachable cfg s) : Served cfg s := by
  obtain ⟨q, j, hi⟩ := h.inv
  exact hi.served

/-- The second task is done before the first, and is completed after it by the worker of the
first; both workers exit after the shutdown. -/
theorem threadpool_serves_two : ∃ s, Reachable ⟨2, 2, by decide, by decide⟩ s ∧
    s.log = [.exec 1, .exec 0, .complete 0, .free 0, .complete 1, .free 1] ∧
    s.workers 0 = .exited ∧ s.workers 1 = .exited ∧ Served ⟨2, 2, by decide, by decide⟩ s := by
  have hrun : ∃ s, Reachable ⟨2, 2, by decide, by decide⟩ s ∧
      (s.log = [.exec 1, .exec 0, .complete 0, .free 0, .complete 1, .free 1] &&
        s.workers 0 = .exited && s.workers 1 = .exited) = true :=
    Machine.Reachable.exists_of_run (step ⟨2, 2, by decide, by decide⟩) (fun _ l _ h => ⟨l, h⟩)
      [.start 2, .submit 7 none, .submit 8 none, .take 0, .take 1, .exec 1, .finish 1 none, .shutdown,
        .exec 0, .take 1, .finish 0 none, .complete 0, .free 0, .relock 0 none, .complete 0, .free 0,
        .relock 0 none, .take 0, .take 1]
      (fun s => s.log = [.exec 1, .exec 0, .complete 0, .free 0, .complete 1, .free 1] &&
        s.workers 0 = .exited && s.workers 1 = .exited) (by decide)
  obtain ⟨s, hs, hp⟩ := hrun
  simp only [Bool.and_eq_true, decide_eq_true_eq] at hp
  exact ⟨s, hs, hp.1.1, hp.1.2, hp.2, threadpool_serves _ hs⟩

end SentryNative.Pool
