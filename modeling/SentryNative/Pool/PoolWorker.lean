import SentryNative.Pool.PoolSteps

/-!
# The steps of a worker

A worker takes a task, executes it, marks it and commits what is ready; each of
these steps keeps the invariant.
-/

namespace SentryNative.Pool

open Linked

variable {cfg : Config} {s t : State} {q : List Nat} {j w : Nat}

/-! ## Another job for the same task -/

section Swap

variable {jobs : Nat → Option Job} {job : Job}

theorem Owners.swap {mem : Nat → Task} (h : Owners mem jobs q j) (job' : Job) (hw : jobs w = some job)
    (he : job'.executes = job.executes) : Owners mem (setJob jobs w (some job')) q j := by
  have hcases : ∀ v k a n, setJob jobs w (some job') v = some k → k.executes = some (a, n) →
      ∃ k', jobs v = some k' ∧ k'.executes = some (a, n) := by
    intro v k a n hv hk
    rcases setJob_cases hv with ⟨rfl, hj⟩ | ⟨-, hj⟩
    · cases hj
      exact ⟨job, hw, he ▸ hk⟩
    · exact ⟨k, hj, hk⟩
  constructor
  · intro v k a n hv hk
    obtain ⟨k', hv', hk'⟩ := hcases v k a n hv hk
    exact h.task v k' a n hv' hk'
  · intro v v' k k' a n n' hv hv' hk hk'
    obtain ⟨l, hl, hle⟩ := hcases v k a n hv hk
    obtain ⟨l', hl', hle'⟩ := hcases v' k' a n' hv' hk'
    exact h.one v v' l l' a n n' hl hl' hle hle'
  · intro a ha hd
    obtain ⟨v, k, n, hv, hk⟩ := h.taken a ha hd
    by_cases hvw : v = w
    · subst v
      rw [hw] at hv
      cases hv
      exact ⟨w, job', n, setJob_self, he ▸ hk⟩
    · exact ⟨v, k, n, by rw [setJob_of_ne hvw, hv], hk⟩
  · exact h.queued

theorem Commits.swap {committing : Bool} {completed submitted pending : Nat}
    {allocated allocated' : Nat → Bool}
    (h : Commits jobs committing completed submitted pending allocated q) (job' : Job)
    (hw : jobs w = some job) (hc : job'.commits = job.commits)
    (hk : ∀ v k a, setJob jobs w (some job') v = some k → k.keeps = some a →
      allocated' a = true ∧ a ∉ q) :
    Commits (setJob jobs w (some job')) committing completed submitted pending allocated' q := by
  have hcases : ∀ v k n, setJob jobs w (some job') v = some k → k.commits = some n →
      ∃ k', jobs v = some k' ∧ k'.commits = some n := by
    intro v k n hv hk
    rcases setJob_cases hv with ⟨rfl, hj⟩ | ⟨-, hj⟩
    · cases hj
      exact ⟨job, hw, hc ▸ hk⟩
    · exact ⟨k, hj, hk⟩
  constructor
  · intro v v' k k' n n' hv hv' hk hk'
    obtain ⟨l, hl, hle⟩ := hcases v k n hv hk
    obtain ⟨l', hl', hle'⟩ := hcases v' k' n' hv' hk'
    exact h.one v v' l l' n n' hl hl' hle hle'
  · rw [h.flag]
    constructor
    · rintro ⟨v, k, n, hv, hk⟩
      by_cases hvw : v = w
      · subst v
        rw [hw] at hv
        cases hv
        exact ⟨w, job', n, setJob_self, hc ▸ hk⟩
      · exact ⟨v, k, n, by rw [setJob_of_ne hvw, hv], hk⟩
    · rintro ⟨v, k, n, hv, hk⟩
      obtain ⟨k', hv', hk'⟩ := hcases v k n hv hk
      exact ⟨v, k', n, hv', hk'⟩
  · intro v k n hv hk
    obtain ⟨k', hv', hk'⟩ := hcases v k n hv hk
    exact h.number v k' n hv' hk'
  · exact hk
  · exact h.count
  · exact h.pending

/-- One more event, for a task that is on nobody else's mind. -/
theorem Lives.event {log : List Event} {mem : Nat → Task} {committing : Bool}
    {completed submitted : Nat} (h : Lives log mem jobs committing completed submitted q j)
    (job' : Job) (hw : jobs w = some job) (hn : job'.number = job.number) {e : Event}
    (he : e.number = job.number) (hl : job'.lived = job.lived ++ [e]) (hcomp : completions [e] = [])
    (hpast : completed ≤ job.number) (hlt : job.number < submitted)
    (hne : ∀ v k, v ≠ w → jobs v = some k → k.number ≠ job.number)
    (hdone : ∀ b ∈ q, (mem b).done = true → (mem b).number ≠ job.number)
    (hqueued : ∀ b ∈ q.drop j, (mem b).number ≠ job.number) :
    Lives (log ++ [e]) mem (setJob jobs w (some job')) committing completed submitted q j := by
  have hlife : ∀ n, n ≠ job.number → life (log ++ [e]) n = life log n := by
    intro n hn
    exact life_append_of_ne log (by rw [he]; exact Ne.symm hn)
  constructor
  · intro n hn
    rw [hlife n (by omega)]
    exact h.past n hn
  · intro v k hv
    rcases setJob_cases hv with ⟨-, hj⟩ | ⟨hvw, hj⟩
    · cases hj
      have hself := life_append_self log e
      rw [he, h.job w job hw] at hself
      rw [hn, hself, hl]
    · rw [hlife _ (hne v k hvw hj)]
      exact h.job v k hj
  · intro b hb hd
    rw [hlife _ (hdone b hb hd)]
    exact h.done b hb hd
  · intro b hb
    rw [hlife _ (hqueued b hb)]
    exact h.queued b hb
  · intro n hn
    rw [hlife n (by omega)]
    exact h.future n hn
  · rw [completions_append, hcomp, List.append_nil]
    exact h.order

end Swap

/-! ## Tasks of different workers -/

/-- A task is on the list or before it. -/
theorem Inv₀.number_ne (h : Inv₀ cfg s q j) {v : Nat} {job job' : Job} (hvw : v ≠ w)
    (hv : s.jobs v = some job) (hw : s.jobs w = some job') : job.number ≠ job'.number := by
  have hexec : ∀ v job a n, s.jobs v = some job → job.executes = some (a, n) →
      job.number = n ∧ a ∈ q ∧ (s.mem a).number = n ∧
        s.completed + (if s.committing then 1 else 0) ≤ n := by
    intro v job a n hv he
    obtain ⟨ha, hn, -⟩ := h.owners.task v job a n hv he
    have haq := List.mem_of_mem_take ha
    have hb := h.shape.number_bounds haq
    have hc := h.commits.count
    refine ⟨by cases job <;> simp_all [Job.executes, Job.number], haq, hn, by omega⟩
  have hcommit : ∀ v job n, s.jobs v = some job → job.commits = some n →
      job.number = s.completed ∧ s.committing = true := by
    intro v job n hv hc
    have hnum := h.commits.number v job n hv hc
    refine ⟨?_, h.commits.flag.mpr ⟨v, job, n, hv, hc⟩⟩
    cases job <;> simp_all [Job.commits, Job.number]
  have hsplit : ∀ job : Job, (∃ a n, job.executes = some (a, n)) ∨ ∃ n, job.commits = some n := by
    intro job
    cases job <;> simp [Job.executes, Job.commits]
  intro he
  rcases hsplit job with ⟨a, n, hx⟩ | ⟨n, hx⟩
  · obtain ⟨h1, h2, h3, h4⟩ := hexec v job a n hv hx
    rcases hsplit job' with ⟨a', n', hx'⟩ | ⟨n', hx'⟩
    · obtain ⟨h1', h2', h3', h4'⟩ := hexec w job' a' n' hw hx'
      have haa : a = a' := h.shape.number_inj h2 h2' (by rw [h3, h3', ← h1, ← h1', he])
      subst a'
      exact hvw (h.owners.one v w job job' a n n' hv hw hx hx')
    · obtain ⟨h1', h2'⟩ := hcommit w job' n' hw hx'
      rw [h2'] at h4
      simp only [if_true] at h4
      omega
  · obtain ⟨h1, h2⟩ := hcommit v job n hv hx
    rcases hsplit job' with ⟨a', n', hx'⟩ | ⟨n', hx'⟩
    · obtain ⟨h1', h2', h3', h4'⟩ := hexec w job' a' n' hw hx'
      rw [h2] at h4'
      simp only [if_true] at h4'
      omega
    · exact hvw (h.commits.one v w job job' n n' hv hw hx hx')

/-! ## Steps of one worker -/

theorem jobs_of_busy {job : Job} (h : s.workers w = .busy job) : s.jobs w = some job := by
  simp [State.jobs, h, WorkerPc.job]

theorem active_of_busy {job : Job} (h : s.workers w = .busy job) : (s.workers w).active = true := by
  rw [h]
  rfl

/-- A worker takes the first task that was not started. -/
theorem Inv.takeTask (h : Inv cfg s q j) {a : Nat} (ha : s.nextTask = some a)
    (hw : (s.workers w).active = true) (hj : s.jobs w = none) :
    Inv cfg { s.setWorker w (.busy (.exec a (s.mem a).number)) with nextTask := (s.mem a).next }
      q (j + 1) := by
  have hhead : (q.drop j).head? = some a := h.shape.next.symm.trans ha
  have hdrop : q.drop j = a :: q.drop (j + 1) := by
    cases hd : q.drop j with
    | nil => rw [hd] at hhead; cases hhead
    | cons b r =>
      rw [hd] at hhead
      cases hhead
      rw [← List.tail_drop, hd]
      rfl
  have htake : ∀ b, b ∈ q.take (j + 1) ↔ b ∈ q.take j ∨ b = a := by
    intro b
    have hadd : q.take (j + 1) = q.take j ++ [a] := by
      rw [List.take_add, hdrop]
      rfl
    rw [hadd, List.mem_append, List.mem_singleton]
  have hlt : j < q.length := by
    by_contra hge
    rw [List.drop_eq_nil_of_le (by omega)] at hdrop
    cases hdrop
  have haq : a ∈ q := List.mem_of_mem_drop (by rw [hdrop]; exact List.mem_cons_self)
  have had : a ∈ q.drop j := by
    rw [hdrop]
    exact List.mem_cons_self
  have hafter : a ∉ q.take j := fun hm =>
    List.disjoint_take_drop h.shape.nodup (Nat.le_refl j) hm had
  have hjobs : State.jobs { s.setWorker w (.busy (.exec a (s.mem a).number)) with
      nextTask := (s.mem a).next } = setJob s.jobs w (some (.exec a (s.mem a).number)) :=
    jobs_setWorker s w _
  refine ⟨⟨?_, ?_, ?_, ?_, ?_⟩, h.ready⟩
  · refine { h.shape with j_le := hlt, next := ?_ }
    have hlink := h.shape.linked
    rw [← List.take_append_drop j q, segment_append, hdrop] at hlink
    obtain ⟨m, -, -, htail⟩ := hlink
    exact htail.start_eq
  · rw [hjobs]
    constructor
    · intro v job b n hv he
      rcases setJob_cases hv with ⟨-, hk⟩ | ⟨-, hk⟩
      · cases hk
        cases he
        exact ⟨(htake a).mpr (Or.inr rfl), rfl, h.owners.queued a had⟩
      · obtain ⟨h1, h2, h3⟩ := h.owners.task v job b n hk he
        exact ⟨(htake b).mpr (Or.inl h1), h2, h3⟩
    · intro v v' job job' b n n' hv hv' he he'
      rcases setJob_cases hv with ⟨hvw, hk⟩ | ⟨-, hk⟩
      · rcases setJob_cases hv' with ⟨hvw', -⟩ | ⟨-, hk'⟩
        · rw [hvw, hvw']
        · cases hk
          cases he
          exact absurd (h.owners.task v' job' a n' hk' he').1 hafter
      · rcases setJob_cases hv' with ⟨-, hk'⟩ | ⟨-, hk'⟩
        · cases hk'
          cases he'
          exact absurd (h.owners.task v job a n hk he).1 hafter
        · exact h.owners.one v v' job job' b n n' hk hk' he he'
    · intro b hb hd
      rcases (htake b).mp hb with hb | rfl
      · obtain ⟨v, job, n, hv, he⟩ := h.owners.taken b hb hd
        refine ⟨v, job, n, ?_, he⟩
        rw [setJob_of_ne, hv]
        rintro rfl
        rw [hj] at hv
        cases hv
      · exact ⟨w, _, _, setJob_self, rfl⟩
    · exact fun b hb => h.owners.queued b (by rw [hdrop]; exact List.mem_cons_of_mem a hb)
  · rw [hjobs]
    apply h.commits.noCommit
    · intro job hw'
      rw [hj] at hw'
      cases hw'
    · intro job hk
      cases hk
      exact ⟨rfl, rfl⟩
  · rw [hjobs]
    refine { h.lives with job := ?_, queued := ?_ }
    · intro v job hv
      rcases setJob_cases hv with ⟨-, hk⟩ | ⟨-, hk⟩
      · cases hk
        exact h.lives.queued a had
      · exact h.lives.job v job hk
    · exact fun b hb => h.lives.queued b (by rw [hdrop]; exact List.mem_cons_of_mem a hb)
  · exact h.crew.setActive hw rfl (Nat.le_refl _)

/-- A worker that finds no task waits, or exits when nothing is pending. -/
theorem Inv.takeNothing (h : Inv cfg s q j) (hn : s.nextTask = none)
    (hw : (s.workers w).active = true) (hj : s.jobs w = none) {pc : WorkerPc} (hp : pc.job = none)
    (hu : pc ≠ .unstarted) (he : pc = .exited → s.stopping = true ∧ s.pending = 0) :
    Inv cfg (s.setWorker w pc) q j := by
  have hjobs : (s.setWorker w pc).jobs = s.jobs := by
    rw [jobs_setWorker]
    funext v
    split
    · rename_i hv
      rw [hv, hp, hj]
    · rfl
  refine ⟨⟨h.shape, ?_, ?_, ?_, ?_⟩, h.ready⟩
  · rw [hjobs]
    exact h.owners
  · rw [hjobs]
    exact h.commits
  · rw [hjobs]
    exact h.lives
  · constructor
    · exact h.crew.pending_le
    · intro v hv
      simp only [State.setWorker] at hv
      split at hv
      · exact he hv
      · exact h.crew.exited v hv
    · intro v hv
      simp only [State.setWorker]
      split
      · rename_i hvw
        subst v
        rw [h.crew.outside w hv] at hw
        cases hw
      · exact h.crew.outside v hv
    · intro hr v
      rw [h.crew.idle hr w] at hw
      cases hw
    · intro hr hs v hv
      simp only [State.setWorker]
      split
      · refine ⟨hu, fun hx => ?_⟩
        have hst : s.stopping = false := hs
        rw [(he hx).1] at hst
        cases hst
      · exact h.crew.started hr hs v hv
    · exact fun hne => absurd hn hne

theorem Inv.take (h : Inv cfg s q j) (hw : s.workers w = .top ∨ s.workers w = .woken) :
    ∃ j', Inv cfg (s.take w) q j' := by
  have hact : (s.workers w).active = true := by
    rcases hw with hw | hw <;> rw [hw] <;> rfl
  have hj : s.jobs w = none := by
    rcases hw with hw | hw <;> simp [State.jobs, hw, WorkerPc.job]
  unfold State.take
  cases hn : s.nextTask with
  | some a => exact ⟨j + 1, h.takeTask hn hact hj⟩
  | none =>
    simp only
    split
    · rename_i hst
      simp only [Bool.and_eq_true, decide_eq_true_eq] at hst
      exact ⟨j, h.takeNothing hn hact hj rfl (by decide) fun _ => hst⟩
    · exact ⟨j, h.takeNothing hn hact hj rfl (by decide) fun h => by cases h⟩

/-- `exec_func` is called. -/
theorem Inv.exec (h : Inv cfg s q j) {a n : Nat} (hw : s.workers w = .busy (.exec a n)) :
    Inv cfg { s.setWorker w (.busy (.executed a n)) with log := s.log ++ [.exec n] } q j := by
  have hj := jobs_of_busy hw
  obtain ⟨ha, hn, hd⟩ := h.owners.task w _ a n hj rfl
  have haq := List.mem_of_mem_take ha
  have hb := h.shape.number_bounds haq
  have hc := h.commits.count
  have hjobs : State.jobs { s.setWorker w (.busy (.executed a n)) with log := s.log ++ [.exec n] } =
      setJob s.jobs w (some (.executed a n)) := jobs_setWorker s w _
  refine ⟨⟨h.shape, ?_, ?_, ?_, h.crew.setActive (active_of_busy hw) rfl (Nat.le_refl _)⟩, h.ready⟩
  · rw [hjobs]
    exact h.owners.swap (.executed a n) hj rfl
  · rw [hjobs]
    apply h.commits.noCommit
    · intro job hk
      rw [hj] at hk
      cases hk
      rfl
    · intro job hk
      cases hk
      exact ⟨rfl, rfl⟩
  · rw [hjobs]
    apply h.lives.event (.executed a n) hj rfl rfl rfl rfl
    · simp only [Job.number]
      omega
    · simp only [Job.number]
      omega
    · exact fun v k hv hk => h.number_ne hv hk hj
    · intro b hbq hbd he
      have hba : b = a := h.shape.number_inj hbq haq (he.trans hn.symm)
      subst b
      rw [hd] at hbd
      cases hbd
    · intro b hbq he
      have hba : b = a := h.shape.number_inj (List.mem_of_mem_drop hbq) haq (he.trans hn.symm)
      subst b
      exact List.disjoint_take_drop h.shape.nodup (Nat.le_refl j) ha hbq

/-- `complete_func` returns. -/
theorem Inv.complete (h : Inv cfg s q j) {a n : Nat} (hw : s.workers w = .busy (.completing a n)) :
    Inv cfg (s.setWorker w (.busy (.freeing a n))) q j := by
  have hj := jobs_of_busy hw
  have hjobs : (s.setWorker w (.busy (.freeing a n))).jobs = setJob s.jobs w (some (.freeing a n)) :=
    jobs_setWorker s w _
  refine ⟨⟨h.shape, ?_, ?_, ?_, h.crew.setActive (active_of_busy hw) rfl (Nat.le_refl _)⟩, h.ready⟩
  · rw [hjobs]
    exact h.owners.swap (.freeing a n) hj rfl
  · rw [hjobs]
    apply h.commits.swap (.freeing a n) hj rfl
    intro v k b hv hk
    rcases setJob_cases hv with ⟨-, hk'⟩ | ⟨-, hk'⟩
    · cases hk'
      cases hk
      exact h.commits.keeps w _ a hj rfl
    · exact h.commits.keeps v k b hk' hk
  · rw [hjobs]
    refine { h.lives with job := ?_ }
    intro v job hv
    rcases setJob_cases hv with ⟨-, hk⟩ | ⟨-, hk⟩
    · cases hk
      exact h.lives.job w (.completing a n) hj
    · exact h.lives.job v job hk

/-- The task is freed. -/
theorem Inv.free (h : Inv cfg s q j) {a n : Nat} (hw : s.workers w = .busy (.freeing a n)) :
    Inv cfg { s.setWorker w (.busy (.relock n)) with
      allocated := fun b => if b = a then false else s.allocated b
      log := s.log ++ [.free n] } q j := by
  have hj := jobs_of_busy hw
  obtain ⟨-, haq⟩ := h.commits.keeps w _ a hj rfl
  have hn : n = s.completed := h.commits.number w _ n hj rfl
  have hflag : s.committing = true := h.commits.flag.mpr ⟨w, _, n, hj, rfl⟩
  have hc := h.commits.count
  rw [hflag] at hc
  simp only [if_true] at hc
  have hlist : ∀ b ∈ q, (s.mem b).number ≠ n := by
    intro b hb
    have := h.shape.number_bounds hb
    omega
  have hjobs : State.jobs { s.setWorker w (.busy (.relock n)) with
      allocated := fun b => if b = a then false else s.allocated b
      log := s.log ++ [.free n] } = setJob s.jobs w (some (.relock n)) := jobs_setWorker s w _
  refine ⟨⟨?_, ?_, ?_, ?_, h.crew.setActive (active_of_busy hw) rfl (Nat.le_refl _)⟩, h.ready⟩
  · apply h.shape.congr (fun _ _ => ⟨rfl, rfl⟩)
    intro b hb
    have hne : b ≠ a := fun he => haq (he ▸ hb)
    simp only [if_neg hne]
    exact h.shape.allocated b hb
  · rw [hjobs]
    exact h.owners.swap (.relock n) hj rfl
  · rw [hjobs]
    apply h.commits.swap (.relock n) hj rfl
    intro v k b hv hk
    rcases setJob_cases hv with ⟨-, hk'⟩ | ⟨hne, hk'⟩
    · cases hk'
      cases hk
    · -- no other worker commits
      have hcommits : ∃ m, k.commits = some m := by
        cases k <;> simp_all [Job.keeps, Job.commits]
      obtain ⟨m, hm⟩ := hcommits
      exact absurd (h.commits.one v w k _ m n hk' hj hm rfl) hne
  · rw [hjobs]
    apply h.lives.event (.relock n) hj rfl rfl rfl rfl
    · simp only [Job.number]
      omega
    · simp only [Job.number]
      omega
    · exact fun v k hv hk => h.number_ne hv hk hj
    · exact fun b hb _ => hlist b hb
    · exact fun b hb => hlist b (List.mem_of_mem_drop hb)

/-! ## Tasks that end -/

/-- `exec_func` returned: the task is done and its worker has none. -/
theorem Inv.executed (h : Inv cfg s q j) {a n : Nat} (hw : s.workers w = .busy (.executed a n)) :
    Inv₀ cfg ((s.setTask a { s.mem a with done := true }).setWorker w .top) q j := by
  have hj := jobs_of_busy hw
  obtain ⟨ha, hn, hd⟩ := h.owners.task w _ a n hj rfl
  have hjobs : ((s.setTask a { s.mem a with done := true }).setWorker w .top).jobs =
      setJob s.jobs w none := jobs_setWorker _ w _
  have hnext : ∀ b, ((s.setTask a { s.mem a with done := true }).mem b).next = (s.mem b).next := by
    intro b
    simp only [State.setTask]
    split
    · rename_i hb
      rw [hb]
    · rfl
  have hnumber : ∀ b, ((s.setTask a { s.mem a with done := true }).mem b).number =
      (s.mem b).number := by
    intro b
    simp only [State.setTask]
    split
    · rename_i hb
      rw [hb]
    · rfl
  have hself : ((s.setTask a { s.mem a with done := true }).mem a).done = true := by
    simp [State.setTask]
  have hother : ∀ b, b ≠ a → (s.setTask a { s.mem a with done := true }).mem b = s.mem b := by
    intro b hb
    simp [State.setTask, hb]
  have hqueued : ∀ b ∈ q.drop j, b ≠ a := by
    rintro b hb rfl
    exact List.disjoint_take_drop h.shape.nodup (Nat.le_refl j) ha hb
  -- nobody else executes this task
  have howner : ∀ v k b m, setJob s.jobs w none v = some k → k.executes = some (b, m) →
      s.jobs v = some k ∧ b ≠ a := by
    intro v k b m hv he
    rcases setJob_cases hv with ⟨-, hk⟩ | ⟨hvw, hk⟩
    · cases hk
    · refine ⟨hk, ?_⟩
      rintro rfl
      exact hvw (h.owners.one v w k _ b m n hk hj he rfl)
  refine ⟨?_, ?_, ?_, ?_, h.crew.setActive (active_of_busy hw) rfl (Nat.le_refl _)⟩
  · exact h.shape.congr (fun b _ => ⟨hnext b, hnumber b⟩) h.shape.allocated
  · rw [hjobs]
    constructor
    · intro v k b m hv he
      obtain ⟨hk, hb⟩ := howner v k b m hv he
      obtain ⟨h1, h2, h3⟩ := h.owners.task v k b m hk he
      exact ⟨h1, (hnumber b).trans h2, (congrArg Task.done (hother b hb)).trans h3⟩
    · intro v v' k k' b m m' hv hv' he he'
      exact h.owners.one v v' k k' b m m' (howner v k b m hv he).1 (howner v' k' b m' hv' he').1
        he he'
    · intro b hb hbd
      have hba : b ≠ a := by
        rintro rfl
        exact absurd (hself.symm.trans hbd) (by decide)
      obtain ⟨v, k, m, hv, he⟩ := h.owners.taken b hb
        ((congrArg Task.done (hother b hba)).symm.trans hbd)
      refine ⟨v, k, m, ?_, he⟩
      rw [setJob_of_ne, hv]
      rintro rfl
      rw [hj] at hv
      cases hv
      cases he
      exact hba rfl
    · exact fun b hb => (congrArg Task.done (hother b (hqueued b hb))).trans (h.owners.queued b hb)
  · rw [hjobs]
    apply h.commits.noCommit
    · intro k hk
      rw [hj] at hk
      cases hk
      rfl
    · exact nofun
  · rw [hjobs]
    refine { h.lives.setNone with done := ?_, queued := ?_ }
    · intro b hb hbd
      have hbd' : ((s.setTask a { s.mem a with done := true }).mem b).done = true := hbd
      show life s.log ((s.setTask a { s.mem a with done := true }).mem b).number =
        [.exec ((s.setTask a { s.mem a with done := true }).mem b).number]
      rw [hnumber b]
      by_cases hba : b = a
      · subst b
        rw [hn]
        exact h.lives.job w (.executed a n) hj
      · rw [hother b hba] at hbd'
        exact h.lives.done b hb hbd'
    · intro b hb
      show life s.log ((s.setTask a { s.mem a with done := true }).mem b).number = []
      rw [hnumber b]
      exact h.lives.queued b hb

/-- The rest of the round: another worker commits, or this one begins to. -/
theorem Inv.finish (h : Inv cfg s q j) {a n : Nat} (hw : s.workers w = .busy (.executed a n))
    {woke : Option Nat} (ht : s.finish cfg w a woke = some t) : ∃ q' j', Inv cfg t q' j' := by
  have hi := h.executed hw
  unfold State.finish at ht
  simp only at ht
  split at ht
  · rename_i hc
    rw [Option.map_eq_some_iff] at ht
    obtain ⟨u, hu, rfl⟩ := ht
    obtain ⟨ws, rfl, hws, -⟩ := wakeOne_spec hu
    have hwakes : Wakes ((s.setTask a { s.mem a with done := true }).setWorker w .top).workers
        (fun v => if v = w then .top else ws v) := by
      intro v
      simp only [State.setWorker]
      split
      · exact Or.inl rfl
      · exact hws v
    refine ⟨q, j, hwakes.inv₀ hi, fun hf => ?_⟩
    exact absurd (hc.symm.trans hf) (by decide)
  · rename_i hc
    have hc' : (s.setTask a { s.mem a with done := true }).committing = false :=
      Bool.eq_false_of_not_eq_true hc
    apply commitLoop_inv _ rfl ht
    show Inv₀ cfg (State.setWorker { s.setTask a { s.mem a with done := true } with
      committing := false } w .top) q j
    rw [← hc']
    exact hi

/-- The commit ends: the task is off the books. -/
theorem Inv.committed (h : Inv cfg s q j) {n : Nat} (hw : s.workers w = .busy (.relock n)) :
    Inv₀ cfg ({ s with
      pending := s.pending - 1
      completed := s.completed + 1
      committing := false }.setWorker w .top) q j := by
  have hj := jobs_of_busy hw
  have hn : n = s.completed := h.commits.number w _ n hj rfl
  have hflag : s.committing = true := h.commits.flag.mpr ⟨w, _, n, hj, rfl⟩
  have hcount := h.commits.count
  have hpend := h.commits.pending
  rw [hflag] at hcount hpend
  simp only [if_true] at hcount hpend
  have hjobs : ({ s with
      pending := s.pending - 1
      completed := s.completed + 1
      committing := false }.setWorker w .top).jobs = setJob s.jobs w none := jobs_setWorker _ w _
  have hcases : ∀ v k m, setJob s.jobs w none v = some k → k.commits ≠ some m := by
    intro v k m hv hm
    rcases setJob_cases hv with ⟨-, hk⟩ | ⟨hvw, hk⟩
    · cases hk
    · exact hvw (h.commits.one v w k _ m n hk hj hm rfl)
  refine ⟨h.shape, ?_, ?_, ?_, h.crew.setActive (active_of_busy hw) rfl (Nat.sub_le _ _)⟩
  · rw [hjobs]
    apply h.owners.setNone
    intro k b m hk he
    rw [hj] at hk
    cases hk
    cases he
  · rw [hjobs]
    constructor
    · exact fun v v' k k' m m' hv _ hm _ => absurd hm (hcases v k m hv)
    · constructor
      · exact nofun
      · rintro ⟨v, k, m, hv, hm⟩
        exact absurd hm (hcases v k m hv)
    · exact fun v k m hv hm => absurd hm (hcases v k m hv)
    · intro v k b hv hk
      have hm : ∃ m, k.commits = some m := by
        cases k <;> simp_all [Job.keeps, Job.commits]
      obtain ⟨m, hm⟩ := hm
      exact absurd hm (hcases v k m hv)
    · show s.completed + 1 + 0 + q.length = s.submitted
      omega
    · show s.pending - 1 = q.length + 0
      omega
  · rw [hjobs]
    refine { h.lives.setNone with past := ?_, order := ?_ }
    · intro m hm
      by_cases hlt : m < s.completed
      · exact h.lives.past m hlt
      · have hmn : m = n := by
          have hm' : m < s.completed + 1 := hm
          omega
        rw [hmn]
        exact h.lives.job w (.relock n) hj
    · have horder := h.lives.order
      rw [hflag] at horder
      exact horder

theorem Inv.relock (h : Inv cfg s q j) {n : Nat} (hw : s.workers w = .busy (.relock n))
    {woke : Option Nat}
    (ht : { s with pending := s.pending - 1, completed := s.completed + 1 }.commitLoop cfg w woke =
      some t) : ∃ q' j', Inv cfg t q' j' := by
  refine commitLoop_inv (h.committed hw) ?_ ht
  exact h.commits.flag.mpr ⟨w, _, n, jobs_of_busy hw, rfl⟩

end SentryNative.Pool
