import SentryNative.Pool.PoolInvariant

/-!
# The steps of the pool

One lemma for every step; the commit loop has its own, since two steps enter it.
-/

namespace SentryNative.Pool

open Linked

variable {cfg : Config} {s t : State} {q : List Nat} {j w : Nat}

/-! ## Workers -/

theorem jobs_setWorker (s : State) (w : Nat) (pc : WorkerPc) :
    (s.setWorker w pc).jobs = fun v => if v = w then pc.job else s.jobs v := by
  funext v
  simp only [State.jobs, State.setWorker]
  split <;> rfl

/-- Some workers are woken. -/
def Wakes (ws ws' : Nat → WorkerPc) : Prop :=
  ∀ v, ws' v = ws v ∨ ws v = .waiting ∧ ws' v = .woken

theorem Wakes.refl (ws : Nat → WorkerPc) : Wakes ws ws := fun _ => Or.inl rfl

theorem Wakes.trans {a b c : Nat → WorkerPc} (h : Wakes a b) (h' : Wakes b c) : Wakes a c := by
  intro v
  rcases h v with hb | ⟨ha, hb⟩
  · rcases h' v with hc | ⟨hb', hc⟩
    · exact Or.inl (hc.trans hb)
    · exact Or.inr ⟨hb ▸ hb', hc⟩
  · rcases h' v with hc | ⟨hb', -⟩
    · exact Or.inr ⟨ha, hc.trans hb⟩
    · rw [hb] at hb'
      cases hb'

theorem Wakes.job {ws ws' : Nat → WorkerPc} (h : Wakes ws ws') (v : Nat) :
    (ws' v).job = (ws v).job := by
  rcases h v with he | ⟨ha, hb⟩
  · rw [he]
  · rw [ha, hb]
    rfl

theorem Wakes.active {ws ws' : Nat → WorkerPc} (h : Wakes ws ws') {v : Nat}
    (hv : (ws v).active = true) : (ws' v).active = true := by
  rcases h v with he | ⟨ha, -⟩
  · rw [he]
    exact hv
  · rw [ha] at hv
    cases hv

/-- A worker that is not waiting is left alone. -/
theorem Wakes.eq_of_ne {ws ws' : Nat → WorkerPc} (h : Wakes ws ws') {v : Nat}
    (hv : ws v ≠ .waiting) : ws' v = ws v := by
  rcases h v with he | ⟨ha, -⟩
  · exact he
  · exact absurd ha hv

theorem Wakes.crew {ws ws' : Nat → WorkerPc} (h : Wakes ws ws') {running stopping : Bool}
    {pending : Nat} {next : Option Nat} (hc : Crew cfg ws running stopping pending next) :
    Crew cfg ws' running stopping pending next where
  pending_le := hc.pending_le
  exited v hv := by
    rcases h v with he | ⟨-, hb⟩
    · exact hc.exited v (he ▸ hv)
    · rw [hb] at hv
      cases hv
  outside v hv := by
    have hu := hc.outside v hv
    rw [h.eq_of_ne (by rw [hu]; decide), hu]
  idle hr v := by
    have hu := hc.idle hr v
    rw [h.eq_of_ne (by rw [hu]; decide), hu]
  started hr hs v hv := by
    obtain ⟨h1, h2⟩ := hc.started hr hs v hv
    rcases h v with he | ⟨-, hb⟩
    · rw [he]
      exact ⟨h1, h2⟩
    · rw [hb]
      exact ⟨by decide, by decide⟩
  awake hn := by
    obtain ⟨v, hv⟩ := hc.awake hn
    exact ⟨v, h.active hv⟩

theorem Wakes.inv₀ {ws : Nat → WorkerPc} (h : Wakes s.workers ws) (hi : Inv₀ cfg s q j) :
    Inv₀ cfg { s with workers := ws } q j := by
  have hj : State.jobs { s with workers := ws } = s.jobs := funext h.job
  exact ⟨hi.shape, hj ▸ hi.owners, hj ▸ hi.commits, hj ▸ hi.lives, h.crew hi.crew⟩

theorem Wakes.inv {ws : Nat → WorkerPc} (h : Wakes s.workers ws) (hi : Inv cfg s q j) :
    Inv cfg { s with workers := ws } q j := ⟨h.inv₀ hi.toInv₀, hi.ready⟩

theorem wakeAll_wakes (s : State) : Wakes s.workers s.wakeAll.workers := by
  intro v
  simp only [State.wakeAll]
  split
  · rename_i hw
    exact Or.inr ⟨hw, rfl⟩
  · exact Or.inl rfl

/-- A signal wakes a worker if one waits. -/
theorem wakeOne_spec {woke : Option Nat} (h : s.wakeOne cfg woke = some t) :
    ∃ ws, t = { s with workers := ws } ∧ Wakes s.workers ws ∧
      ((∃ v, ws v = .woken) ∨ ∀ v < cfg.threadCount, s.workers v ≠ .waiting) := by
  cases woke with
  | none =>
    simp only [State.wakeOne] at h
    split at h
    · rename_i hn
      cases h
      exact ⟨s.workers, rfl, .refl _, Or.inr hn⟩
    · cases h
  | some v =>
    simp only [State.wakeOne] at h
    split at h
    · rename_i hv
      cases h
      refine ⟨_, rfl, fun u => ?_, Or.inl ⟨v, by simp⟩⟩
      by_cases hu : u = v
      · subst u
        exact Or.inr ⟨hv, by simp⟩
      · exact Or.inl (by simp [hu])
    · cases h

/-- An active worker stays active, and the pool may change what it waits for. -/
theorem Crew.setActive {ws : Nat → WorkerPc} {running stopping : Bool} {pending pending' : Nat}
    {next next' : Option Nat} (h : Crew cfg ws running stopping pending next)
    (hw : (ws w).active = true) {pc : WorkerPc} (hp : pc.active = true) (hle : pending' ≤ pending) :
    Crew cfg (fun v => if v = w then pc else ws v) running stopping pending' next' := by
  have hpc : pc ≠ .unstarted ∧ pc ≠ .exited := by
    constructor
    · rintro rfl
      cases hp
    · rintro rfl
      cases hp
  constructor
  · exact hle.trans h.pending_le
  · intro v hv
    split at hv
    · exact absurd hv hpc.2
    · obtain ⟨h1, h2⟩ := h.exited v hv
      exact ⟨h1, by omega⟩
  · intro v hv
    split
    · rename_i he
      subst v
      rw [h.outside w hv] at hw
      cases hw
    · exact h.outside v hv
  · intro hr v
    have := h.idle hr w
    rw [this] at hw
    cases hw
  · intro hr hs v hv
    split
    · exact hpc
    · exact h.started hr hs v hv
  · exact fun _ => ⟨w, by simpa using hp⟩

/-! ## Jobs -/

/-- The worker `w` has another job. -/
def setJob (jobs : Nat → Option Job) (w : Nat) (job : Option Job) : Nat → Option Job :=
  fun v => if v = w then job else jobs v

section Jobs

variable {jobs : Nat → Option Job} {job : Job} {new : Option Job}

theorem setJob_self : setJob jobs w new w = new := by simp [setJob]

theorem setJob_cases {v : Nat} {job' : Job} (h : setJob jobs w new v = some job') :
    v = w ∧ new = some job' ∨ v ≠ w ∧ jobs v = some job' := by
  unfold setJob at h
  split at h
  · exact Or.inl ⟨by assumption, h⟩
  · exact Or.inr ⟨by assumption, h⟩

theorem setJob_of_ne {v : Nat} (h : v ≠ w) : setJob jobs w new v = jobs v := by simp [setJob, h]

/-- A job that is no commit takes the place of one that is none. -/
theorem Commits.noCommit {committing : Bool} {completed submitted pending : Nat}
    {allocated : Nat → Bool} (h : Commits jobs committing completed submitted pending allocated q)
    (hold : ∀ job, jobs w = some job → job.commits = none)
    (hnew : ∀ job, new = some job → job.commits = none ∧ job.keeps = none) :
    Commits (setJob jobs w new) committing completed submitted pending allocated q := by
  have hcases : ∀ v job n, setJob jobs w new v = some job → job.commits = some n →
      jobs v = some job := by
    intro v job n hv hc
    rcases setJob_cases hv with ⟨-, hj⟩ | ⟨-, hj⟩
    · rw [(hnew job hj).1] at hc
      cases hc
    · exact hj
  constructor
  · intro v v' job job' n n' hv hv' hc hc'
    exact h.one v v' job job' n n' (hcases v job n hv hc) (hcases v' job' n' hv' hc') hc hc'
  · rw [h.flag]
    constructor
    · rintro ⟨v, job, n, hv, hc⟩
      refine ⟨v, job, n, ?_, hc⟩
      rw [setJob_of_ne, hv]
      rintro rfl
      rw [hold job hv] at hc
      cases hc
    · rintro ⟨v, job, n, hv, hc⟩
      exact ⟨v, job, n, hcases v job n hv hc, hc⟩
  · exact fun v job n hv hc => h.number v job n (hcases v job n hv hc) hc
  · intro v job a hv hk
    rcases setJob_cases hv with ⟨-, hj⟩ | ⟨-, hj⟩
    · rw [(hnew job hj).2] at hk
      cases hk
    · exact h.keeps v job a hj hk
  · exact h.count
  · exact h.pending

/-- The worker gives up a task that is done, or has none. -/
theorem Owners.setNone {mem : Nat → Task} (h : Owners mem jobs q j)
    (hw : ∀ job a n, jobs w = some job → job.executes = some (a, n) → (mem a).done = true) :
    Owners mem (setJob jobs w none) q j := by
  have hcases : ∀ v job, setJob jobs w none v = some job → jobs v = some job := by
    intro v job hv
    rcases setJob_cases hv with ⟨-, hj⟩ | ⟨-, hj⟩
    · cases hj
    · exact hj
  constructor
  · exact fun v job a n hv he => h.task v job a n (hcases v job hv) he
  · exact fun v v' job job' a n n' hv hv' => h.one v v' job job' a n n' (hcases v job hv)
      (hcases v' job' hv')
  · intro a ha hd
    obtain ⟨v, job, n, hv, he⟩ := h.taken a ha hd
    refine ⟨v, job, n, ?_, he⟩
    rw [setJob_of_ne, hv]
    rintro rfl
    rw [hw job a n hv he] at hd
    cases hd
  · exact h.queued

theorem Lives.setNone {log : List Event} {mem : Nat → Task} {committing : Bool}
    {completed submitted : Nat} (h : Lives log mem jobs committing completed submitted q j) :
    Lives log mem (setJob jobs w none) committing completed submitted q j := by
  refine { h with job := ?_ }
  intro v job hv
  rcases setJob_cases hv with ⟨-, hj⟩ | ⟨-, hj⟩
  · cases hj
  · exact h.job v job hj

end Jobs

/-! ## The commit loop -/

/-- The worker leaves the loop: no task is ready. -/
theorem commitLoop_leave (hi : Inv₀ cfg ({ s with committing := false }.setWorker w .top) q j)
    (hr : s.ready = none) {woke : Option Nat}
    (ht : s.commitLoop cfg w woke = some t) : Inv cfg t q j := by
  simp only [State.commitLoop, hr, Option.map_eq_some_iff] at ht
  obtain ⟨u, hu, rfl⟩ := ht
  obtain ⟨ws, rfl, hws, -⟩ := wakeOne_spec hu
  have hws' : Wakes s.workers ws := by
    split at hws
    · exact (wakeAll_wakes { s with committing := false }).trans hws
    · exact hws
  have hwakes : Wakes ({ s with committing := false }.setWorker w .top).workers
      (fun v => if v = w then .top else ws v) := by
    intro v
    simp only [State.setWorker]
    split
    · exact Or.inl rfl
    · exact hws' v
  have hinv : Inv cfg { { s with committing := false }.setWorker w .top with
      workers := fun v => if v = w then .top else ws v } q j := by
    refine ⟨hwakes.inv₀ hi, fun _ a ha => ?_⟩
    have hfirst : s.firstTask = some a := hi.shape.linked.start_eq.trans ha
    simp only [State.ready, hfirst] at hr
    split at hr
    · cases hr
    · exact Bool.eq_false_of_not_eq_true (by assumption)
  split
  · exact hinv
  · exact hinv

/-- A ready task is the head of the list, was started and has the number that is next. -/
theorem ready_head (hi : Inv₀ cfg ({ s with committing := false }.setWorker w .top) q j) {a : Nat}
    (hr : s.ready = some a) : ∃ q' j', q = a :: q' ∧ j = j' + 1 ∧ (s.mem a).done = true ∧
      (s.mem a).number = s.completed := by
  have hfirst : s.firstTask = some a ∧ (s.mem a).done = true := by
    unfold State.ready at hr
    split at hr
    · rename_i b hb
      split at hr
      · rename_i hd
        cases hr
        exact ⟨hb, hd⟩
      · cases hr
    · cases hr
  have hhead : q.head? = some a := hi.shape.linked.start_eq.symm.trans hfirst.1
  cases q with
  | nil => cases hhead
  | cons b q' =>
    simp only [List.head?_cons, Option.some.injEq] at hhead
    subst b
    have hnum := hi.shape.numbers
    have hcount : s.completed + 0 + (q'.length + 1) = s.submitted := hi.commits.count
    rw [List.length_cons, List.range'_succ, List.map_cons, List.cons.injEq] at hnum
    have hnum' : (s.mem a).number = s.submitted - (q'.length + 1) := hnum.1
    cases j with
    | zero =>
      have hq : (s.mem a).done = false := hi.owners.queued a (by simp)
      rw [hfirst.2] at hq
      cases hq
    | succ j' => exact ⟨q', j', rfl, rfl, hfirst.2, by omega⟩

/-- The list loses its head. -/
theorem Shape.pop {mem : Nat → Task} {first last next : Option Nat} {submitted : Nat}
    {allocated : Nat → Bool} {a : Nat}
    (h : Shape mem first last next submitted allocated (a :: q) (j + 1)) :
    Shape mem (mem a).next (if (mem a).next = none then none else last) next submitted allocated q j
    := by
  have hlink := h.linked.2
  have hlen := h.length_le
  have hnum := h.numbers
  rw [List.length_cons] at hlen
  rw [List.length_cons, List.range'_succ, List.map_cons, List.cons.injEq,
    show submitted - (q.length + 1) + 1 = submitted - q.length by omega] at hnum
  constructor
  · exact hlink
  · rw [h.last]
    have hstart : (mem a).next = q.head? := hlink.start_eq
    cases q with
    | nil => simp [hstart]
    | cons b q => simp [hstart, List.getLast?_cons_cons]
  · exact (List.nodup_cons.mp h.nodup).2
  · omega
  · exact hnum.2
  · simpa using h.j_le
  · simpa using h.next
  · exact fun b hb => h.allocated b (List.mem_cons_of_mem a hb)

theorem Owners.pop {mem : Nat → Task} {jobs : Nat → Option Job} {a n : Nat}
    (h : Owners mem (setJob jobs w none) (a :: q) (j + 1)) (hd : (mem a).done = true) :
    Owners mem (setJob jobs w (some (.completing a n))) q j := by
  have hcases : ∀ v job b m, setJob jobs w (some (.completing a n)) v = some job →
      job.executes = some (b, m) → setJob jobs w none v = some job := by
    intro v job b m hv he
    rcases setJob_cases hv with ⟨-, hj⟩ | ⟨hne, hj⟩
    · cases hj
      cases he
    · rw [setJob_of_ne hne, hj]
  constructor
  · intro v job b m hv he
    obtain ⟨hb, hm, hbd⟩ := h.task v job b m (hcases v job b m hv he) he
    rw [List.take_succ_cons, List.mem_cons] at hb
    rcases hb with rfl | hb
    · rw [hd] at hbd
      cases hbd
    · exact ⟨hb, hm, hbd⟩
  · exact fun v v' job job' b m m' hv hv' he he' => h.one v v' job job' b m m'
      (hcases v job b m hv he) (hcases v' job' b m' hv' he') he he'
  · intro b hb hbd
    obtain ⟨v, job, m, hv, he⟩ := h.taken b (by simp [hb]) hbd
    rcases setJob_cases hv with ⟨-, hj⟩ | ⟨hne, hj⟩
    · cases hj
    · exact ⟨v, job, m, by rw [setJob_of_ne hne, hj], he⟩
  · exact fun b hb => h.queued b (by simpa using hb)

/-- A commit begins. -/
theorem Commits.begin {jobs : Nat → Option Job} {completed submitted pending : Nat}
    {allocated : Nat → Bool} {a : Nat}
    (h : Commits (setJob jobs w none) false completed submitted pending allocated (a :: q))
    (haq : a ∉ q) (ha : allocated a = true) :
    Commits (setJob jobs w (some (.completing a completed))) true completed submitted pending
      allocated q := by
  have hother : ∀ v job n, v ≠ w → jobs v = some job → job.commits ≠ some n := by
    intro v job n hv hj hn
    have := h.flag.mpr ⟨v, job, n, by rw [setJob_of_ne hv, hj], hn⟩
    cases this
  have hself : ∀ v job n, setJob jobs w (some (.completing a completed)) v = some job →
      job.commits = some n → v = w ∧ job = .completing a completed := by
    intro v job n hv hc
    rcases setJob_cases hv with ⟨hvw, hj⟩ | ⟨hne, hj⟩
    · cases hj
      exact ⟨hvw, rfl⟩
    · exact absurd hc (hother v job n hne hj)
  constructor
  · intro v v' job job' n n' hv hv' hc hc'
    rw [(hself v job n hv hc).1, (hself v' job' n' hv' hc').1]
  · exact ⟨fun _ => ⟨w, _, completed, setJob_self, rfl⟩, fun _ => rfl⟩
  · intro v job n hv hc
    rw [(hself v job n hv hc).2] at hc
    exact (Option.some.inj hc).symm
  · intro v job b hv hk
    rcases setJob_cases hv with ⟨-, hj⟩ | ⟨hne, hj⟩
    · cases hj
      cases hk
      exact ⟨ha, haq⟩
    · obtain ⟨h1, h2⟩ := h.keeps v job b (by rw [setJob_of_ne hne, hj]) hk
      exact ⟨h1, fun hb => h2 (List.mem_cons_of_mem a hb)⟩
  · have := h.count
    simp only [List.length_cons, Bool.false_eq_true, if_false] at this
    simp only [if_true]
    omega
  · have := h.pending
    simp only [List.length_cons, Bool.false_eq_true, if_false] at this
    simp only [if_true]
    omega

theorem completions_append (log : List Event) (e : Event) :
    completions (log ++ [e]) = completions log ++ completions [e] := List.filterMap_append

/-- `complete_func` is called for the head of the list. -/
theorem Lives.complete {log : List Event} {mem : Nat → Task} {jobs : Nat → Option Job}
    {completed submitted a : Nat}
    (h : Lives log mem (setJob jobs w none) false completed submitted (a :: q) (j + 1))
    (hd : (mem a).done = true) (hnum : (mem a).number = completed)
    (hlt : completed < submitted)
    (hinj : ∀ b ∈ q, (mem b).number ≠ completed)
    (hne : ∀ v job, v ≠ w → jobs v = some job → job.number ≠ completed) :
    Lives (log ++ [.complete completed]) mem (setJob jobs w (some (.completing a completed))) true
      completed submitted q j := by
  have hlife : ∀ n, n ≠ completed → life (log ++ [.complete completed]) n = life log n :=
    fun n hn => life_append_of_ne log (Ne.symm hn)
  constructor
  · intro n hn
    rw [hlife n (by omega)]
    exact h.past n hn
  · intro v job hv
    rcases setJob_cases hv with ⟨-, hj⟩ | ⟨hvw, hj⟩
    · cases hj
      have hlast := life_append_self log (.complete completed)
      have hdone := h.done a List.mem_cons_self hd
      simp only [Event.number] at hlast
      rw [hnum] at hdone
      rw [Job.number, hlast, hdone]
      rfl
    · rw [hlife _ (hne v job hvw hj)]
      exact h.job v job (by rw [setJob_of_ne hvw, hj])
  · intro b hb hbd
    rw [hlife _ (hinj b hb)]
    exact h.done b (List.mem_cons_of_mem a hb) hbd
  · intro b hb
    rw [hlife _ (hinj b (List.mem_of_mem_drop hb))]
    exact h.queued b (by simpa using hb)
  · intro n hn
    rw [hlife n (by omega)]
    exact h.future n hn
  · rw [completions_append, h.order]
    simp [completions, List.range_succ]

theorem detach_eq (s : State) (w a : Nat) : s.detach w a =
    { s with
      firstTask := (s.mem a).next
      lastTask := if (s.mem a).next = none then none else s.lastTask
      workers := fun v => if v = w then .busy (.completing a (s.mem a).number) else s.workers v
      log := s.log ++ [.complete (s.mem a).number] } := by
  simp only [State.detach]
  split <;> rfl

/-- The head of the list is taken off, and its worker calls `complete_func`. -/
theorem detach_inv (hi : Inv₀ cfg ({ s with committing := false }.setWorker w .top) q j)
    (hc : s.committing = true) {a : Nat} (hr : s.ready = some a) :
    ∃ q' j', Inv cfg (s.detach w a) q' j' := by
  obtain ⟨q', j', rfl, rfl, hdone, hnum⟩ := ready_head hi hr
  obtain ⟨haq, hnd⟩ := List.nodup_cons.mp hi.shape.nodup
  have hsub : s.completed + 0 + (q'.length + 1) = s.submitted := hi.commits.count
  have hpend : s.pending = q'.length + 1 + 0 := hi.commits.pending
  have hj0 : ({ s with committing := false }.setWorker w .top).jobs = setJob s.jobs w none :=
    jobs_setWorker _ _ _
  have howners : Owners s.mem (setJob s.jobs w none) (a :: q') (j' + 1) := hj0 ▸ hi.owners
  have hcommits : Commits (setJob s.jobs w none) false s.completed s.submitted s.pending s.allocated
    (a :: q') := hj0 ▸ hi.commits
  have hlives : Lives s.log s.mem (setJob s.jobs w none) false s.completed s.submitted (a :: q')
    (j' + 1) := hj0 ▸ hi.lives
  have hjobs : (s.detach w a).jobs = setJob s.jobs w (some (.completing a (s.mem a).number)) := by
    rw [detach_eq]
    exact jobs_setWorker s w _
  -- another job has another task
  have hne : ∀ v job, v ≠ w → s.jobs v = some job → job.number ≠ s.completed := by
    intro v job hv hj hn
    cases hx : job.executes with
    | none =>
      cases hk : job.commits with
      | none => cases job <;> simp [Job.executes, Job.commits] at hx hk
      | some n =>
        have := hcommits.flag.mpr ⟨v, job, n, by rw [setJob_of_ne hv, hj], hk⟩
        cases this
    | some p =>
      obtain ⟨b, n⟩ := p
      have hjn : job.number = n := by
        cases job <;> simp_all [Job.executes, Job.number]
      obtain ⟨hb, hbn, hbd⟩ := howners.task v job b n (by rw [setJob_of_ne hv, hj]) hx
      have hab : b = a := hi.shape.number_inj (List.mem_of_mem_take hb) List.mem_cons_self
        (hbn.trans (hjn.symm.trans (hn.trans hnum.symm)))
      subst b
      rw [hdone] at hbd
      cases hbd
  have hinj : ∀ b ∈ q', (s.mem b).number ≠ s.completed := by
    intro b hb hn
    have hab : b = a := hi.shape.number_inj (List.mem_cons_of_mem a hb) List.mem_cons_self
      (hn.trans hnum.symm)
    exact haq (hab ▸ hb)
  have hws : (fun v => if v = w then WorkerPc.busy (.completing a (s.mem a).number) else
      ({ s with committing := false }.setWorker w .top).workers v) =
        fun v => if v = w then .busy (.completing a (s.mem a).number) else s.workers v := by
    funext v
    simp only [State.setWorker]
    split <;> rfl
  have hcrew : Crew cfg (fun v => if v = w then .busy (.completing a (s.mem a).number)
      else s.workers v) s.running s.stopping s.pending s.nextTask := by
    rw [← hws]
    exact hi.crew.setActive (by simp [State.setWorker, WorkerPc.active]) rfl (Nat.le_refl _)
  refine ⟨q', j', ⟨⟨?_, ?_, ?_, ?_, ?_⟩, ?_⟩⟩
  · rw [detach_eq]
    exact hi.shape.pop
  · rw [hjobs, detach_eq]
    exact howners.pop hdone
  · rw [hjobs, hnum, detach_eq]
    simp only [hc]
    exact hcommits.begin haq (hi.shape.allocated a List.mem_cons_self)
  · rw [hjobs, hnum, detach_eq]
    simp only [hc, hnum]
    exact hlives.complete hdone hnum (by omega) hinj hne
  · rw [detach_eq]
    exact hcrew
  · rw [detach_eq]
    intro hf
    simp only [hc] at hf
    cases hf

/-- The commit loop, on a state that is in order but for a done head. -/
theorem commitLoop_inv (hi : Inv₀ cfg ({ s with committing := false }.setWorker w .top) q j)
    (hc : s.committing = true) {woke : Option Nat} (ht : s.commitLoop cfg w woke = some t) :
    ∃ q' j', Inv cfg t q' j' := by
  cases hr : s.ready with
  | none => exact ⟨q, j, commitLoop_leave hi hr ht⟩
  | some a =>
    simp only [State.commitLoop, hr, Option.some.injEq] at ht
    subst t
    exact detach_inv hi hc hr

end SentryNative.Pool
