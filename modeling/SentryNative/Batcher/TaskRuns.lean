import SentryNative.Batcher.Task

/-!
# A batch is handed out once

As long as the pool and a crash do not meet on a task, a batch is always in one
of a few phases: with its batcher, on the list, with its worker, or claimed by a
crash while it was pending or ready. A pool that refuses a claimed task breaks
this: the batcher goes on with a batch it no longer has.
-/

namespace SentryNative.Batcher.Task

/-! ## Phases -/

/-- A use by the party that had the batch. -/
def rightly (party : Party) (action : Action) : Use := ⟨party, action, true⟩

/-- The batcher alone has the batch: what it has done at each point. -/
inductive OwnUses : BatcherPc → List Use → Prop where
  | idle : OwnUses .idle []
  | link : OwnUses .link []
  | waitAll : OwnUses .waitAll []
  | sync (crashSafe : Bool) : OwnUses (.sync crashSafe) []
  | dispose (crashSafe : Bool) : OwnUses (.dispose crashSafe) [rightly .batcher .batchFunc]
  | done (x : Action) : x ≠ .batchFunc →
      OwnUses .done [rightly .batcher .batchFunc, rightly .batcher x]

/-- The worker has the batch: its program counter, the task and what it has done. -/
inductive WorkerUses : WorkerPc → TaskState → Bool → Bool → List Use → Prop where
  | exec : WorkerUses .exec .pending true true []
  | batchFunc : WorkerUses .batchFunc .running true true []
  | setReady : WorkerUses .setReady .running false true [rightly .worker .batchFunc]
  | complete : WorkerUses .complete .ready false true [rightly .worker .batchFunc]
  | dispose : WorkerUses .dispose .completing false true [rightly .worker .batchFunc]
  | ended (w : WorkerPc) (x : Action) : w = .unlink ∨ w = .free ∨ w = .done → x ≠ .batchFunc →
      WorkerUses w .completing false false [rightly .worker .batchFunc, rightly .worker x]

/-- A crash claimed the batch: before it was serialized, or after. -/
inductive DumpUses : DumpPc → List Use → Prop where
  | batchFunc : DumpUses .batchFunc []
  | write (p : Party) : DumpUses .write [rightly p .batchFunc]
  | done (p : Party) : DumpUses .done [rightly p .batchFunc, rightly .dumper .write]

/-- Where the worker of a claimed task may be: it does nothing but unlink and free. -/
def WorkerPc.idleWorker : WorkerPc → Bool
  | .none | .exec | .complete | .unlink | .free | .done => true
  | _ => false

/-- Whether a worker at this point has not yet unlinked its task. -/
def WorkerPc.linked : WorkerPc → Bool
  | .free | .done => false
  | _ => true

inductive Phase : Bool → Batch → Prop where
  | own {pc : BatcherPc} {uses : List Use} (r : Bool) (h : OwnUses pc uses) :
      Phase false ⟨pc, .none, .none, .pending, r, r, .batcher, uses⟩
  | listed (pc : BatcherPc) (h : pc = .submit ∨ pc = .refused) :
      Phase true ⟨pc, .none, .none, .pending, true, true, .batcher, []⟩
  | worker {w : WorkerPc} {st : TaskState} {items env : Bool} {uses : List Use}
      (h : WorkerUses w st items env uses) :
      Phase w.linked ⟨.handedOver, w, .none, st, items, env, .worker, uses⟩
  | claimed {pc : BatcherPc} {w : WorkerPc} {d : DumpPc} {uses : List Use}
      (hp : pc = .submit ∧ w = .none ∨ pc = .handedOver ∧ w ≠ .none) (hw : w.idleWorker = true)
      (h : DumpUses d uses) :
      Phase w.linked ⟨pc, w, d, .dumped, false, false, .dumper, uses⟩

structure Inv (s : State) : Prop where
  nodup : s.tasks.Nodup
  phase : ∀ i, Phase (decide (i ∈ s.tasks)) (s.batch i)

theorem inv_start : Inv State.start := ⟨List.nodup_nil, fun _ => .own false .idle⟩

theorem set_batch_same (s : State) (i : Nat) (b : Batch) : (s.set i b).batch i = b := by
  simp [State.set]

theorem set_batch_ne (s : State) {i j : Nat} (h : j ≠ i) (b : Batch) :
    (s.set i b).batch j = s.batch j := by
  simp [State.set, h]

/-- A step that leaves the list alone. -/
theorem Inv.set {s : State} (h : Inv s) {i : Nat} {b : Batch}
    (hb : Phase (decide (i ∈ s.tasks)) b) : Inv (s.set i b) := by
  refine ⟨h.nodup, fun j => ?_⟩
  by_cases hj : j = i
  · subst hj
    rw [set_batch_same]
    exact hb
  · rw [set_batch_ne s hj]
    exact h.phase j

theorem Inv.push {s : State} (h : Inv s) {i : Nat} {b : Batch} (hi : i ∉ s.tasks)
    (hb : Phase true b) : Inv { s.set i b with tasks := i :: s.tasks } := by
  refine ⟨List.nodup_cons.mpr ⟨hi, h.nodup⟩, fun j => ?_⟩
  by_cases hj : j = i
  · subst hj
    simpa [State.set] using hb
  · simpa [State.set, hj] using h.phase j

theorem Inv.erase {s : State} (h : Inv s) {i : Nat} {b : Batch} (hb : Phase false b) :
    Inv { s.set i b with tasks := s.tasks.erase i } := by
  refine ⟨h.nodup.erase i, fun j => ?_⟩
  by_cases hj : j = i
  · subst hj
    simpa [State.set, h.nodup.not_mem_erase] using hb
  · simpa [State.set, hj, List.mem_erase_of_ne hj] using h.phase j

/-! ## One step -/

theorem phase_begin {k : Bool} {b : Batch} (h : Phase k b) (hb : b.batcher = .idle)
    {pc : BatcherPc} (hpc : OwnUses pc []) : Phase k { b with batcher := pc } := by
  cases h with
  | own r ho =>
    cases ho with
    | idle => exact .own r hpc
    | _ => cases hb
  | listed pc hp => rcases hp with rfl | rfl <;> cases hb
  | worker hw => cases hb
  | claimed hp => rcases hp with ⟨rfl, -⟩ | ⟨rfl, -⟩ <;> cases hb

theorem phase_link {k : Bool} {b : Batch} (h : Phase k b) (hb : b.batcher = .link) :
    k = false ∧ Phase true { b with
      batcher := .submit, state := .pending, hasItems := true, hasEnvelope := true } := by
  cases h with
  | own r ho =>
    cases ho with
    | link => exact ⟨rfl, .listed .submit (Or.inl rfl)⟩
    | _ => cases hb
  | listed pc hp => rcases hp with rfl | rfl <;> cases hb
  | worker hw => cases hb
  | claimed hp => rcases hp with ⟨rfl, -⟩ | ⟨rfl, -⟩ <;> cases hb

theorem phase_accept {k : Bool} {b : Batch} (h : Phase k b) (hb : b.batcher = .submit) :
    Phase k (if b.owner = .batcher then
      { b with batcher := .handedOver, worker := .exec, owner := .worker }
      else { b with batcher := .handedOver, worker := .exec }) := by
  cases h with
  | own r ho => cases ho <;> cases hb
  | listed pc hp =>
    rw [if_pos rfl]
    exact Phase.worker .exec
  | worker hw => cases hb
  | claimed hp hw hd =>
    rcases hp with ⟨rfl, rfl⟩ | ⟨rfl, -⟩
    · rw [if_neg (by simp)]
      exact Phase.claimed (w := .exec) (Or.inr ⟨rfl, by simp⟩) rfl hd
    · cases hb

theorem phase_refuse {k : Bool} {b : Batch} (h : Phase k b) (hb : b.batcher = .submit)
    (hs : b.state ≠ .dumped) : Phase k { b with batcher := .refused } := by
  cases h with
  | own r ho => cases ho <;> cases hb
  | listed pc hp => exact .listed .refused (Or.inr rfl)
  | worker hw => cases hb
  | claimed hp hw hd => exact absurd rfl hs

theorem phase_refused {k : Bool} {b : Batch} (h : Phase k b) (hb : b.batcher = .refused) :
    Phase false { b with batcher := .waitAll } := by
  cases h with
  | own r ho => cases ho <;> cases hb
  | listed pc hp => exact .own true .waitAll
  | worker hw => cases hb
  | claimed hp => rcases hp with ⟨rfl, -⟩ | ⟨rfl, -⟩ <;> cases hb

theorem phase_waited {k : Bool} {b : Batch} (h : Phase k b) (hb : b.batcher = .waitAll) :
    Phase k { b with batcher := .sync false } := by
  cases h with
  | own r ho =>
    cases ho with
    | waitAll => exact .own r (.sync false)
    | _ => cases hb
  | listed pc hp => rcases hp with rfl | rfl <;> cases hb
  | worker hw => cases hb
  | claimed hp => rcases hp with ⟨rfl, -⟩ | ⟨rfl, -⟩ <;> cases hb

theorem phase_sync {k : Bool} {b : Batch} (h : Phase k b) {crashSafe : Bool}
    (hb : b.batcher = .sync crashSafe) :
    Phase k { b.use .batcher .batchFunc with batcher := .dispose crashSafe } := by
  cases h with
  | own r ho =>
    cases ho with
    | sync cs =>
      cases hb
      exact .own r (.dispose crashSafe)
    | _ => cases hb
  | listed pc hp => rcases hp with rfl | rfl <;> cases hb
  | worker hw => cases hb
  | claimed hp => rcases hp with ⟨rfl, -⟩ | ⟨rfl, -⟩ <;> cases hb

theorem disposal_ne (crash skipUpload : Bool) : disposal crash skipUpload ≠ .batchFunc := by
  cases crash <;> cases skipUpload <;> decide

theorem phase_dispose {k : Bool} {b : Batch} (h : Phase k b) {crashSafe : Bool}
    (hb : b.batcher = .dispose crashSafe) {x : Action} (hx : x ≠ .batchFunc) :
    Phase k { b.use .batcher x with batcher := .done } := by
  cases h with
  | own r ho =>
    cases ho with
    | dispose cs => exact .own r (.done x hx)
    | _ => cases hb
  | listed pc hp => rcases hp with rfl | rfl <;> cases hb
  | worker hw => cases hb
  | claimed hp => rcases hp with ⟨rfl, -⟩ | ⟨rfl, -⟩ <;> cases hb

theorem phase_exec {k : Bool} {b : Batch} (h : Phase k b) (hb : b.worker = .exec) :
    Phase k (if b.state = .pending then { b with state := .running, worker := .batchFunc }
      else { b with worker := .complete }) := by
  cases h with
  | own r ho => cases hb
  | listed pc hp => cases hb
  | worker hw =>
    cases hw with
    | exec =>
      rw [if_pos rfl]
      exact Phase.worker .batchFunc
    | ended w x hw => rcases hw with rfl | rfl | rfl <;> cases hb
    | _ => cases hb
  | claimed hp hw hd =>
    cases hb
    rw [if_neg (by simp)]
    rcases hp with ⟨-, hw'⟩ | ⟨rfl, -⟩
    · cases hw'
    · exact Phase.claimed (w := .complete) (Or.inr ⟨rfl, by simp⟩) rfl hd

theorem phase_workerFunc {k : Bool} {b : Batch} (h : Phase k b) (hb : b.worker = .batchFunc) :
    Phase k { b.use .worker .batchFunc with hasItems := false, worker := .setReady } := by
  cases h with
  | own r ho => cases hb
  | listed pc hp => cases hb
  | worker hw =>
    cases hw with
    | batchFunc => exact Phase.worker .setReady
    | ended w x hw => rcases hw with rfl | rfl | rfl <;> cases hb
    | _ => cases hb
  | claimed hp hw hd =>
    cases hb
    cases hw

theorem phase_setReady {k : Bool} {b : Batch} (h : Phase k b) (hb : b.worker = .setReady) :
    Phase k { b with state := .ready, worker := .complete } := by
  cases h with
  | own r ho => cases hb
  | listed pc hp => cases hb
  | worker hw =>
    cases hw with
    | setReady => exact Phase.worker .complete
    | ended w x hw => rcases hw with rfl | rfl | rfl <;> cases hb
    | _ => cases hb
  | claimed hp hw hd =>
    cases hb
    cases hw

theorem phase_complete {k : Bool} {b : Batch} (h : Phase k b) (hb : b.worker = .complete) :
    Phase k (if b.state = .dumped then { b with worker := .unlink }
      else { b with state := .completing, worker := .dispose }) := by
  cases h with
  | own r ho => cases hb
  | listed pc hp => cases hb
  | worker hw =>
    cases hw with
    | complete =>
      rw [if_neg (by simp)]
      exact Phase.worker .dispose
    | ended w x hw => rcases hw with rfl | rfl | rfl <;> cases hb
    | _ => cases hb
  | claimed hp hw hd =>
    cases hb
    rw [if_pos rfl]
    rcases hp with ⟨-, hw'⟩ | ⟨rfl, -⟩
    · cases hw'
    · exact Phase.claimed (w := .unlink) (Or.inr ⟨rfl, by simp⟩) rfl hd

theorem phase_workerDispose {k : Bool} {b : Batch} (h : Phase k b) (hb : b.worker = .dispose)
    {x : Action} (hx : x ≠ .batchFunc) :
    Phase k { b.use .worker x with hasEnvelope := false, worker := .unlink } := by
  cases h with
  | own r ho => cases hb
  | listed pc hp => cases hb
  | worker hw =>
    cases hw with
    | dispose => exact Phase.worker (.ended .unlink x (Or.inl rfl) hx)
    | ended w x hw => rcases hw with rfl | rfl | rfl <;> cases hb
    | _ => cases hb
  | claimed hp hw hd =>
    cases hb
    cases hw

theorem phase_unlink {k : Bool} {b : Batch} (h : Phase k b) (hb : b.worker = .unlink) :
    Phase false { b with worker := .free } := by
  cases h with
  | own r ho => cases hb
  | listed pc hp => cases hb
  | worker hw =>
    cases hw with
    | ended w x hw hx => exact Phase.worker (.ended .free x (Or.inr (Or.inl rfl)) hx)
    | _ => cases hb
  | claimed hp hw hd =>
    cases hb
    rcases hp with ⟨-, hw'⟩ | ⟨rfl, -⟩
    · cases hw'
    · exact Phase.claimed (w := .free) (Or.inr ⟨rfl, by simp⟩) rfl hd

/-- The task's envelope is gone by the time the task is freed. -/
theorem phase_free {k : Bool} {b : Batch} (h : Phase k b) (hb : b.worker = .free) :
    b.hasEnvelope = false ∧ Phase k { b with worker := .done } := by
  cases h with
  | own r ho => cases hb
  | listed pc hp => cases hb
  | worker hw =>
    cases hw with
    | ended w x hw hx =>
      cases hb
      exact ⟨rfl, Phase.worker (.ended .done x (Or.inr (Or.inr rfl)) hx)⟩
    | _ => cases hb
  | claimed hp hw hd =>
    cases hb
    rcases hp with ⟨-, hw'⟩ | ⟨rfl, -⟩
    · cases hw'
    · exact ⟨rfl, Phase.claimed (w := .done) (Or.inr ⟨rfl, by simp⟩) rfl hd⟩

theorem phase_claimDump {k : Bool} {b : Batch} (h : Phase k b) (hk : k = true)
    (hc : b.claimable = true) (hr : b.batcher ≠ .refused) : Phase k b.claimDump := by
  cases h with
  | own r ho => cases hk
  | listed pc hp =>
    rcases hp with rfl | rfl
    · exact Phase.claimed (w := .none) (Or.inl ⟨rfl, rfl⟩) rfl .batchFunc
    · exact absurd rfl hr
  | worker hw =>
    cases hw with
    | exec => exact Phase.claimed (w := .exec) (Or.inr ⟨rfl, by simp⟩) rfl .batchFunc
    | complete => exact Phase.claimed (w := .complete) (Or.inr ⟨rfl, by simp⟩) rfl (.write .worker)
    | _ => simp [Batch.claimable] at hc
  | claimed hp hw hd => simp [Batch.claimable] at hc

theorem phase_dumpFunc {k : Bool} {b : Batch} (h : Phase k b) (hb : b.dump = .batchFunc) :
    Phase k { b.use .dumper .batchFunc with dump := .write } := by
  cases h with
  | own r ho => cases hb
  | listed pc hp => cases hb
  | worker hw => cases hb
  | claimed hp hw hd =>
    cases hd with
    | batchFunc => exact Phase.claimed hp hw (.write .dumper)
    | _ => cases hb

theorem phase_dumpWrite {k : Bool} {b : Batch} (h : Phase k b) (hb : b.dump = .write) :
    Phase k { b.use .dumper .write with dump := .done } := by
  cases h with
  | own r ho => cases hb
  | listed pc hp => cases hb
  | worker hw => cases hb
  | claimed hp hw hd =>
    cases hd with
    | write p => exact Phase.claimed hp hw (.done p)
    | _ => cases hb

theorem Inv.step {s t : State} (h : Inv s) {l : Label} (ha : Apart s l)
    (hs : Task.step s l = some t) : Inv t := by
  cases l with
  | begin i crashSafe allocated =>
    simp only [Task.step] at hs
    split at hs
    · rename_i hb
      cases hs
      refine h.set (phase_begin (h.phase i) hb ?_)
      cases crashSafe
      · cases allocated
        · exact .waitAll
        · exact .link
      · exact .sync true
    · cases hs
  | link i =>
    simp only [Task.step] at hs
    split at hs
    · rename_i hb
      cases hs
      obtain ⟨hk, hp⟩ := phase_link (h.phase i) hb
      exact h.push (by simpa using hk) hp
    · cases hs
  | accept i =>
    simp only [Task.step] at hs
    split at hs
    · rename_i hb
      cases hs
      exact h.set (phase_accept (h.phase i) hb)
    · cases hs
  | refuse i =>
    simp only [Task.step] at hs
    split at hs
    · rename_i hb
      cases hs
      exact h.set (phase_refuse (h.phase i) hb ha)
    · cases hs
  | unlinkRefused i =>
    simp only [Task.step] at hs
    split at hs
    · rename_i hb
      cases hs
      exact h.erase (phase_refused (h.phase i) hb)
    · cases hs
  | waited i =>
    simp only [Task.step] at hs
    split at hs
    · rename_i hb
      cases hs
      exact h.set (phase_waited (h.phase i) hb.1)
    · cases hs
  | syncFunc i =>
    simp only [Task.step] at hs
    split at hs
    · rename_i cs hb
      cases hs
      exact h.set (phase_sync (h.phase i) hb)
    · cases hs
  | syncDispose i skipUpload =>
    simp only [Task.step] at hs
    split at hs
    · rename_i cs hb
      cases hs
      exact h.set (phase_dispose (h.phase i) hb (disposal_ne _ _))
    · cases hs
  | exec i =>
    simp only [Task.step] at hs
    split at hs
    · rename_i hb
      have hp := phase_exec (h.phase i) hb
      split at hs
      · rename_i hst
        cases hs
        rw [if_pos hst] at hp
        exact h.set hp
      · rename_i hst
        cases hs
        rw [if_neg hst] at hp
        exact h.set hp
    · cases hs
  | workerFunc i =>
    simp only [Task.step] at hs
    split at hs
    · rename_i hb
      cases hs
      exact h.set (phase_workerFunc (h.phase i) hb)
    · cases hs
  | setReady i =>
    simp only [Task.step] at hs
    split at hs
    · rename_i hb
      cases hs
      exact h.set (phase_setReady (h.phase i) hb)
    · cases hs
  | complete i =>
    simp only [Task.step] at hs
    split at hs
    · rename_i hb
      have hp := phase_complete (h.phase i) hb
      split at hs
      · rename_i hst
        cases hs
        rw [if_pos hst] at hp
        exact h.set hp
      · rename_i hst
        cases hs
        rw [if_neg hst] at hp
        exact h.set hp
    · cases hs
  | workerDispose i skipUpload =>
    simp only [Task.step] at hs
    split at hs
    · rename_i hb
      cases hs
      exact h.set (phase_workerDispose (h.phase i) hb (disposal_ne _ _))
    · cases hs
  | unlink i =>
    simp only [Task.step] at hs
    split at hs
    · rename_i hb
      cases hs
      exact h.erase (phase_unlink (h.phase i) hb)
    · cases hs
  | free i =>
    simp only [Task.step] at hs
    split at hs
    · rename_i hb
      cases hs
      obtain ⟨he, hp⟩ := phase_free (h.phase i) hb
      rw [if_neg (by simp [he])]
      exact h.set hp
    · cases hs
  | crash =>
    simp only [Task.step, Option.some.injEq] at hs
    subst hs
    exact ⟨h.nodup, h.phase⟩
  | claimDump i =>
    simp only [Task.step] at hs
    split at hs
    · rename_i hb
      cases hs
      have hmem : i ∈ s.tasks := List.mem_of_find?_eq_some hb.2
      have hcl := @List.find?_some _ (fun j => (s.batch j).claimable) _ _ hb.2
      exact h.set (phase_claimDump (h.phase i) (decide_eq_true hmem) hcl ha)
    · cases hs
  | dumpFunc i =>
    simp only [Task.step] at hs
    split at hs
    · rename_i hb
      cases hs
      exact h.set (phase_dumpFunc (h.phase i) hb)
    · cases hs
  | dumpWrite i =>
    simp only [Task.step] at hs
    split at hs
    · rename_i hb
      cases hs
      exact h.set (phase_dumpWrite (h.phase i) hb)
    · cases hs

/-! ## Runs -/

theorem ReachableApart.inv {s : State} (h : ReachableApart s) : Inv s :=
  Machine.Reachable.invariant (by rintro s rfl; exact inv_start)
    (fun _ _ hi ⟨_, ha, hs⟩ => hi.step ha hs) h

theorem Phase.handedOutOnce {k : Bool} {b : Batch} (h : Phase k b) : b.HandedOutOnce := by
  cases h with
  | own r ho =>
    cases ho with
    | done x hx => cases x <;> first | exact absurd rfl hx | decide +revert
    | _ => decide +revert
  | listed pc hp => rcases hp with rfl | rfl <;> decide
  | worker hw =>
    cases hw with
    | ended w x hw hx =>
      rcases hw with rfl | rfl | rfl <;> cases x <;> first | exact absurd rfl hx | decide
    | _ => decide
  | @claimed pc w d uses hp hw hd =>
    cases hd with
    | batchFunc => refine ⟨by simp [Batch.funcs], by simp [Batch.disposals], ?_, by simp⟩; simp [Batch.finished]
    | write p =>
      refine ⟨by simp [Batch.funcs, rightly], by simp [Batch.disposals, rightly], ?_, ?_⟩
      · simp [Batch.finished]
      · simp [rightly]
    | done p =>
      refine ⟨by simp [Batch.funcs, rightly], by simp [Batch.disposals, rightly], ?_, ?_⟩
      · intro _
        constructor
        · simp [Batch.funcs, rightly]
        · simp [Batch.disposals, rightly]
      · simp [rightly]

/-- **A batch is handed out once** in every run in which the pool does not
refuse a claimed task and a crash does not claim a refused one. -/
theorem handed_out_once_of_apart {s : State} (h : ReachableApart s) (i : Nat) :
    (s.batch i).HandedOutOnce :=
  (h.inv.phase i).handedOutOnce

/-- The steps of a run that keeps pool and crash apart. -/
def stepApart (s : State) (l : Label) : Option State := if Apart s l then step s l else none

theorem stepApart_cases (s : State) (l : Label) (t : State) (h : stepApart s l = some t) :
    ∃ l, Apart s l ∧ step s l = some t := by
  simp only [stepApart] at h
  split at h
  · rename_i ha
    exact ⟨l, ha, h⟩
  · cases h

/-- A crash claims a task the pool has taken; the worker only frees it. -/
theorem handed_out_once_of_apart_claimed :
    ∃ s, ReachableApart s ∧ (s.batch 0).finished = true ∧ (s.batch 0).HandedOutOnce := by
  obtain ⟨s, hs, hf⟩ : ∃ s, ReachableApart s ∧ (s.batch 0).finished = true :=
    Machine.Reachable.exists_of_run stepApart stepApart_cases
      [.begin 0 false true, .link 0, .accept 0, .crash, .claimDump 0, .exec 0, .dumpFunc 0,
        .complete 0, .unlink 0, .free 0, .dumpWrite 0]
      (fun s => (s.batch 0).finished) (by decide)
  exact ⟨s, hs, hf, handed_out_once_of_apart hs 0⟩

/-- The crash claims the pending task, the pool refuses it, and the batcher
serializes the batch a second time although a crash has it. -/
theorem handed_out_twice : ∃ s, Reachable s ∧ ¬ (s.batch 0).HandedOutOnce := by
  obtain ⟨s, hs, hn⟩ : ∃ s, Reachable s ∧ decide (¬ (s.batch 0).HandedOutOnce) = true :=
    Machine.Reachable.exists_of_run step (fun _ l _ h => ⟨l, h⟩)
      [.begin 0 false true, .link 0, .crash, .claimDump 0, .dumpFunc 0, .refuse 0,
        .unlinkRefused 0, .waited 0, .syncFunc 0]
      (fun s => decide ¬ (s.batch 0).HandedOutOnce) (by decide)
  exact ⟨s, hs, of_decide_eq_true hn⟩

end SentryNative.Batcher.Task
