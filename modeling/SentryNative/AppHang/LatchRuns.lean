import SentryNative.AppHang.Latch

/-!
# What the watchdog reports

A report is right when the latch was taken once, heartbeats come from the thread that took
it, and no heartbeat slips in between the looks of the watchdog.
-/

namespace SentryNative.AppHang

open Machine

variable {n : Nat}

/-- The heartbeat the watchdog has read and may still report. -/
def pending (s : State n) : Option Nat :=
  match s.worker with
  | .clock _ hb | .recheckActive _ hb _ | .recheckPaused _ hb _ =>
    if hb = 0 ∨ s.timeout = 0 ∨ hb = s.lastFiredHb then none else some hb
  | _ => none

def betweenLastChecks (s : State n) : Bool :=
  match s.worker with
  | .recheckPaused _ _ _ => true
  | _ => false

/-- A thread takes the latch while it is free, stores heartbeats while it has the latch, and
stores none under the watchdog unless it has just ended a hang; the detector is not switched
off between the last two checks while it is paused. -/
def careful (s : State n) : Label n → Bool
  | .app p .next =>
    match s.app p with
    | .storeTarget => s.globals.target = 0
    | .storeHeartbeat _ => s.globals.target = tidOf p && ((pending s).isNone || hangs s)
    | _ => true
  | .stop | .handleException => !(betweenLastChecks s && s.globals.paused)
  | _ => true

def Step (s t : State n) : Prop := ∃ l, step s l = some t

def CarefulStep (s t : State n) : Prop := ∃ l, careful s l = true ∧ step s l = some t

/-- Since the last reset one thread at most was latched, and all heartbeats are its own. -/
def LatchedOnce (s : State n) : Prop :=
  s.history.latched.length ≤ 1 ∧ ∀ b ∈ s.history.beats, s.history.latched = [b.1]

def ReportsHangs (s : State n) : Prop := ∀ r ∈ s.history.reports, r.hung = true

def ReportsOnce (s : State n) : Prop := (s.history.reports.map (·.hb)).Nodup

/-! ## The latch -/

structure LatchInv (s : State n) : Prop where
  heartbeat_le : s.globals.heartbeat ≤ s.time
  now_le : ∀ p now, s.app p = .storeHeartbeat now → now ≤ s.time
  resetAt_le : s.history.resetAt ≤ s.time
  latch : s.globals.target = 0 ∧ s.history.latched = [] ∧ s.history.beats = [] ∨
    s.globals.target ≠ 0 ∧ s.history.latched = [s.globals.target] ∧ ∀ b ∈ s.history.beats, b.1 = s.globals.target
  heard : s.monitor ≠ .resetHeartbeat →
    s.globals.heartbeat = 0 ∨ ∃ rest, s.history.beats = (s.globals.target, s.globals.heartbeat) :: rest
  now_ge : ∀ p now, s.app p = .storeHeartbeat now → s.globals.target = tidOf p →
    s.history.resetAt ≤ now ∧ s.globals.heartbeat ≤ now
  recent : s.monitor ≠ .resetHeartbeat → s.globals.heartbeat = 0 ∨ s.history.resetAt ≤ s.globals.heartbeat

theorem LatchInv.frame {s t : State n} (h : LatchInv s) (htarget : t.globals.target = s.globals.target)
    (hheartbeat : t.globals.heartbeat = s.globals.heartbeat) (happ : t.app = s.app) (hmonitor : t.monitor = s.monitor)
    (htime : t.time = s.time) (hlatched : t.history.latched = s.history.latched)
    (hbeats : t.history.beats = s.history.beats) (hresetAt : t.history.resetAt = s.history.resetAt) : LatchInv t := by
  obtain ⟨h1, h2, h3, h4, h5, h6, h7⟩ := h
  constructor <;> simp only [htarget, hheartbeat, happ, hmonitor, htime, hlatched, hbeats, hresetAt] <;> assumption

theorem tidOf_injective : Function.Injective (tidOf : Fin n → Nat) := by
  intro p q h
  unfold tidOf at h
  exact Fin.ext (by omega)

theorem tidOf_ne_zero (p : Fin n) : tidOf p ≠ 0 := Nat.succ_ne_zero _

/-- A thread moves on without a clock value in its hand. -/
theorem LatchInv.at {s : State n} (h : LatchInv s) (p : Fin n) {pc : AppPc} (hpc : ∀ now, pc ≠ .storeHeartbeat now) :
    LatchInv (s.at p pc) := by
  have hold : ∀ q now, (s.at p pc).app q = .storeHeartbeat now → s.app q = .storeHeartbeat now := by
    intro q now hq
    by_cases hqp : q = p
    · subst hqp
      simp [State.at, hpc] at hq
    · simpa [State.at, hqp] using hq
  exact {
    heartbeat_le := h.heartbeat_le
    now_le := fun q now hq => h.now_le q now (hold q now hq)
    resetAt_le := h.resetAt_le
    latch := h.latch
    heard := h.heard
    now_ge := fun q now hq => h.now_ge q now (hold q now hq)
    recent := h.recent }

theorem LatchInv.clock {s : State n} (h : LatchInv s) (p : Fin n) :
    LatchInv (s.at p (.storeHeartbeat s.time)) := by
  have hold : ∀ q now, (s.at p (.storeHeartbeat s.time)).app q = .storeHeartbeat now →
      now = s.time ∨ s.app q = .storeHeartbeat now := by
    intro q now hq
    by_cases hqp : q = p
    · subst hqp
      simp only [State.at, Function.update_self, AppPc.storeHeartbeat.injEq] at hq
      exact .inl hq.symm
    · right
      simpa [State.at, hqp] using hq
  exact {
    heartbeat_le := h.heartbeat_le
    now_le := by
      intro q now hq
      obtain rfl | hq := hold q now hq
      · exact Nat.le_refl _
      · exact h.now_le q now hq
    resetAt_le := h.resetAt_le
    latch := h.latch
    heard := h.heard
    now_ge := by
      intro q now hq htarget
      obtain rfl | hq := hold q now hq
      · exact ⟨h.resetAt_le, h.heartbeat_le⟩
      · exact h.now_ge q now hq htarget
    recent := h.recent }

theorem LatchInv.store_target {s : State n} (h : LatchInv s) {p : Fin n} (hp : s.app p = .storeTarget)
    (hfree : s.globals.target = 0) : LatchInv (setTarget s (tidOf p)) := by
  have hempty : s.history.latched = [] ∧ s.history.beats = [] := by
    obtain ⟨-, hempty⟩ | ⟨htarget, -⟩ := h.latch
    · exact hempty
    · exact absurd hfree htarget
  exact {
    heartbeat_le := h.heartbeat_le
    now_le := h.now_le
    resetAt_le := h.resetAt_le
    latch := by
      right
      simp [setTarget, hempty, tidOf_ne_zero]
    heard := by
      intro hmonitor
      obtain hzero | ⟨rest, hrest⟩ := h.heard hmonitor
      · exact .inl hzero
      · rw [hempty.2] at hrest
        cases hrest
    now_ge := by
      intro q now hq htarget
      rw [tidOf_injective (show tidOf p = tidOf q from htarget)] at hp
      rw [show s.app q = .storeHeartbeat now from hq] at hp
      cases hp
    recent := h.recent }

theorem LatchInv.store_heartbeat {s : State n} (h : LatchInv s) {p : Fin n} {now : Nat}
    (hp : s.app p = .storeHeartbeat now) (hown : s.globals.target = tidOf p) :
    LatchInv ((setHeartbeat s (tidOf p) now).at p .resume) := by
  have hothers : ∀ q later, ((setHeartbeat s (tidOf p) now).at p .resume).app q = .storeHeartbeat later →
      q ≠ p ∧ s.app q = .storeHeartbeat later := by
    intro q later hq
    by_cases hqp : q = p
    · subst hqp
      simp [State.at] at hq
    · exact ⟨hqp, by simpa [State.at, setHeartbeat, hqp] using hq⟩
  exact {
    heartbeat_le := h.now_le p now hp
    now_le := fun q later hq => h.now_le q later (hothers q later hq).2
    resetAt_le := h.resetAt_le
    latch := by
      obtain ⟨hzero, -⟩ | ⟨htarget, hlatched, hbeats⟩ := h.latch
      · rw [hown] at hzero
        exact absurd hzero (tidOf_ne_zero p)
      · refine .inr ⟨htarget, hlatched, ?_⟩
        intro b hb
        obtain rfl | hb := List.mem_cons.mp hb
        · exact hown.symm
        · exact hbeats b hb
    heard := by
      intro _
      right
      refine ⟨s.history.beats, ?_⟩
      show (tidOf p, now) :: s.history.beats = (s.globals.target, now) :: s.history.beats
      rw [hown]
    now_ge := by
      intro q later hq htarget
      exact absurd (tidOf_injective (htarget.symm.trans hown)) (hothers q later hq).1
    recent := fun _ => .inr (h.now_ge p now hp hown).1 }

theorem LatchInv.lastBeat {s : State n} (h : LatchInv s) (hmonitor : s.monitor ≠ .resetHeartbeat)
    (hheartbeat : s.globals.heartbeat ≠ 0) : lastBeat s = some s.globals.heartbeat := by
  obtain hzero | ⟨rest, hrest⟩ := h.heard hmonitor
  · exact absurd hzero hheartbeat
  · simp [AppHang.lastBeat, hrest]

/-! ## The watchdog -/

/-- The heartbeat the watchdog has read. -/
def WorkerPc.read : WorkerPc → Option Nat
  | .clock _ hb | .recheckActive _ hb _ | .recheckPaused _ hb _ | .capture _ hb _ => some hb
  | _ => none

/-- The heartbeat that is due for a report, and when it was found to be. -/
def WorkerPc.due : WorkerPc → Option (Nat × Nat)
  | .recheckActive _ hb now | .recheckPaused _ hb now | .capture _ hb now => some (hb, now)
  | _ => none

def MonitorPc.watches (pc : MonitorPc) : Prop := pc = .running ∨ pc = .join

theorem MonitorPc.watches.ne_resetHeartbeat {pc : MonitorPc} (h : pc.watches) : pc ≠ .resetHeartbeat := by
  rintro rfl
  obtain h | h := h <;> cases h

structure WatchInv (s : State n) : Prop where
  off : ¬s.monitor.watches → s.worker = .off
  fired : ∀ r ∈ s.history.reports, r.hb < s.time ∧
    (r.hb < s.history.resetAt ∨ r.hb ≤ s.lastFiredHb ∧ (s.monitor.watches ∨ s.monitor = .resetTarget))
  last_le : s.monitor.watches → s.lastFiredHb ≤ s.globals.heartbeat
  read : ∀ hb, s.worker.read = some hb → s.lastFiredHb ≤ hb ∧ (hb = 0 ∨ s.history.resetAt ≤ hb)
  read_le : ∀ hb, s.worker.read = some hb → hb ≤ s.globals.heartbeat
  due : ∀ hb now, s.worker.due = some (hb, now) →
    hb ≠ 0 ∧ s.timeout ≠ 0 ∧ hb ≠ s.lastFiredHb ∧ hb + s.timeout ≤ now ∧ now ≤ s.time
  unseen : ∀ hb, pending s = some hb → s.history.hung = true ∨ s.globals.heartbeat = hb
  armed : betweenLastChecks s = true → s.history.hung = true ∨ s.globals.active = true
  seen : ∀ tid hb now, s.worker = .capture tid hb now → s.history.hung = true
  hangs : ReportsHangs s
  once : ReportsOnce s

theorem WatchInv.frame {s t : State n} (h : WatchInv s) (hmonitor : t.monitor = s.monitor) (hworker : t.worker = s.worker)
    (hreports : t.history.reports = s.history.reports) (hhung : t.history.hung = s.history.hung)
    (hresetAt : t.history.resetAt = s.history.resetAt) (htime : t.time = s.time) (hlast : t.lastFiredHb = s.lastFiredHb)
    (htimeout : t.timeout = s.timeout) (hheartbeat : t.globals.heartbeat = s.globals.heartbeat)
    (hactive : t.globals.active = s.globals.active) : WatchInv t := by
  obtain ⟨h1, h2, h3, h4, h5, h6, h7, h8, h9, h10, h11⟩ := h
  constructor <;>
    simp only [pending, betweenLastChecks, ReportsHangs, ReportsOnce, hmonitor, hworker, hreports, hhung, hresetAt, htime,
      hlast, htimeout, hheartbeat, hactive] at * <;>
    assumption

theorem WatchInv.note {s : State n} (h : WatchInv s) : WatchInv (note s) where
  off := h.off
  fired := h.fired
  last_le := h.last_le
  read := h.read
  read_le := h.read_le
  due := h.due
  unseen := by
    intro hb hpending
    obtain hhung | hsame := h.unseen hb hpending
    · exact .inl (by simp [AppHang.note, hhung])
    · exact .inr hsame
  armed := by
    intro hbetween
    obtain hhung | hactive := h.armed hbetween
    · exact .inl (by simp [AppHang.note, hhung])
    · exact .inr hactive
  seen := by
    intro tid hb now hworker
    simp [AppHang.note, h.seen tid hb now hworker]
  hangs := h.hangs
  once := h.once

/-- Every hang at an instant is noted. -/
def Noted (s : State n) : Prop := hangs s = true → s.history.hung = true

theorem noted_note (s : State n) : Noted (note s) := by
  intro h
  have hsame : hangs (note s) = hangs s := rfl
  rw [hsame] at h
  simp [note, h]

structure Inv (s : State n) : Prop where
  latch : LatchInv s
  watch : WatchInv s
  noted : Noted s

/-- If nothing was noted, a heartbeat that is due meets a detector that is off. -/
theorem Inv.hung_of_due {s : State n} (h : Inv s) {hb now : Nat} (hdue : s.worker.due = some (hb, now))
    (hheartbeat : s.globals.heartbeat = hb) (hactive : s.globals.active = true) (hpaused : s.globals.paused = false) :
    s.history.hung = true := by
  obtain ⟨hne, -, -, hold, hnow⟩ := h.watch.due hb now hdue
  have hwatches : s.monitor.watches := by
    by_contra hno
    rw [h.watch.off hno] at hdue
    cases hdue
  have hmonitor := hwatches.ne_resetHeartbeat
  apply h.noted
  have hlast := h.latch.lastBeat hmonitor (hheartbeat ▸ hne)
  simp only [AppHang.hangs, hactive, hpaused, hlast, hheartbeat]
  simp
  omega

/-! ## Steps -/

theorem Inv.app_step {s t : State n} (h : Inv s) {p : Fin n} {a : Action} (hcareful : careful s (.app p a) = true)
    (hstep : appStep s p a = some t) : LatchInv t ∧ WatchInv t := by
  unfold appStep at hstep
  split at hstep <;> cases hstep
  · refine ⟨h.latch.at p ?_, h.watch.frame rfl rfl rfl rfl rfl rfl rfl rfl rfl rfl⟩
    intro now
    split <;> simp
  · refine ⟨h.latch.at p ?_, h.watch.frame rfl rfl rfl rfl rfl rfl rfl rfl rfl rfl⟩
    intro now
    split <;> simp
  · refine ⟨h.latch.at p ?_, h.watch.frame rfl rfl rfl rfl rfl rfl rfl rfl rfl rfl⟩
    intro now
    split
    · simp
    · split <;> simp
  · rename_i hp
    simp only [careful, hp, decide_eq_true_eq] at hcareful
    exact ⟨(h.latch.store_target hp hcareful).at p (by simp), h.watch.frame rfl rfl rfl rfl rfl rfl rfl rfl rfl rfl⟩
  · exact ⟨h.latch.clock p, h.watch.frame rfl rfl rfl rfl rfl rfl rfl rfl rfl rfl⟩
  · rename_i now hp
    simp only [careful, hp, Bool.and_eq_true, decide_eq_true_eq, Bool.or_eq_true] at hcareful
    obtain ⟨hown, hpending⟩ := hcareful
    refine ⟨h.latch.store_heartbeat hp hown, ?_⟩
    exact {
      off := h.watch.off
      fired := h.watch.fired
      last_le := fun hwatches => Nat.le_trans (h.watch.last_le hwatches) (h.latch.now_ge p now hp hown).2
      read := h.watch.read
      read_le := fun hb hread => Nat.le_trans (h.watch.read_le hb hread) (h.latch.now_ge p now hp hown).2
      due := h.watch.due
      unseen := by
        intro hb hhb
        left
        obtain hnone | hhangs := hpending
        · rw [show pending s = some hb from hhb] at hnone
          cases hnone
        · exact h.noted hhangs
      armed := h.watch.armed
      seen := h.watch.seen
      hangs := h.watch.hangs
      once := h.watch.once }
  · exact ⟨(h.latch.frame rfl rfl rfl rfl rfl rfl rfl rfl : LatchInv { s with globals.paused := false }).at p (by simp),
      h.watch.frame rfl rfl rfl rfl rfl rfl rfl rfl rfl rfl⟩
  · exact ⟨(h.latch.frame rfl rfl rfl rfl rfl rfl rfl rfl : LatchInv { s with globals.paused := true }).at p (by simp),
      h.watch.frame rfl rfl rfl rfl rfl rfl rfl rfl rfl rfl⟩

theorem shouldCapture_eq_true {hb now timeout last : Nat} :
    shouldCapture hb now timeout last = true ↔ hb ≠ 0 ∧ timeout ≠ 0 ∧ hb + timeout ≤ now ∧ hb ≠ last := by
  unfold shouldCapture
  split
  · simp
    omega
  · split
    · simp
      omega
    · split
      · simp
        omega
      · simp
        omega

/-- The watchdog goes on to where it holds no heartbeat. -/
theorem WatchInv.go {s : State n} (h : WatchInv s) (hwatches : s.monitor.watches) {pc : WorkerPc}
    (hread : pc.read = none) : WatchInv { s with worker := pc } where
  off := fun hno => absurd hwatches hno
  fired := h.fired
  last_le := h.last_le
  read := by
    intro hb hhb
    rw [show pc.read = some hb from hhb] at hread
    cases hread
  read_le := by
    intro hb hhb
    rw [show pc.read = some hb from hhb] at hread
    cases hread
  due := by
    intro hb now hdue
    cases pc <;> first | (cases hdue; done) | (cases hread; done)
  unseen := by
    intro hb hpending
    cases pc <;> first | (cases hpending; done) | (cases hread; done)
  armed := by
    intro hbetween
    cases pc <;> first | (cases hbetween; done) | (cases hread; done)
  seen := by
    rintro tid hb now hpc
    rw [show pc = .capture tid hb now from hpc] at hread
    cases hread
  hangs := h.hangs
  once := h.once

/-- The watchdog goes on with the heartbeat it has read. -/
theorem WatchInv.hold {s : State n} (h : WatchInv s) (hwatches : s.monitor.watches) {pc : WorkerPc}
    (hread : pc.read = s.worker.read)
    (hdue : ∀ hb now, pc.due = some (hb, now) →
      hb ≠ 0 ∧ s.timeout ≠ 0 ∧ hb ≠ s.lastFiredHb ∧ hb + s.timeout ≤ now ∧ now ≤ s.time)
    (hunseen : ∀ hb, pending { s with worker := pc } = some hb → s.history.hung = true ∨ s.globals.heartbeat = hb)
    (harmed : betweenLastChecks { s with worker := pc } = true → s.history.hung = true ∨ s.globals.active = true)
    (hseen : ∀ tid hb now, pc = .capture tid hb now → s.history.hung = true) : WatchInv { s with worker := pc } where
  off := fun hno => absurd hwatches hno
  fired := h.fired
  last_le := h.last_le
  read := by
    intro hb hhb
    exact h.read hb (hread ▸ hhb)
  read_le := by
    intro hb hhb
    exact h.read_le hb (hread ▸ hhb)
  due := hdue
  unseen := hunseen
  armed := harmed
  seen := hseen
  hangs := h.hangs
  once := h.once

theorem Inv.watches {s : State n} (h : Inv s) (hworker : s.worker ≠ .off) : s.monitor.watches := by
  by_contra hno
  exact hworker (h.watch.off hno)

theorem Inv.worker_step {s t : State n} (h : Inv s) {frames : Bool} (hstep : workerStep s frames = some t) :
    LatchInv t ∧ WatchInv t := by
  have hwatches : s.monitor.watches := by
    apply h.watches
    intro hoff
    unfold workerStep at hstep
    rw [hoff] at hstep
    cases hstep
  unfold workerStep at hstep
  split at hstep <;> cases hstep
  · refine ⟨h.latch.frame rfl rfl rfl rfl rfl rfl rfl rfl, h.watch.go hwatches ?_⟩
    split <;> rfl
  · exact ⟨h.latch.frame rfl rfl rfl rfl rfl rfl rfl rfl, h.watch.go hwatches rfl⟩
  · refine ⟨h.latch.frame rfl rfl rfl rfl rfl rfl rfl rfl, h.watch.go hwatches ?_⟩
    split <;> rfl
  · refine ⟨h.latch.frame rfl rfl rfl rfl rfl rfl rfl rfl, h.watch.go hwatches ?_⟩
    split <;> rfl
  · exact ⟨h.latch.frame rfl rfl rfl rfl rfl rfl rfl rfl, h.watch.go hwatches rfl⟩
  · -- the latch is read
    rename_i tid hworker
    refine ⟨h.latch.frame rfl rfl rfl rfl rfl rfl rfl rfl, ?_⟩
    exact {
      off := fun hno => absurd hwatches hno
      fired := h.watch.fired
      last_le := h.watch.last_le
      read := by
        rintro hb hhb
        cases hhb
        exact ⟨h.watch.last_le hwatches, h.latch.recent hwatches.ne_resetHeartbeat⟩
      read_le := by
        rintro hb hhb
        cases hhb
        exact Nat.le_refl _
      due := fun _ _ hdue => by cases hdue
      unseen := by
        intro hb hpending
        right
        simp only [pending] at hpending
        split at hpending
        · cases hpending
        · exact Option.some.inj hpending
      armed := fun hbetween => by cases hbetween
      seen := fun _ _ _ hcapture => by cases hcapture
      hangs := h.watch.hangs
      once := h.watch.once }
  · rename_i tid hb hworker
    refine ⟨h.latch.frame rfl rfl rfl rfl rfl rfl rfl rfl, ?_⟩
    by_cases hshould : shouldCapture hb s.time s.timeout s.lastFiredHb = true
    · rw [if_pos hshould]
      obtain ⟨hne, htimeout, hold, hlast⟩ := shouldCapture_eq_true.mp hshould
      have hpending : pending s = some hb := by
        simp [pending, hworker, hne, htimeout, hlast]
      apply h.watch.hold hwatches
      · rw [hworker]
        rfl
      · rintro hb' now hdue
        cases hdue
        exact ⟨hne, htimeout, hlast, hold, Nat.le_refl _⟩
      · intro hb' hpending'
        have hsame : some hb' = some hb := by
          rw [← hpending']
          simp [pending, hne, htimeout, hlast]
        cases hsame
        exact h.watch.unseen hb hpending
      · intro hbetween
        cases hbetween
      · intro _ _ _ hcapture
        cases hcapture
    · rw [if_neg hshould]
      exact h.watch.go hwatches rfl
  · rename_i tid hb now hworker
    refine ⟨h.latch.frame rfl rfl rfl rfl rfl rfl rfl rfl, ?_⟩
    by_cases hactive : s.globals.active = true
    · rw [if_pos hactive]
      apply h.watch.hold hwatches
      · rw [hworker]
        rfl
      · rintro hb' now' hdue
        cases hdue
        exact h.watch.due hb now (by rw [hworker]; rfl)
      · intro hb' hpending
        apply h.watch.unseen
        simpa [pending, hworker] using hpending
      · intro _
        exact .inr hactive
      · intro _ _ _ hcapture
        cases hcapture
    · rw [if_neg hactive]
      exact h.watch.go hwatches rfl
  · rename_i tid hb now hworker
    refine ⟨h.latch.frame rfl rfl rfl rfl rfl rfl rfl rfl, ?_⟩
    by_cases hpaused : s.globals.paused = true
    · rw [if_pos hpaused]
      exact h.watch.go hwatches rfl
    · rw [if_neg hpaused]
      have hdue : s.worker.due = some (hb, now) := by
        rw [hworker]
        rfl
      have hseen : s.history.hung = true := by
        obtain ⟨hne, htimeout, hlast, -⟩ := h.watch.due hb now hdue
        obtain hhung | hsame := h.watch.unseen hb (by simp [pending, hworker, hne, htimeout, hlast])
        · exact hhung
        · obtain hhung | hactive := h.watch.armed (by simp [betweenLastChecks, hworker])
          · exact hhung
          · exact h.hung_of_due hdue hsame hactive (by simpa using hpaused)
      apply h.watch.hold hwatches
      · rw [hworker]
        rfl
      · rintro hb' now' hdue'
        cases hdue'
        exact h.watch.due hb now hdue
      · intro _ hpending
        cases hpending
      · intro hbetween
        cases hbetween
      · intro _ _ _ _
        exact hseen
  · -- the event is captured
    rename_i tid hb now hworker
    refine ⟨h.latch.frame ?_ ?_ ?_ ?_ ?_ ?_ ?_ ?_, ?_⟩
    any_goals
      unfold capture
      split <;> rfl
    obtain ⟨hne, htimeout, hlast, hold, hnow⟩ := h.watch.due hb now (by rw [hworker]; rfl)
    obtain ⟨hlast_le, hresetAt⟩ := h.watch.read hb (by rw [hworker]; rfl)
    have hheartbeat := h.watch.read_le hb (by rw [hworker]; rfl)
    unfold capture
    split
    · exact {
        off := fun hno => absurd hwatches hno
        fired := by
          intro r hr
          obtain rfl | hr := List.mem_cons.mp hr
          · exact ⟨by show hb < s.time; omega, .inr ⟨Nat.le_refl _, .inl hwatches⟩⟩
          · obtain ⟨htime, hreset | ⟨hle, hmonitor⟩⟩ := h.watch.fired r hr
            · exact ⟨htime, .inl hreset⟩
            · exact ⟨htime, .inr ⟨Nat.le_trans hle hlast_le, hmonitor⟩⟩
        last_le := fun _ => hheartbeat
        read := fun _ hread => by cases hread
        read_le := fun _ hread => by cases hread
        due := fun _ _ hdue => by cases hdue
        unseen := fun _ hpending => by cases hpending
        armed := fun hbetween => by cases hbetween
        seen := fun _ _ _ hcapture => by cases hcapture
        hangs := by
          intro r hr
          obtain rfl | hr := List.mem_cons.mp hr
          · exact h.watch.seen tid hb now hworker
          · exact h.watch.hangs r hr
        once := by
          apply List.nodup_cons.mpr
          refine ⟨?_, h.watch.once⟩
          -- an earlier report is of an earlier heartbeat
          intro hmem
          obtain ⟨r, hr, hsame⟩ := List.mem_map.mp hmem
          obtain ⟨-, hreset | ⟨hle, -⟩⟩ := h.watch.fired r hr <;> simp only at hsame <;> omega }
    · exact h.watch.go hwatches rfl

theorem LatchInv.monitor_to {s : State n} (h : LatchInv s) {pc : MonitorPc} (hpc : s.monitor ≠ .resetHeartbeat)
    (active : Bool) (worker : WorkerPc) (last timeout : Nat) :
    LatchInv { s with
      globals.active := active
      monitor := pc
      worker := worker
      lastFiredHb := last
      timeout := timeout } where
  heartbeat_le := h.heartbeat_le
  now_le := h.now_le
  resetAt_le := h.resetAt_le
  latch := h.latch
  heard := fun _ => h.heard hpc
  now_ge := h.now_ge
  recent := fun _ => h.recent hpc

/-- No report of a watchdog that is gone is as recent as the last reset. -/
theorem WatchInv.idle {s t : State n} (h : WatchInv s) (hoff : t.worker = .off) (hwatches : ¬t.monitor.watches)
    (htime : s.time ≤ t.time) (hreports : t.history.reports = s.history.reports)
    (hfired : ∀ r ∈ s.history.reports, r.hb < t.history.resetAt ∨ r.hb ≤ t.lastFiredHb ∧ t.monitor = .resetTarget) :
    WatchInv t where
  off := fun _ => hoff
  fired := by
    intro r hr
    rw [hreports] at hr
    refine ⟨Nat.lt_of_lt_of_le (h.fired r hr).1 htime, ?_⟩
    obtain hreset | ⟨hle, hmonitor⟩ := hfired r hr
    · exact .inl hreset
    · exact .inr ⟨hle, .inr hmonitor⟩
  last_le := fun hw => absurd hw hwatches
  read := by simp [hoff, WorkerPc.read]
  read_le := by simp [hoff, WorkerPc.read]
  due := by simp [hoff, WorkerPc.due]
  unseen := by simp [pending, hoff]
  armed := by simp [betweenLastChecks, hoff]
  seen := by simp [hoff]
  hangs := by
    intro r hr
    exact h.hangs r (hreports ▸ hr)
  once := by
    unfold ReportsOnce
    rw [hreports]
    exact h.once

theorem Inv.disarm {s : State n} (h : Inv s) {pc : MonitorPc} (hcareful : (!(betweenLastChecks s && s.globals.paused)) = true)
    (hwatches : pc.watches ↔ s.monitor.watches) (hreset : s.monitor = .resetTarget → pc = .resetTarget) :
    WatchInv { s with globals.active := false, monitor := pc } where
  off := fun hno => h.watch.off (fun hw => hno (hwatches.mpr hw))
  fired := by
    intro r hr
    obtain ⟨htime, hold | ⟨hle, hmonitor⟩⟩ := h.watch.fired r hr
    · exact ⟨htime, .inl hold⟩
    · exact ⟨htime, .inr ⟨hle, hmonitor.imp hwatches.mpr hreset⟩⟩
  last_le := fun hw => h.watch.last_le (hwatches.mp hw)
  read := h.watch.read
  read_le := h.watch.read_le
  due := h.watch.due
  unseen := h.watch.unseen
  armed := by
    intro hbetween
    left
    have hbetween' : betweenLastChecks s = true := hbetween
    have hpaused : s.globals.paused = false := by
      simpa [hbetween'] using hcareful
    cases hworker : s.worker <;> simp [betweenLastChecks, hworker] at hbetween'
    rename_i tid hb now
    have hdue : s.worker.due = some (hb, now) := by
      rw [hworker]
      rfl
    obtain ⟨hne, htimeout, hlast, -⟩ := h.watch.due hb now hdue
    obtain hhung | hsame := h.watch.unseen hb (by simp [pending, hworker, hne, htimeout, hlast])
    · exact hhung
    · obtain hhung | hactive := h.watch.armed hbetween
      · exact hhung
      · exact h.hung_of_due hdue hsame hactive hpaused
  seen := h.watch.seen
  hangs := h.watch.hangs
  once := h.watch.once

theorem MonitorPc.not_watches_of {pc : MonitorPc} (h : pc ≠ .running) (h' : pc ≠ .join) : ¬pc.watches := by
  rintro (rfl | rfl)
  · exact h rfl
  · exact h' rfl

theorem Inv.fired_before {s : State n} (h : Inv s) (hwatches : ¬s.monitor.watches) (hreset : s.monitor ≠ .resetTarget) :
    ∀ r ∈ s.history.reports, r.hb < s.history.resetAt := by
  intro r hr
  obtain ⟨-, hold | ⟨-, hmonitor⟩⟩ := h.watch.fired r hr
  · exact hold
  · exact absurd hmonitor (not_or.mpr ⟨hwatches, hreset⟩)

theorem Inv.monitor_step {s t : State n} (h : Inv s) {l : Label n} (hcareful : careful s l = true)
    (hstep : monitorStep s l = some t) : LatchInv t ∧ WatchInv t := by
  unfold monitorStep at hstep
  split at hstep
  · rename_i hmonitor
    cases hstep
    have hno : ¬s.monitor.watches := hmonitor ▸ MonitorPc.not_watches_of (by simp) (by simp)
    refine ⟨h.latch.monitor_to (by simp [hmonitor]) true s.worker s.lastFiredHb _, ?_⟩
    exact h.watch.idle (h.watch.off hno) (MonitorPc.not_watches_of (by simp) (by simp)) (Nat.le_refl _) rfl
      (fun r hr => .inl (h.fired_before hno (by simp [hmonitor]) r hr))
  · rename_i hmonitor
    cases hstep
    have hno : ¬s.monitor.watches := hmonitor ▸ MonitorPc.not_watches_of (by simp) (by simp)
    refine ⟨h.latch.monitor_to (by simp [hmonitor]) s.globals.active .loop 0 s.timeout, ?_⟩
    exact {
      off := fun hno' => absurd (.inl rfl) hno'
      fired := fun r hr => ⟨(h.watch.fired r hr).1, .inl (h.fired_before hno (by simp [hmonitor]) r hr)⟩
      last_le := fun _ => Nat.zero_le _
      read := fun _ hread => by cases hread
      read_le := fun _ hread => by cases hread
      due := fun _ _ hdue => by cases hdue
      unseen := fun _ hpending => by cases hpending
      armed := fun hbetween => by cases hbetween
      seen := fun _ _ _ hcapture => by cases hcapture
      hangs := h.watch.hangs
      once := h.watch.once }
  · rename_i hmonitor
    cases hstep
    have hno : ¬s.monitor.watches := hmonitor ▸ MonitorPc.not_watches_of (by simp) (by simp)
    refine ⟨h.latch.monitor_to (by simp [hmonitor]) s.globals.active s.worker s.lastFiredHb s.timeout, ?_⟩
    exact h.watch.idle (h.watch.off hno) (MonitorPc.not_watches_of (by simp) (by simp)) (Nat.le_refl _) rfl
      (fun r hr => .inl (h.fired_before hno (by simp [hmonitor]) r hr))
  · rename_i hmonitor
    cases hstep
    have hno : ¬s.monitor.watches := hmonitor ▸ MonitorPc.not_watches_of (by simp) (by simp)
    refine ⟨h.latch.monitor_to (by simp [hmonitor]) false s.worker s.lastFiredHb s.timeout, ?_⟩
    exact h.watch.idle (h.watch.off hno) (MonitorPc.not_watches_of (by simp) (by simp)) (Nat.le_refl _) rfl
      (fun r hr => .inl (h.fired_before hno (by simp [hmonitor]) r hr))
  · rename_i hmonitor
    cases hstep
    refine ⟨h.latch.monitor_to (by simp [hmonitor]) false s.worker s.lastFiredHb s.timeout, ?_⟩
    apply h.disarm hcareful
    · simp [MonitorPc.watches, hmonitor]
    · simp [hmonitor]
  · rename_i hmonitor
    split at hstep
    · cases hstep
      refine ⟨h.latch.monitor_to (by simp [hmonitor]) s.globals.active .off s.lastFiredHb s.timeout, ?_⟩
      refine h.watch.idle rfl (MonitorPc.not_watches_of (by simp) (by simp)) (Nat.le_refl _) rfl ?_
      intro r hr
      obtain ⟨-, hold | ⟨hle, -⟩⟩ := h.watch.fired r hr
      · exact .inl hold
      · exact .inr ⟨hle, rfl⟩
    · cases hstep
  · rename_i hmonitor
    cases hstep
    have hno : ¬s.monitor.watches := hmonitor ▸ MonitorPc.not_watches_of (by simp) (by simp)
    constructor
    · exact {
        heartbeat_le := h.latch.heartbeat_le
        now_le := h.latch.now_le
        resetAt_le := Nat.le_refl _
        latch := .inl ⟨rfl, rfl, rfl⟩
        heard := fun hne => absurd rfl hne
        now_ge := fun p _ _ htarget => absurd htarget.symm (tidOf_ne_zero p)
        recent := fun hne => absurd rfl hne }
    · exact h.watch.idle (h.watch.off hno) (MonitorPc.not_watches_of (by simp) (by simp)) (Nat.le_refl _) rfl
        (fun r hr => .inl (h.watch.fired r hr).1)
  · rename_i hmonitor
    cases hstep
    have hno : ¬s.monitor.watches := hmonitor ▸ MonitorPc.not_watches_of (by simp) (by simp)
    constructor
    · exact {
        heartbeat_le := Nat.zero_le _
        now_le := h.latch.now_le
        resetAt_le := h.latch.resetAt_le
        latch := h.latch.latch
        heard := fun _ => .inl rfl
        now_ge := fun p now hp htarget => ⟨(h.latch.now_ge p now hp htarget).1, Nat.zero_le _⟩
        recent := fun _ => .inl rfl }
    · exact h.watch.idle (h.watch.off hno) (MonitorPc.not_watches_of (by simp) (by simp)) (Nat.le_refl _) rfl
        (fun r hr => .inl (h.fired_before hno (by simp [hmonitor]) r hr))
  · rename_i hmonitor
    cases hstep
    have hno : ¬s.monitor.watches := hmonitor ▸ MonitorPc.not_watches_of (by simp) (by simp)
    constructor
    · exact {
        heartbeat_le := h.latch.heartbeat_le
        now_le := h.latch.now_le
        resetAt_le := h.latch.resetAt_le
        latch := h.latch.latch
        heard := fun _ => h.latch.heard (by simp [hmonitor])
        now_ge := h.latch.now_ge
        recent := fun _ => h.latch.recent (by simp [hmonitor]) }
    · exact h.watch.idle (h.watch.off hno) (MonitorPc.not_watches_of (by simp) (by simp)) (Nat.le_refl _) rfl
        (fun r hr => .inl (h.fired_before hno (by simp [hmonitor]) r hr))
  · cases hstep

theorem Inv.tick {s : State n} (h : Inv s) : LatchInv { s with time := s.time + 1 } ∧ WatchInv { s with time := s.time + 1 } := by
  constructor
  · exact {
      heartbeat_le := Nat.le_succ_of_le h.latch.heartbeat_le
      now_le := fun p now hp => Nat.le_succ_of_le (h.latch.now_le p now hp)
      resetAt_le := Nat.le_succ_of_le h.latch.resetAt_le
      latch := h.latch.latch
      heard := h.latch.heard
      now_ge := h.latch.now_ge
      recent := h.latch.recent }
  · exact {
      off := h.watch.off
      fired := fun r hr => ⟨Nat.lt_succ_of_lt (h.watch.fired r hr).1, (h.watch.fired r hr).2⟩
      last_le := h.watch.last_le
      read := h.watch.read
      read_le := h.watch.read_le
      due := by
        intro hb now hdue
        obtain ⟨hne, htimeout, hlast, hold, hnow⟩ := h.watch.due hb now hdue
        exact ⟨hne, htimeout, hlast, hold, Nat.le_succ_of_le hnow⟩
      unseen := h.watch.unseen
      armed := h.watch.armed
      seen := h.watch.seen
      hangs := h.watch.hangs
      once := h.watch.once }

theorem inv_step {s t : State n} (h : Inv s) (hstep : CarefulStep s t) : Inv t := by
  obtain ⟨l, hcareful, hstep⟩ := hstep
  obtain ⟨u, hact, rfl⟩ := Option.map_eq_some_iff.mp hstep
  have hparts : LatchInv u ∧ WatchInv u := by
    unfold act at hact
    split at hact
    · exact h.app_step hcareful hact
    · exact h.worker_step hact
    · cases hact
      refine ⟨h.latch.frame rfl rfl rfl rfl rfl rfl rfl rfl, ?_⟩
      exact h.disarm hcareful Iff.rfl id
    · cases hact
      exact h.tick
    · exact h.monitor_step hcareful hact
  exact ⟨hparts.1.frame rfl rfl rfl rfl rfl rfl rfl rfl, hparts.2.note, noted_note u⟩

theorem inv_start (time : Nat) : Inv (start time : State n) where
  latch := {
    heartbeat_le := Nat.zero_le _
    now_le := fun _ _ hp => by cases hp
    resetAt_le := Nat.le_refl _
    latch := .inl ⟨rfl, rfl, rfl⟩
    heard := fun _ => .inl rfl
    now_ge := fun _ _ hp => by cases hp
    recent := fun _ => .inl rfl }
  watch := {
    off := fun _ => rfl
    fired := fun _ hr => by cases hr
    last_le := fun _ => Nat.le_refl _
    read := fun _ hread => by cases hread
    read_le := fun _ hread => by cases hread
    due := fun _ _ hdue => by cases hdue
    unseen := fun _ hpending => by cases hpending
    armed := fun hbetween => by cases hbetween
    seen := fun _ _ _ hcapture => by cases hcapture
    hangs := fun _ hr => by cases hr
    once := List.nodup_nil }
  noted := fun hhangs => by cases hhangs

/-- In a run of careful steps the latch is taken once between resets, every heartbeat stored is
of the thread that took it, every report is of a hang, and no heartbeat is reported twice. -/
theorem careful_reports {time : Nat} {s : State n} (h : Reachable (· = start time) CarefulStep s) :
    LatchedOnce s ∧ ReportsHangs s ∧ ReportsOnce s := by
  have hinv : Inv s := h.invariant (fun _ hs => hs ▸ inv_start time) (fun _ _ hs hstep => inv_step hs hstep)
  refine ⟨?_, hinv.watch.hangs, hinv.watch.once⟩
  obtain ⟨-, hlatched, hbeats⟩ | ⟨-, hlatched, hbeats⟩ := hinv.latch.latch
  · refine ⟨by simp [hlatched], ?_⟩
    intro b hb
    rw [hbeats] at hb
    cases hb
  · refine ⟨by simp [hlatched], ?_⟩
    intro b hb
    rw [hlatched, hbeats b hb]

def stepCareful (s : State n) (l : Label n) : Option (State n) := if careful s l = true then step s l else none

theorem stepCareful_cases (s : State n) (l : Label n) (t : State n) (h : stepCareful s l = some t) : CarefulStep s t := by
  unfold stepCareful at h
  split at h
  · exact ⟨l, ‹_›, h⟩
  · cases h

def heartbeatRun (p : Fin n) : List (Label n) :=
  [.app p .heartbeat, .app p .next, .app p .next, .app p .next, .app p .next, .app p .next]

def latchedBeatRun (p : Fin n) : List (Label n) :=
  [.app p .heartbeat, .app p .next, .app p .next, .app p .next, .app p .next]

/-- A thread that stops beating is reported. -/
theorem careful_reports_hang : ∃ s : State 1, s.history.reports = [⟨1, 5, true⟩] ∧
    LatchedOnce s ∧ ReportsHangs s ∧ ReportsOnce s := by
  have hrun : (run stepCareful (start 5 : State 1) ([.start 10, .spawned true] ++ heartbeatRun 0 ++
      List.replicate 10 .tick ++ List.replicate 10 (.worker true))).map (·.history.reports) = some [⟨1, 5, true⟩] := by
    decide +kernel
  obtain ⟨s, hs, hreports⟩ := Option.map_eq_some_iff.mp hrun
  exact ⟨s, hreports, careful_reports (Reachable.of_run stepCareful_cases (.start rfl) hs)⟩

/-- Two threads find the latch free and both take it, so that a heartbeat of a thread that is
not latched is stored; and a thread that beats in time, while the watchdog is between the latch
and the clock, is reported. -/
theorem latched_twice_and_false_report :
    (∃ s : State 2, Reachable (· = start 5) Step s ∧ ¬LatchedOnce s) ∧
      ∃ s : State 1, Reachable (· = start 5) Step s ∧ ¬ReportsHangs s := by
  constructor
  · have hrun : (run step (start 5 : State 2) [.start 10, .spawned true, .app 0 .heartbeat, .app 1 .heartbeat,
        .app 0 .next, .app 1 .next, .app 0 .next, .app 1 .next, .app 0 .next, .app 0 .next]).map (·.history.latched) =
        some [2, 1] := by
      decide +kernel
    obtain ⟨s, hs, hlatched⟩ := Option.map_eq_some_iff.mp hrun
    refine ⟨s, Reachable.of_run (fun _ l _ h => ⟨l, h⟩) (.start rfl) hs, ?_⟩
    rintro ⟨hlength, -⟩
    rw [hlatched] at hlength
    simp at hlength
  · have hrun : (run step (start 5 : State 1) ([.start 10, .spawned true] ++ heartbeatRun 0 ++
        List.replicate 9 .tick ++ List.replicate 6 (.worker true) ++ latchedBeatRun 0 ++ [.tick] ++
        List.replicate 4 (.worker true))).map (·.history.reports) = some [⟨1, 5, false⟩] := by
      decide +kernel
    obtain ⟨s, hs, hreports⟩ := Option.map_eq_some_iff.mp hrun
    refine ⟨s, Reachable.of_run (fun _ l _ h => ⟨l, h⟩) (.start rfl) hs, ?_⟩
    intro hhangs
    have hfalse := hhangs ⟨1, 5, false⟩ (by rw [hreports]; exact List.mem_cons_self)
    cases hfalse

end SentryNative.AppHang
