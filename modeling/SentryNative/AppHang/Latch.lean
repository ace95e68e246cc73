import SentryNative.Lib.Machine

/-!
# The app-hang latch and its watchdog

Application threads publish heartbeats and pause the detector, the watchdog reads the latch
and reports a hang, and the monitor is started and stopped. Every atomic access and every
reading of the clock is one step.
-/

namespace SentryNative.AppHang

variable {n : Nat}

def shouldCapture (hb now timeout lastFiredHb : Nat) : Bool :=
  if hb = 0 ∨ timeout = 0 then false
  else if now < hb ∨ now - hb < timeout then false
  else if hb = lastFiredHb then false
  else true

/-- `g_target_tid`, `g_last_heartbeat_ms`, `g_app_hang_active` and `g_app_hang_paused`. -/
structure Globals where
  target : Nat
  heartbeat : Nat
  active : Bool
  paused : Bool
  deriving DecidableEq, Repr

/-- `sentry_app_hang_heartbeat` and `sentry_app_hang_pause`, by what comes next. -/
inductive AppPc where
  | idle
  | loadTarget
  | storeTarget
  | clock
  | storeHeartbeat (now : Nat)
  | resume
  | storePaused
  deriving DecidableEq, Repr

/-- `worker`, by what comes next. -/
inductive WorkerPc where
  | off
  | loop
  | wait
  | isActive
  | isPaused
  | loadTarget
  | loadHeartbeat (tid : Nat)
  | clock (tid hb : Nat)
  | recheckActive (tid hb now : Nat)
  | recheckPaused (tid hb now : Nat)
  | capture (tid hb now : Nat)
  | ended
  deriving DecidableEq, Repr

/-- `sentry__app_hang_monitor_start` and `sentry__app_hang_monitor_stop`, by what comes next. -/
inductive MonitorPc where
  | stopped
  | spawn
  | unarm
  | running
  | join
  | resetTarget
  | resetHeartbeat
  | resetPaused
  deriving DecidableEq, Repr

/-- A captured event: the thread and the heartbeat it reports, and whether there was a hang. -/
structure Report where
  tid : Nat
  hb : Nat
  hung : Bool
  deriving DecidableEq, Repr

/-- What has happened: the threads latched and the heartbeats stored since the last reset
(newest first), when that was, whether there was a hang since the watchdog read the latch,
and the events. -/
structure History where
  latched : List Nat
  beats : List (Nat × Nat)
  resetAt : Nat
  hung : Bool
  reports : List Report
  deriving DecidableEq, Repr

structure State (n : Nat) where
  globals : Globals
  app : Fin n → AppPc
  worker : WorkerPc
  lastFiredHb : Nat
  monitor : MonitorPc
  timeout : Nat
  time : Nat
  history : History

inductive Action where
  | heartbeat
  | pause
  | next
  deriving DecidableEq, Repr

inductive Label (n : Nat) where
  | app (p : Fin n) (a : Action)
  | worker (frames : Bool)
  | start (timeout : Nat)
  | spawned (ok : Bool)
  | stop
  | monitor
  | handleException
  | tick
  deriving DecidableEq, Repr

/-- `sentry__app_hang_current_tid`. -/
def tidOf (p : Fin n) : Nat := p.val + 1

def State.at (s : State n) (p : Fin n) (pc : AppPc) : State n := { s with app := Function.update s.app p pc }

def setTarget (s : State n) (tid : Nat) : State n :=
  { s with
    globals.target := tid
    history.latched := tid :: s.history.latched }

def setHeartbeat (s : State n) (tid now : Nat) : State n :=
  { s with
    globals.heartbeat := now
    history.beats := (tid, now) :: s.history.beats }

def appStep (s : State n) (p : Fin n) (a : Action) : Option (State n) :=
  match s.app p, a with
  | .idle, .heartbeat => some (s.at p (if s.globals.active then .loadTarget else .idle))
  | .idle, .pause => some (s.at p (if s.globals.active then .storePaused else .idle))
  | .loadTarget, .next =>
    some (s.at p (
      if s.globals.target = 0 then .storeTarget
      else if s.globals.target = tidOf p then .clock
      else .idle))
  | .storeTarget, .next => some ((setTarget s (tidOf p)).at p .clock)
  | .clock, .next => some (s.at p (.storeHeartbeat s.time))
  | .storeHeartbeat now, .next => some ((setHeartbeat s (tidOf p) now).at p .resume)
  | .resume, .next => some ({ s with globals.paused := false }.at p .idle)
  | .storePaused, .next => some ({ s with globals.paused := true }.at p .idle)
  | _, _ => none

/-- Only an event that was captured marks the hang as reported. -/
def capture (s : State n) (frames : Bool) (tid hb : Nat) : State n :=
  if frames then
    { s with
      worker := .loop
      lastFiredHb := hb
      history.reports := ⟨tid, hb, s.history.hung⟩ :: s.history.reports }
  else { s with worker := .loop }

def workerStep (s : State n) (frames : Bool) : Option (State n) :=
  match s.worker with
  | .off | .ended => none
  | .loop => some { s with worker := if s.globals.active then .wait else .ended }
  | .wait => some { s with worker := .isActive }
  | .isActive => some { s with worker := if s.globals.active then .isPaused else .ended }
  | .isPaused => some { s with worker := if s.globals.paused then .loop else .loadTarget }
  | .loadTarget => some { s with worker := .loadHeartbeat s.globals.target }
  | .loadHeartbeat tid =>
    some { s with
      worker := .clock tid s.globals.heartbeat
      history.hung := false }
  | .clock tid hb =>
    some { s with
      worker := if shouldCapture hb s.time s.timeout s.lastFiredHb then .recheckActive tid hb s.time else .loop }
  | .recheckActive tid hb now =>
    some { s with worker := if s.globals.active then .recheckPaused tid hb now else .ended }
  | .recheckPaused tid hb now =>
    some { s with worker := if s.globals.paused then .loop else .capture tid hb now }
  | .capture tid hb _ => some (capture s frames tid hb)

def monitorStep (s : State n) (l : Label n) : Option (State n) :=
  match s.monitor, l with
  | .stopped, .start timeout => some { s with globals.active := true, monitor := .spawn, timeout }
  | .spawn, .spawned true => some { s with worker := .loop, lastFiredHb := 0, monitor := .running }
  | .spawn, .spawned false => some { s with monitor := .unarm }
  | .unarm, .monitor => some { s with globals.active := false, monitor := .stopped }
  | .running, .stop => some { s with globals.active := false, monitor := .join }
  | .join, .monitor =>
    if s.worker = .ended then some { s with worker := .off, monitor := .resetTarget } else none
  | .resetTarget, .monitor =>
    some { s with
      globals.target := 0
      monitor := .resetHeartbeat
      history.latched := []
      history.beats := []
      history.resetAt := s.time }
  | .resetHeartbeat, .monitor => some { s with globals.heartbeat := 0, monitor := .resetPaused }
  | .resetPaused, .monitor => some { s with globals.paused := false, monitor := .stopped }
  | _, _ => none

def act (s : State n) : Label n → Option (State n)
  | .app p a => appStep s p a
  | .worker frames => workerStep s frames
  | .handleException => some { s with globals.active := false }
  | .tick => some { s with time := s.time + 1 }
  | l => monitorStep s l

/-- The most recent heartbeat of the latched thread. -/
def lastBeat (s : State n) : Option Nat :=
  (s.history.beats.find? (fun b => b.1 = s.globals.target)).map Prod.snd

/-- The detector is on and the latched thread has been silent for the timeout. -/
def hangs (s : State n) : Bool :=
  s.globals.active && !s.globals.paused &&
    match lastBeat s with
    | none => false
    | some hb => decide (hb + s.timeout ≤ s.time)

/-- Every state is an instant at which a hang is noted. -/
def note (s : State n) : State n := { s with history.hung := s.history.hung || hangs s }

def step (s : State n) (l : Label n) : Option (State n) := (act s l).map note

def start (time : Nat) : State n where
  globals := ⟨0, 0, false, false⟩
  app := fun _ => .idle
  worker := .off
  lastFiredHb := 0
  monitor := .stopped
  timeout := 0
  time
  history := ⟨[], [], time, false, []⟩

end SentryNative.AppHang
