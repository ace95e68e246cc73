import SentryNative.Lib.Machine

/-!
# The crash hand-over

A thread that crashes fills the crash context in shared memory, swaps the state word from
`READY` to `CRASHED`, notifies the daemon and polls the word. The daemon waits for the
notification, looks at the word and processes the crash. Every access to the word, every
field of the context, the notification, the daemon's wait and its look at the parent are one
step each, and the process may die between any two of them.
-/

namespace SentryNative.Handover

open Machine

/-- `sentry_crash_state_t`. -/
@[simp] abbrev READY : Int := 0
@[simp] abbrev CRASHED : Int := 1
@[simp] abbrev PROCESSING : Int := 2
@[simp] abbrev PROCESSED : Int := 3
@[simp] abbrev CAPTURED : Int := 4
@[simp] abbrev DONE : Int := 5

abbrev SENTRY_CRASH_MAGIC : UInt32 := 0x53454E54

/-- The milliseconds the handler waits, and those between two looks at the word. -/
abbrev SENTRY_CRASH_HANDLER_WAIT_TIMEOUT_MS : Nat := 10000
abbrev SENTRY_CRASH_HANDLER_POLL_INTERVAL_MS : Nat := 100

/-- The parts of `sentry_crash_context_t` that are written from the first signal on. -/
inductive Field where
  | crashedPid
  | crashedTid
  | signum
  | siginfo
  | context
  | numThreads
  | threadTid
  | threadContext
  | backtrace
  | attachScreenshot
  | modules
  deriving DecidableEq, Repr

/-- Whose data a field holds. -/
inductive Writer where
  | earlier
  | startup
  | thread (t : Nat)
  | daemon
  deriving DecidableEq, Repr

abbrev Context := Field → Option Writer

def Context.put (c : Context) (f : Field) (w : Writer) : Context := Function.update c f (some w)

/-- What the handler writes, in its order. -/
def fillOrder : List Field :=
  [.crashedPid, .crashedTid, .signum, .siginfo, .context, .numThreads, .threadTid, .threadContext, .backtrace]

structure Shmem where
  magic : UInt32
  state : Int
  asyncUpload : Bool
  context : Context

/-- `sentry__crash_context_init`: everything before the modules is cleared. -/
def crashContextInit (ctx : Shmem) : Shmem where
  magic := SENTRY_CRASH_MAGIC
  state := READY
  asyncUpload := false
  context f := if f = .modules then ctx.context f else none

/-- `sentry__crash_ipc_init_app`, by what the mapping shows of an object that was there under
the name already, after it was brought to size. A new object shows zeros. -/
def crashIpcInitApp (existing : Option Shmem) : Shmem :=
  match existing with
  | some shmem => shmem
  | none => crashContextInit ⟨0, 0, false, fun _ => none⟩

/-- Why the handler goes on to raise the signal again. -/
inductive Resumed where
  | notClaimed
  | captured (state : Int)
  | timedOut (elapsed : Nat)
  deriving DecidableEq, Repr

/-- Where a thread is in `crash_signal_handler`. -/
inductive Handler where
  | idle
  | entered
  | filling (rest : List Field)
  | hooks
  | publish
  | notify
  | waiting (elapsed : Nat)
  | resumed (why : Resumed)
  deriving DecidableEq, Repr

/-- Where the daemon is in `sentry__crash_daemon_main` and `sentry__process_crash`. -/
inductive Daemon where
  | starting
  | waiting
  | readState
  | processing
  | working
  | storing
  | checking
  | leaving
  | exited
  deriving DecidableEq, Repr

/-- Inside the `while` loop. -/
def Daemon.inLoop : Daemon → Bool
  | .waiting | .readState | .processing | .working | .storing | .checking => true
  | .starting | .leaving | .exited => false

/-- `calls` are the contexts `sentry__process_crash` was called on, and `heard` says that the
notification was written while the daemon was in its loop. -/
structure State where
  shmem : Shmem
  handlingCrash : Bool
  notifyFd : Nat
  installed : Bool
  alive : Bool
  threads : Nat → Handler
  daemon : Daemon
  crashProcessed : Bool
  calls : List Context
  heard : Bool

inductive ThreadAct where
  | signal
  | previous
  | claim
  | fill
  | handleException (skipScreenshot : Bool)
  | publish
  | notify
  | poll
  | reraise
  deriving DecidableEq, Repr

inductive DaemonAct where
  | start
  | wake
  | timeOut
  | readState
  | markProcessing
  | work (enumerate captured : Bool)
  | storeCaptured
  | checkParent
  | finish
  deriving DecidableEq, Repr

inductive Act where
  | install
  | die
  | thread (t : Nat) (a : ThreadAct)
  | daemon (a : DaemonAct)
  deriving DecidableEq, Repr

def State.to (s : State) (t : Nat) (h : Handler) : State := { s with threads := Function.update s.threads t h }

def State.word (s : State) (v : Int) : State := { s with shmem := { s.shmem with state := v } }

def State.put (s : State) (f : Field) (w : Writer) : State :=
  { s with shmem := { s.shmem with context := s.shmem.context.put f w } }

/-- `crash_signal_handler`. A previous handler that runs first may take the signal over. -/
def threadStep (s : State) (t : Nat) (a : ThreadAct) : Option State :=
  match s.threads t, a with
  | .idle, .signal => if s.installed then some (s.to t .entered) else none
  | .entered, .previous => some (s.to t .idle)
  | .entered, .claim =>
    -- a second crash ends the process
    if s.handlingCrash then some { s with alive := false }
    else some ({ s with handlingCrash := true }.to t (.filling fillOrder))
  | .filling (f :: rest), .fill => some ((s.put f (.thread t)).to t (.filling rest))
  | .filling [], .fill => some (s.to t .hooks)
  | .hooks, .handleException skipScreenshot =>
    some ((if skipScreenshot then s.put .attachScreenshot (.thread t) else s).to t .publish)
  | .publish, .publish =>
    if s.shmem.state = READY then some ((s.word CRASHED).to t .notify)
    else some (s.to t (.resumed .notClaimed))
  | .notify, .notify =>
    some ({ s with notifyFd := s.notifyFd + 1, heard := s.heard || s.daemon.inLoop }.to t (.waiting 0))
  | .waiting elapsed, .poll =>
    if elapsed < SENTRY_CRASH_HANDLER_WAIT_TIMEOUT_MS then
      if CAPTURED ≤ s.shmem.state then some (s.to t (.resumed (.captured s.shmem.state)))
      else some (s.to t (.waiting (elapsed + SENTRY_CRASH_HANDLER_POLL_INTERVAL_MS)))
    else some (s.to t (.resumed (.timedOut elapsed)))
  | .resumed _, .reraise => some { s with alive := false }
  | _, _ => none

/-- What the daemon itself writes into the context while it works on the crash. -/
def enumerateProc (s : State) (enumerate : Bool) : State :=
  if enumerate then
    ((((s.put .modules .daemon).put .numThreads .daemon).put .threadTid .daemon).put .threadContext .daemon)
  else s

def daemonStep (s : State) (a : DaemonAct) : Option State :=
  match s.daemon, a with
  | .starting, .start =>
    some { s with daemon := if s.shmem.magic = SENTRY_CRASH_MAGIC then .waiting else .exited }
  | .waiting, .wake => if 0 < s.notifyFd then some { s with notifyFd := 0, daemon := .readState } else none
  | .waiting, .timeOut => if s.notifyFd = 0 then some { s with daemon := .checking } else none
  | .readState, .readState =>
    some { s with
      daemon := if s.shmem.state = CRASHED ∧ s.crashProcessed = false then .processing else .checking }
  | .processing, .markProcessing =>
    some { s.word PROCESSING with calls := s.calls ++ [s.shmem.context], daemon := .working }
  | .working, .work enumerate captured =>
    some { enumerateProc s enumerate with
      crashProcessed := true
      daemon := if captured = true ∧ s.shmem.asyncUpload = true then .storing else .leaving }
  | .storing, .storeCaptured => some { s.word CAPTURED with daemon := .leaving }
  | .checking, .checkParent =>
    some { s with daemon := if s.crashProcessed = false ∧ s.alive = false then .leaving else .waiting }
  | .leaving, .finish =>
    some { (if s.crashProcessed then s.word DONE else s) with daemon := .exited }
  | _, _ => none

def step (s : State) : Act → Option State
  | .install => if s.alive = true ∧ s.installed = false then some { s with installed := true } else none
  | .die => if s.alive then some { s with alive := false } else none
  | .thread t a => if s.alive then threadStep s t a else none
  | .daemon a => daemonStep s a

/-- After `sentry__crash_ipc_init_app` and the configuration of the context. -/
def start (existing : Option Shmem) (asyncUpload : Bool) : State where
  shmem :=
    { crashIpcInitApp existing with
      asyncUpload
      context := (crashIpcInitApp existing).context.put .attachScreenshot .startup }
  handlingCrash := false
  notifyFd := 0
  installed := false
  alive := true
  threads _ := .idle
  daemon := .starting
  crashProcessed := false
  calls := []
  heard := false

/-- The daemon does not give the parent up while a notification waits for it. -/
def heeds (s : State) (a : Act) : Bool :=
  match s.daemon, a with
  | .checking, .daemon .checkParent => s.alive || s.notifyFd == 0
  | _, _ => true

def heedingStep (s : State) (a : Act) : Option State := if heeds s a then step s a else none

/-- A new object, or one whose state word was left `READY`. -/
def StartsReady (s : State) : Prop :=
  ∃ existing asyncUpload, (∀ shmem, existing = some shmem → shmem.state = READY) ∧ s = start existing asyncUpload

def HeedingStep (s t : State) : Prop := ∃ a, heedingStep s a = some t

end SentryNative.Handover
