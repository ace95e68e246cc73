import SentryNative.Lib.Machine

/-!
# In-process crash handling

A thread that crashes runs the signal handler on top of what it was doing, also when it was
handling a crash already: a thread is a stack of such activations. The first to crash hands
its crash over to the handler thread or handles it itself; the others wait. Every access to a
shared word, every pipe operation, the reset of the signal handlers and every stage of
`process_ucontext_deferred` is one step.
-/

namespace SentryNative.Inproc

variable {n : Nat}

/-- The application threads and the handler thread. -/
inductive Thread (n : Nat) where
  | app (p : Fin n)
  | handler
  deriving DecidableEq, Repr

inductive CrashState where
  | idle
  | handling
  | done
  deriving DecidableEq, Repr

/-- Where `sentry__enter_signal_handler` was called from. -/
inductive Entry where
  | first
  | fallback (skipHooks : Bool)
  | afterAck
  deriving DecidableEq, Repr

/-- Where `sentry__leave_signal_handler` was called from. -/
inductive Exit where
  | lost
  | handOver (skipHooks : Bool)
  | forward
  | cleanup
  deriving DecidableEq, Repr

/-- The stages of `process_ucontext_deferred`. -/
inductive Stage where
  | start
  | onCrash
  | screenshot
  | prepareEvent
  | transaction
  | finish
  deriving DecidableEq, Repr

/-- What a thread does next. -/
inductive Pc where
  -- `sentry__enter_signal_handler`
  | loadFlag (k : Entry)
  | loadOwner (k : Entry)
  | addDepth (k : Entry)
  | exchangeFlag (k : Entry)
  | storeOwner (k : Entry)
  | storeDepth (k : Entry)
  -- `sentry__leave_signal_handler`
  | clearOwner (k : Exit)
  | clearFlag (k : Exit)
  -- `process_ucontext`
  | loadPreloaded (depth : Nat)
  | loadPreloadedReady (depth : Nat)
  | forwardReset
  | forwardConsume
  | reset
  | storeDone
  | previous
  -- `dispatch_ucontext`
  | handlerCrashed (depth : Nat)
  | swap (skipHooks : Bool)
  | spin
  | loadReady (skipHooks : Bool)
  | writeState (skipHooks : Bool)
  | storeWork (skipHooks : Bool)
  | wake (skipHooks : Bool)
  | waitAck
  -- `process_ucontext_deferred`, in the signal handler or on the handler thread
  | process (skipHooks : Bool) (inMain : Bool) (stage : Stage)
  -- `handler_thread_main`
  | readPipe
  | loadWork
  | clearWork
  | writeAck
  | loadExit
  | exited
  deriving DecidableEq, Repr

inductive Hook where
  | onCrash
  | beforeScreenshot
  | beforeSend
  | beforeTransaction
  deriving DecidableEq, Repr

/-- The options `process_ucontext_deferred` looks at. -/
structure Options where
  onCrash : Bool
  attachScreenshot : Bool
  beforeScreenshot : Bool
  beforeSend : Bool
  beforeTransaction : Bool
  deriving DecidableEq, Repr

structure Globals (n : Nat) where
  inSignalHandler : Bool
  handlingThread : Option (Thread n)
  depth : Nat
  crashState : CrashState
  hasWork : Bool
  ready : Bool
  preloaded : Bool
  shouldExit : Bool
  pipe : Nat
  ack : Nat
  ackOpen : Bool
  installed : Bool

/-- What has happened: the threads that moved the crash state to HANDLING, the writers of
`g_handler_state` and whether the handler thread was processing it, whether the previous
handlers were restored when a thread that lost returned, and the hooks with the `skip_hooks`
they were invoked under. -/
structure History (n : Nat) where
  wins : List (Thread n)
  writes : List (Thread n × Bool)
  returns : List Bool
  hooks : List (Hook × Bool)

structure State (n : Nat) where
  g : Globals n
  stack : Thread n → List Pc
  history : History n

/-- A step of a thread, with the outcomes that are not its own: whether a pipe write succeeds,
whether `on_crash` keeps the event, whether there is a transaction to send. -/
inductive Label (n : Nat) where
  | run (t : Thread n) (outcome : Bool)
  | crash (t : Thread n)
  | stop
  | wakeForExit
  | stopped
  deriving DecidableEq, Repr

def Pc.isProcess : Pc → Bool
  | .process _ _ _ => true
  | _ => false

def State.processing (s : State n) (t : Thread n) : Bool := (s.stack t).any Pc.isProcess

def State.put (s : State n) (t : Thread n) (stack : List Pc) : State n :=
  { s with stack := Function.update s.stack t stack }

/-- `sentry__enter_signal_handler` returns the depth. -/
def entered (k : Entry) (depth : Nat) : Pc :=
  match k with
  | .first => if depth ≥ 3 then .reset else .loadPreloaded depth
  | .fallback skip => if depth ≥ 3 then .reset else .process skip false .start
  | .afterAck => .reset

/-- `sentry__leave_signal_handler` returns. -/
def left (k : Exit) : Pc :=
  match k with
  | .lost => .spin
  | .handOver skip => .storeWork skip
  | .forward | .cleanup => .previous

def invoke (s : State n) (hook : Hook) (skip : Bool) : State n :=
  { s with history.hooks := (hook, skip) :: s.history.hooks }

/-- A stage of `process_ucontext_deferred`; `none` when it returns. -/
def processStage (opts : Options) (s : State n) (skip : Bool) (stage : Stage) (outcome : Bool) :
    State n × Option Stage :=
  match stage with
  | .start => (s, some .onCrash)
  | .onCrash =>
    if opts.onCrash && !skip then (invoke s .onCrash skip, some (if outcome then .screenshot else .finish))
    else (s, some .screenshot)
  | .screenshot =>
    (if opts.attachScreenshot && opts.beforeScreenshot then invoke s .beforeScreenshot skip else s, some .prepareEvent)
  | .prepareEvent =>
    (if opts.beforeSend && (!opts.onCrash && !skip) then invoke s .beforeSend skip else s, some .transaction)
  | .transaction =>
    (if outcome && opts.beforeTransaction then invoke s .beforeTransaction skip else s, some .finish)
  | .finish => (s, none)

/-- The next step of an activation: what it makes of the shared words, and what it becomes. -/
def stepPc (opts : Options) (s : State n) (me : Thread n) (pc : Pc) (outcome : Bool) : Option (State n × Option Pc) :=
  match pc with
  | .loadFlag k => some (s, some (if s.g.inSignalHandler then .loadOwner k else .exchangeFlag k))
  | .loadOwner k => some (s, some (if s.g.handlingThread = some me then .addDepth k else .loadFlag k))
  | .addDepth k => some ({ s with g.depth := s.g.depth + 1 }, some (entered k (s.g.depth + 1)))
  | .exchangeFlag k =>
    some ({ s with g.inSignalHandler := true }, some (if s.g.inSignalHandler then .loadFlag k else .storeOwner k))
  | .storeOwner k => some ({ s with g.handlingThread := some me }, some (.storeDepth k))
  | .storeDepth k => some ({ s with g.depth := 1 }, some (entered k 1))
  | .clearOwner k => some ({ s with g.handlingThread := none }, some (.clearFlag k))
  | .clearFlag k => some ({ s with g.inSignalHandler := false }, some (left k))
  | .loadPreloaded depth => some (s, some (if s.g.preloaded then .loadPreloadedReady depth else .handlerCrashed depth))
  | .loadPreloadedReady depth => some (s, some (if s.g.ready then .handlerCrashed depth else .forwardReset))
  | .forwardReset => some ({ s with g.installed := false }, some .forwardConsume)
  | .forwardConsume => some ({ s with g.preloaded := false }, some (.clearOwner .forward))
  | .reset => some ({ s with g.installed := false }, some .storeDone)
  | .storeDone => some ({ s with g.crashState := .done }, some (.clearOwner .cleanup))
  | .previous => some (s, none)
  | .handlerCrashed depth =>
    some (s, some (if s.g.ready && decide (me = .handler) then .process true false .start else .swap (decide (depth ≥ 2))))
  | .swap skip =>
    if s.g.crashState = .idle then
      some ({ s with g.crashState := .handling, history.wins := me :: s.history.wins }, some (.loadReady skip))
    else some (s, some (.clearOwner .lost))
  | .spin =>
    if s.g.crashState = .handling then some (s, some .spin)
    else some ({ s with history.returns := (!s.g.installed) :: s.history.returns }, none)
  | .loadReady skip => some (s, some (if s.g.ready then .writeState skip else .process skip false .start))
  | .writeState skip =>
    some ({ s with history.writes := (me, s.processing .handler) :: s.history.writes }, some (.clearOwner (.handOver skip)))
  | .storeWork skip => some ({ s with g.hasWork := true }, some (.wake skip))
  | .wake skip =>
    if outcome then some ({ s with g.pipe := s.g.pipe + 1 }, some .waitAck) else some (s, some (.loadFlag (.fallback skip)))
  | .waitAck =>
    if s.g.ack ≠ 0 then some ({ s with g.ack := s.g.ack - 1 }, some (.loadFlag .afterAck))
    else if s.g.ackOpen then none
    else some (s, some (.loadFlag .afterAck))
  | .process skip inMain stage =>
    let (t, next) := processStage opts s skip stage outcome
    some (t, some (match next with
      | some stage => .process skip inMain stage
      | none => if inMain then .clearWork else .reset))
  | .readPipe => if s.g.pipe ≠ 0 then some ({ s with g.pipe := s.g.pipe - 1 }, some .loadWork) else none
  | .loadWork => some (s, some (if s.g.hasWork then .process false true .start else .loadExit))
  | .clearWork => some ({ s with g.hasWork := false }, some .writeAck)
  | .writeAck =>
    if outcome then some ({ s with g.ack := s.g.ack + 1 }, some .loadExit)
    else some ({ s with g.ackOpen := false, g.shouldExit := true }, some .exited)
  | .loadExit => some (s, some (if s.g.shouldExit then .exited else .readPipe))
  | .exited => none

/-- The running activation makes a step; when it returns, what it interrupted goes on. -/
def runThread (opts : Options) (s : State n) (t : Thread n) (outcome : Bool) : Option (State n) :=
  match s.stack t with
  | [] => none
  | pc :: rest => (stepPc opts s t pc outcome).map fun (u, next) => u.put t (next.toList ++ rest)

/-- A thread crashes in its own code or in `process_ucontext_deferred`. -/
def crashes (s : State n) (t : Thread n) : Bool :=
  match s.stack t with
  | [] => true
  | pc :: _ => pc.isProcess

def step (opts : Options) (s : State n) : Label n → Option (State n)
  | .run t outcome => runThread opts s t outcome
  | .crash t => if s.g.installed && crashes s t then some (s.put t (.loadFlag .first :: s.stack t)) else none
  | .stop => some { s with g.shouldExit := true }
  | .wakeForExit => some { s with g.pipe := s.g.pipe + 1 }
  | .stopped => if s.stack .handler = [.exited] then some { s with g.ready := false } else none

/-- The handlers are installed, and the handler thread waits if it is there. -/
def start (ready preloaded : Bool) : State n where
  g := {
    inSignalHandler := false
    handlingThread := none
    depth := 0
    crashState := .idle
    hasWork := false
    ready
    preloaded
    shouldExit := false
    pipe := 0
    ack := 0
    ackOpen := true
    installed := true }
  stack := fun
    | .handler => if ready then [.readPipe] else [.exited]
    | .app _ => []
  history := ⟨[], [], [], []⟩

end SentryNative.Inproc
