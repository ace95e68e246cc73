import SentryNative.Lib.Machine

/-!
# Run directories

An SDK process locks a new run and makes its directory, and goes through the directories that
other processes left. A crash daemon adopts the run it was started for under a second lock.
A lock is held by at most one of them, is let go of when its holder dies, and its file is
there while it is held. Every lock attempt, existence check, listing, read, capture and
removal is one step.
-/

namespace SentryNative.OldRuns

open Machine

/-- A run by the name of its directory. -/
abbrev Run := Nat

inductive Kind where
  | envelope
  | crashEnvelope
  | session
  | marker
  | other
  deriving DecidableEq, Repr

/-- A file as it was written once, in the directory of its run. -/
structure File where
  run : Run
  id : Nat
  kind : Kind
  deriving DecidableEq, Repr

inductive Holder where
  | sdk (p : Nat)
  | daemon (d : Nat)
  deriving DecidableEq, Repr

def SENTRY_MAX_ENVELOPE_SESSIONS : Nat := 100

/-- Where `sentry__process_old_runs` is with one directory. -/
inductive Stage where
  -- `native_backend_process_old_run`
  | listBackend
  | backend (rest : List File)
  | removeCrash (file : File) (rest : List File)
  -- `sentry__process_run_envelopes`
  | listEnvelopes (processed : Bool)
  | envelopes (processed : Bool) (rest : List File)
  | readEnvelope (processed : Bool) (file : File) (rest : List File)
  | capture (processed : Bool) (file : File) (rest : List File)
  | removeEnvelope (processed : Bool) (file : File) (rest : List File)
  -- the session and what is left
  | listFiles (processed : Bool)
  | files (processed : Bool) (rest : List File)
  | flush (processed : Bool) (file : File) (rest : List File)
  | removeFile (processed : Bool) (file : File) (rest : List File)
  | removeAll
  | unlockDaemon
  deriving DecidableEq, Repr

/-- Where an SDK process is. `own` is the run it created, `rest` are the names still to visit
and `sessions` is the session envelope it collects. -/
inductive Pc where
  | out
  | creating (own : Run)
  | running (own : Run)
  | cleaned (own : Run)
  | next (own : Run) (rest : List Run) (sessions : List File)
  | found (own : Run) (rest : List Run) (sessions : List File) (x : Run)
  | locked (own : Run) (rest : List Run) (sessions : List File) (x : Run)
  | daemonFile (own : Run) (rest : List Run) (sessions : List File) (x : Run)
  | old (own : Run) (rest : List Run) (sessions : List File) (x : Run) (guarded : Bool) (stage : Stage)
  | unlock (own : Run) (rest : List Run) (sessions : List File) (x : Run)
  deriving DecidableEq, Repr

inductive DaemonPc where
  | out
  | locked (x : Run)
  | adopted (x : Run)
  deriving DecidableEq, Repr

/-- `known` are the names that were ever given to a run and `written` the files that were ever
written; `captured` is what was captured from the directories of others, in order. -/
structure State where
  known : Run → Bool
  written : File → Bool
  dir : Run → Option (List File)
  lock : Run → Option Nat
  daemonLock : Run → Option Holder
  daemonFile : Run → Bool
  sdk : Nat → Pc
  daemon : Nat → DaemonPc
  captured : List File

inductive SdkAct where
  | create (r : Run)
  | makeDir
  | write (f : File)
  | clear (f : File)
  | clean (removes : Bool)
  | unlockOwn
  | die
  | list (runs : List Run)
  | visit
  | tryLock
  | checkDaemon
  | tryLockDaemon
  | stage (ok : Bool) (marker : Option File)
  | unlock
  | finish
  deriving DecidableEq, Repr

inductive DaemonAct where
  | adopt (x : Run)
  | makeDir
  | write (f : File)
  | delete (f : File)
  | release
  | die
  deriving DecidableEq, Repr

inductive Act where
  | sdk (p : Nat) (a : SdkAct)
  | daemon (d : Nat) (a : DaemonAct)
  deriving DecidableEq, Repr

def State.to (s : State) (p : Nat) (pc : Pc) : State := { s with sdk := Function.update s.sdk p pc }

def State.daemonTo (s : State) (d : Nat) (pc : DaemonPc) : State :=
  { s with daemon := Function.update s.daemon d pc }

def State.setDir (s : State) (r : Run) (files : Option (List File)) : State :=
  { s with dir := Function.update s.dir r files }

def State.files (s : State) (r : Run) : List File := (s.dir r).getD []

/-- `sentry__path_remove`. -/
def State.remove (s : State) (r : Run) (f : File) : State :=
  s.setDir r ((s.dir r).map fun files => files.filter (· ≠ f))

/-- A new file; there is one session file, and writing it replaces the one before. -/
def State.writeFile (s : State) (r : Run) (f : File) : State :=
  { s.setDir r ((s.dir r).map fun files =>
      (files.filter fun g => ¬ (f.kind = .session ∧ g.kind = .session)) ++ [f]) with
    written := Function.update s.written f true }

def State.setLock (s : State) (r : Run) (holder : Option Nat) : State :=
  { s with lock := Function.update s.lock r holder }

/-- Taking the daemon's lock makes its file, letting go of it removes it. -/
def State.setDaemonLock (s : State) (r : Run) (holder : Option Holder) : State :=
  { s with
    daemonLock := Function.update s.daemonLock r holder
    daemonFile := Function.update s.daemonFile r holder.isSome }

/-- Removing the crash marker of an envelope, where it has one. -/
def State.removeMarker (s : State) (x : Run) (marker : Option File) : State :=
  match marker with
  | some m => if m.kind = .marker then s.remove x m else s
  | none => s

/-- What one step does within a directory: the state, the session envelope and where it goes
on. `ok` says whether the backend goes through the directory at all, whether it could remove a
file, and whether a file that is there could be read; `marker` is the crash marker of the
envelope. -/
def stageStep (s : State) (sessions : List File) (x : Run) (guarded ok : Bool) (marker : Option File) :
    Stage → State × List File × Option Stage
  | .listBackend => (s, sessions, some (if ok then .backend (s.files x) else .listEnvelopes true))
  | .backend [] => (s, sessions, some (.listEnvelopes true))
  | .backend (f :: rest) =>
    (s, sessions, some (if f ∈ s.files x ∧ f.kind = .crashEnvelope then .removeCrash f rest else .backend rest))
  | .removeCrash f rest =>
    if ok then (s.remove x f, sessions, some (.backend rest)) else (s, sessions, some (.listEnvelopes false))
  | .listEnvelopes processed => (s, sessions, some (.envelopes processed (s.files x)))
  | .envelopes processed [] => (s, sessions, some (.listFiles processed))
  | .envelopes processed (f :: rest) =>
    (s, sessions, some (if f ∈ s.files x ∧ f.kind = .envelope then .readEnvelope processed f rest
      else .envelopes processed rest))
  | .readEnvelope processed f rest =>
    (s, sessions, some (if f ∈ s.files x ∧ ok = true then .capture processed f rest
      else .removeEnvelope processed f rest))
  | .capture processed f rest =>
    ({ s.removeMarker x marker with captured := s.captured ++ [f] }, sessions,
      some (.removeEnvelope processed f rest))
  | .removeEnvelope processed f rest => (s.remove x f, sessions, some (.envelopes processed rest))
  | .listFiles processed => (s, sessions, some (.files processed (s.files x)))
  | .files processed [] =>
    (s, sessions, if processed then some .removeAll else if guarded then some .unlockDaemon else none)
  | .files processed (f :: rest) =>
    if f.kind = .marker then (s, sessions, some (.files processed rest))
    else if f.kind = .session then
      if f ∈ s.files x ∧ ok = true then
        (s, sessions ++ [f],
          some (if SENTRY_MAX_ENVELOPE_SESSIONS ≤ sessions.length + 1 then .flush processed f rest
            else .removeFile processed f rest))
      else (s, sessions, some (.removeFile processed f rest))
    else (s, sessions, some (if processed then .removeFile processed f rest else .files processed rest))
  | .flush processed f rest =>
    ({ s with captured := s.captured ++ sessions }, [], some (.removeFile processed f rest))
  | .removeFile processed f rest => (s.remove x f, sessions, some (.files processed rest))
  | .removeAll => (s.setDir x none, sessions, if guarded then some .unlockDaemon else none)
  | .unlockDaemon => (s.setDaemonLock x none, sessions, none)

def sdkStep (s : State) (p : Nat) (a : SdkAct) : Option State :=
  match s.sdk p, a with
  | .out, .create r =>
    if s.known r = false ∧ s.lock r = none then
      some ({ s.setLock r (some p) with known := Function.update s.known r true }.to p (.creating r))
    else none
  | .creating own, .makeDir => some ((s.setDir own (some (s.files own))).to p (.running own))
  | .running own, .write f =>
    if f.run = own ∧ s.written f = false then some (s.writeFile own f) else none
  | .running own, .clear f => some (s.remove own f)
  | .running own, .clean removes =>
    some ((if removes then s.setDir own none else s).to p (.cleaned own))
  | .cleaned own, .unlockOwn => some ((s.setLock own none).to p .out)
  | .creating own, .die => some ((s.setLock own none).to p .out)
  | .running own, .die => some ((s.setLock own none).to p .out)
  | .cleaned own, .die => some ((s.setLock own none).to p .out)
  | .running own, .list runs =>
    if ∀ x ∈ runs, (s.dir x).isSome then some (s.to p (.next own runs [])) else none
  | .next own (x :: rest) sessions, .visit =>
    some (s.to p (if (s.dir x).isSome ∧ x ≠ own then .found own rest sessions x else .next own rest sessions))
  | .found own rest sessions x, .tryLock =>
    if s.lock x = none then some ((s.setLock x (some p)).to p (.locked own rest sessions x))
    else some (s.to p (.next own rest sessions))
  | .locked own rest sessions x, .checkDaemon =>
    some (s.to p (if s.daemonFile x then .daemonFile own rest sessions x
      else .old own rest sessions x false .listBackend))
  | .daemonFile own rest sessions x, .tryLockDaemon =>
    if s.daemonLock x = none then
      some ((s.setDaemonLock x (some (.sdk p))).to p (.old own rest sessions x true .listBackend))
    else some (s.to p (.unlock own rest sessions x))
  | .old own rest sessions x guarded stage, .stage ok marker =>
    let (s', sessions', stage') := stageStep s sessions x guarded ok marker stage
    some (s'.to p (match stage' with
      | some stage' => .old own rest sessions' x guarded stage'
      | none => .unlock own rest sessions' x))
  | .unlock own rest sessions x, .unlock => some ((s.setLock x none).to p (.next own rest sessions))
  | .next own [] sessions, .finish => some ({ s with captured := s.captured ++ sessions }.to p (.running own))
  | _, _ => none

def daemonStep (s : State) (d : Nat) (a : DaemonAct) : Option State :=
  match s.daemon d, a with
  | .out, .adopt x =>
    if s.known x = true ∧ s.daemonLock x = none then
      some ((s.setDaemonLock x (some (.daemon d))).daemonTo d (.locked x))
    else none
  | .locked x, .makeDir => some ((s.setDir x (some (s.files x))).daemonTo d (.adopted x))
  | .adopted x, .write f => if f.run = x ∧ s.written f = false then some (s.writeFile x f) else none
  | .adopted x, .delete f => some (s.remove x f)
  | .adopted x, .release => some ((s.setDaemonLock x none).daemonTo d .out)
  | .locked x, .die => some ({ s with daemonLock := Function.update s.daemonLock x none }.daemonTo d .out)
  | .adopted x, .die => some ({ s with daemonLock := Function.update s.daemonLock x none }.daemonTo d .out)
  | _, _ => none

def step (s : State) : Act → Option State
  | .sdk p a => sdkStep s p a
  | .daemon d a => daemonStep s d a

/-- Before the first of the processes starts: directories that earlier ones left, and nobody
holds a lock. -/
structure Start (s : State) : Prop where
  known : ∀ r, (s.dir r).isSome = true → s.known r = true
  written : ∀ r, ∀ f ∈ s.files r, f.run = r ∧ s.written f = true
  lock : ∀ r, s.lock r = none
  daemonLock : ∀ r, s.daemonLock r = none
  sdk : ∀ p, s.sdk p = .out
  daemon : ∀ d, s.daemon d = .out
  captured : s.captured = []

/-- The directory a process goes through without holding its daemon's lock. -/
def Pc.exposes : Pc → Option Run
  | .old _ _ _ x false _ => some x
  | _ => none

/-- The session envelope a process collects. -/
def Pc.sessions : Pc → List File
  | .out | .creating _ | .running _ | .cleaned _ => []
  | .next _ _ ss | .found _ _ ss _ | .locked _ _ ss _ | .daemonFile _ _ ss _ | .old _ _ ss _ _ _ | .unlock _ _ ss _ =>
    ss

/-- A daemon adopts a run that a process goes through without the daemon's lock, or whose
session it has collected and not captured. -/
def LateAdoption (s : State) (a : Act) : Prop :=
  ∃ d x p, a = .daemon d (.adopt x) ∧ ((s.sdk p).exposes = some x ∨ ∃ f ∈ (s.sdk p).sessions, f.run = x)

def TimelyStep (s t : State) : Prop := ∃ a, ¬ LateAdoption s a ∧ step s a = some t

/-- The runs whose files a step of `sentry__process_old_runs` captures or removes. -/
def touches (s : State) (p : Nat) (a : SdkAct) : List Run :=
  match s.sdk p, a with
  | .old _ _ _ x _ (.removeCrash ..), .stage .. => [x]
  | .old _ _ _ x _ (.capture ..), .stage .. => [x]
  | .old _ _ _ x _ (.removeEnvelope ..), .stage .. => [x]
  | .old _ _ _ x _ (.files ..), .stage .. => [x]
  | .old _ _ sessions x _ (.flush ..), .stage .. => x :: sessions.map File.run
  | .old _ _ _ x _ (.removeFile ..), .stage .. => [x]
  | .old _ _ _ x _ .removeAll, .stage .. => [x]
  | .next _ [] sessions, .finish => sessions.map File.run
  | _, _ => []

end SentryNative.OldRuns
