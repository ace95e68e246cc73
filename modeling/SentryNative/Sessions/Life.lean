import SentryNative.Lib.Machine
import SentryNative.Sessions.Record

/-!
# The life of sessions

Threads that start and end sessions, set the user, capture events and close the SDK, the death of the process at any
moment, and the run that picks up `session.json` afterwards. What is done under the options lock is one step; what a
thread then does with the session that it took out, or with the envelope that it built, is another.

Left out are the paths that other modules model: what an envelope goes through after it was submitted, and the locks
that keep the directory of a live process from being taken over.
-/

namespace SentryNative.Sessions

open CLib
open Retry (Uuid)

/-- A session as an envelope holds it, and whether it was taken out to be ended. -/
structure Update where
  session : Session
  final : Bool

/-- What a thread does next: it has ended a session, and may go on to start one; it holds an envelope, with the number
of the update in it; it is about to start a session; it has an event, or read that there is a session for it. -/
inductive Pc where
  | idle
  | taken (s : Session) (status : Option Status) (restarts : Bool)
  | sending (update : Option Nat) (restarts : Bool)
  | starting
  | prepared
  | recheck
  | rolling (update : Option Nat)

/-- What came of writing `session.json`: all of it, nothing, or a beginning that does not parse. -/
inductive Write where
  | whole
  | nothing
  | torn
  deriving DecidableEq, Repr

/-- The ids given out, the updates in the order they were made, the numbers of those submitted and of those thrown
away, and the sessions reported by later runs. -/
structure History where
  issued : List Uuid
  updates : List Update
  submitted : List Nat
  dropped : List Nat
  reported : List Session

/-- `g_options`, `options->session`, `session.json` as it parses, the threads, whether the process lives, and whether
it read `options->session` through a null pointer. -/
structure World (n : Nat) where
  enabled : Bool
  session : Option Session
  file : Option Value
  threads : Fin n → Pc
  alive : Bool
  faulted : Bool
  history : History

inductive Label (n : Nat) where
  | startSession (p : Fin n) (removed : Bool)
  | endSession (p : Fin n) (status : Option Status) (removed : Bool)
  | capture (p : Fin n) (made : Bool)
  | submit (p : Fin n)
  | newSession (p : Fin n) (scope : Scope) (id : Uuid) (now : UInt64) (allocated : Bool) (write : Write)
  | setUser (p : Fin n) (user : Value) (installationId : Option Bytes) (now : UInt64) (write : Write)
  | recordError (p : Fin n)
  | event (p : Fin n) (isError kept : Bool)
  | look (p : Fin n)
  | add (p : Fin n) (made : Bool)
  | roll (p : Fin n) (kept : Bool)
  | close (p : Fin n) (removed made : Bool)
  | die
  | restart (lastCrash : UInt64) (removed : Bool)

variable {n : Nat} (fl : Floats)

def World.at (w : World n) (p : Fin n) (pc : Pc) : World n := { w with threads := Function.update w.threads p pc }

/-- `sentry__run_clear_session`. -/
def World.clearFile (w : World n) (removed : Bool) : World n := { w with file := if removed then none else w.file }

/-- `sentry__run_write_session`. -/
def World.writeFile (w : World n) (s : Session) (now : UInt64) : Write → World n
  | .whole => { w with file := some (s.toValue fl now) }
  | .nothing => w
  | .torn => { w with file := some .null }

/-- `sentry__end_session_internal`, up to the unlock: the session goes to the thread. -/
def World.endInternal (w : World n) (removed : Bool) : World n :=
  if w.enabled then { w with session := none }.clearFile removed else w

/-- The session that a thread finds under the lock. -/
def World.current (w : World n) : Option Session := if w.enabled then w.session else none

/-- The status that a session is ended with. -/
def Session.ended (s : Session) (status : Option Status) : Session :=
  { s with
    status :=
      match status with
      | some st => st
      | none => if s.status = .ok then .exited else s.status }

/-- `sentry__envelope_add_session`, whose writer and item may not be allocated. -/
def World.addUpdate (w : World n) (s : Session) (final made : Bool) : World n :=
  if made then { w with history.updates := w.history.updates ++ [⟨s, final⟩] } else w

/-- The number of the update that was added. -/
def World.updateNumber (w : World n) (made : Bool) : Option Nat :=
  if made then some w.history.updates.length else none

/-- `sentry__capture_envelope`, where the envelope holds an update. -/
def World.submit (w : World n) (update : Option Nat) : World n :=
  { w with history.submitted := w.history.submitted ++ update.toList }

/-- `sentry_envelope_free`, or an envelope that nobody takes. -/
def World.drop (w : World n) (update : Option Nat) : World n :=
  { w with history.dropped := w.history.dropped ++ update.toList }

/-- `sentry__record_errors_on_current_session`. -/
def World.recordError (w : World n) : World n :=
  if w.enabled then { w with session := w.session.map fun s => { s with errors := s.errors + 1 } } else w

/-- `sentry_start_session` and its two callees, by their locked sections. -/
def startSession (w : World n) (p : Fin n) (removed : Bool) : World n :=
  match w.current with
  | some s => (w.endInternal removed).at p (.taken s none true)
  | none => (w.endInternal removed).at p .starting

/-- `sentry_end_session`, `sentry_end_session_with_status`, and the handlers that end a session as crashed. -/
def endSession (w : World n) (p : Fin n) (status : Option Status) (removed : Bool) : World n :=
  match w.current with
  | some s => (w.endInternal removed).at p (.taken s status false)
  | none => w.endInternal removed

/-- The second section of `sentry_start_session`; a session that is still there is let go of. -/
def newSession (w : World n) (scope : Scope) (id : Uuid) (now : UInt64) (allocated : Bool) (write : Write) : World n :=
  if w.enabled then
    match sessionNew scope id now allocated with
    | none => { w with session := none }
    | some s =>
      let s := s.syncUser scope.user scope.installationId
      { w with session := some s, history.issued := id :: w.history.issued }.writeFile fl s now write
  else w

/-- The part of `sentry_set_user` that concerns the session. -/
def setUser (w : World n) (user : Value) (installationId : Option Bytes) (now : UInt64) (write : Write) : World n :=
  match w.enabled, w.session with
  | true, some s =>
    let s := s.syncUser user installationId
    { w with session := some s }.writeFile fl s now write
  | _, _ => w

/-- The recheck of `sentry__capture_event` under the lock: the session is no longer in its initial update, whether or
not the update was made. -/
def addSession (w : World n) (p : Fin n) (made : Bool) : World n :=
  match w.enabled, w.session with
  | false, _ => { w with faulted := true }
  | true, none => w.at p (.rolling none)
  | true, some s =>
    { w.addUpdate s false made with session := some { s with init := false } }.at p (.rolling (w.updateNumber made))

/-- `sentry_close`, which holds the lock throughout. -/
def close (w : World n) (removed made : Bool) : World n :=
  match w.session with
  | some s =>
    { (((w.endInternal removed).addUpdate (s.ended none) true made).submit (w.updateNumber made)) with enabled := false }
  | none => { w.endInternal removed with enabled := false }

/-- What `sentry__process_old_runs` makes of a session that was left behind. -/
def leftBehind (s : Session) (lastCrash : UInt64) : Session :=
  if s.status = .ok then
    if lastCrash ≠ 0 ∧ lastCrash > s.startedUs then
      { s with durationUs := lastCrash - s.startedUs, errors := s.errors + 1, status := .crashed }
    else { s with status := .abnormal }
  else s

/-- `sentry__process_old_runs` on the directory of the dead process. -/
def restart (w : World n) (lastCrash : UInt64) (removed : Bool) : World n :=
  match w.file with
  | none => w
  | some v =>
    match fromValue fl v with
    | none => w.clearFile removed
    | some s => { w with history.reported := w.history.reported ++ [leftBehind s lastCrash] }.clearFile removed

/-- A step of the live process. -/
def live (w : World n) : Label n → Option (World n)
  | .startSession p removed =>
    match w.threads p with
    | .idle => some (startSession w p removed)
    | _ => none
  | .endSession p status removed =>
    match w.threads p with
    | .idle => some (endSession w p status removed)
    | _ => none
  | .capture p made =>
    match w.threads p with
    | .taken s status restarts =>
      some ((w.addUpdate (s.ended status) true made).at p (.sending (w.updateNumber made) restarts))
    | _ => none
  | .submit p =>
    match w.threads p with
    | .sending update restarts =>
      some ((if w.enabled then w.submit update else w.drop update).at p (if restarts then .starting else .idle))
    | _ => none
  | .newSession p scope id now allocated write =>
    match w.threads p with
    | .starting =>
      if id ∈ w.history.issued then none else some ((newSession fl w scope id now allocated write).at p .idle)
    | _ => none
  | .setUser p user installationId now write =>
    match w.threads p with
    | .idle => some (setUser fl w user installationId now write)
    | _ => none
  | .recordError p =>
    match w.threads p with
    | .idle => some w.recordError
    | _ => none
  | .event p isError kept =>
    match w.threads p, w.enabled with
    | .idle, true =>
      let w := if isError then w.recordError else w
      some (if kept then w.at p .prepared else w)
    | _, _ => none
  | .look p =>
    match w.threads p with
    | .prepared => some (w.at p (if w.session.isSome then .recheck else .rolling none))
    | _ => none
  | .add p made =>
    match w.threads p with
    | .recheck => some (addSession w p made)
    | _ => none
  | .roll p kept =>
    match w.threads p with
    | .rolling update => some ((if kept then w.submit update else w.drop update).at p .idle)
    | _ => none
  | .close p removed made =>
    match w.threads p, w.enabled with
    | .idle, true => some (close w removed made)
    | _, _ => none
  | .die => some { w with alive := false }
  | .restart _ _ => none

/-- One step: of the process while it lives, or of the run that comes after it. -/
def act (w : World n) (l : Label n) : Option (World n) :=
  if w.alive ∧ ¬w.faulted then live fl w l
  else
    match l with
    | .restart lastCrash removed => some (restart fl w lastCrash removed)
    | _ => none

def Step (w w' : World n) : Prop := ∃ l, act fl w l = some w'

/-- A process right after `sentry_init`, before it starts a session of its own. -/
def begin : World n := ⟨true, none, none, fun _ => .idle, true, false, ⟨[], [], [], [], []⟩⟩

/-- Every removal of `session.json` succeeds. -/
def Label.removes : Label n → Bool
  | .startSession _ removed | .endSession _ _ removed | .close _ removed _ | .restart _ removed => removed
  | _ => true

end SentryNative.Sessions
