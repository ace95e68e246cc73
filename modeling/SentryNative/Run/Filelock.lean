import SentryNative.Lib.Machine

/-!
# The file lock

Processes take a lock by locking a file they open or create, and remove the file before they
let go of it. Every system call is one step. A process may die at any step: its descriptors
are closed, which releases its locks, and the file stays.
-/

namespace SentryNative.Filelock

open Machine

abbrev Ino := Nat

/-- Where a process is in `sentry__filelock_try_lock` and `sentry__filelock_unlock`. -/
inductive Phase where
  | idle
  | opened (fd : Ino)
  | locked (fd : Ino)
  | fstated (fd st0 : Ino)
  | stated (fd st0 st1 : Ino)
  | failing (fd : Ino) (hasLock : Bool)
  | held (fd : Ino)
  | unlocking (fd : Ino)
  | removed (fd : Ino)
  | unlocked (fd : Ino)
  deriving DecidableEq, Repr

/-- The inode the descriptor refers to. -/
def Phase.fd : Phase → Option Ino
  | .idle => none
  | .opened i | .locked i | .fstated i _ | .stated i _ _ | .failing i _ | .held i | .unlocking i | .removed i
  | .unlocked i => some i

/-- The inode the descriptor holds the lock of. -/
def Phase.locks : Phase → Option Ino
  | .idle | .opened _ | .unlocked _ | .failing _ false => none
  | .locked i | .fstated i _ | .stated i _ _ | .failing i true | .held i | .unlocking i | .removed i => some i

/-- The path, as the inode it names, and the processes. -/
structure State (n : Nat) where
  path : Option Ino
  phase : Fin n → Phase

/-- The system calls, with what they may give beside what the state says: the number of an
inode that is created, and what a failed `stat` leaves behind. -/
inductive Event where
  | open (new : Ino)
  | flock (granted : Bool)
  | fstat
  | stat (left : Ino)
  | compare
  | close
  | unlock
  | remove (ok : Bool)
  | funlock
  | die
  deriving DecidableEq, Repr

variable {n : Nat}

def State.to (s : State n) (p : Fin n) (phase : Phase) : State n :=
  { s with phase := Function.update s.phase p phase }

def openFile (s : State n) (p : Fin n) (new : Ino) : Option (State n) :=
  match s.path with
  | some i => some (s.to p (.opened i))
  | none =>
    if ∀ q, (s.phase q).fd ≠ some new then some ({ s with path := some new }.to p (.opened new)) else none

def step (s : State n) (p : Fin n) (e : Event) : Option (State n) :=
  match s.phase p, e with
  | .idle, .open new => openFile s p new
  | .opened i, .flock true =>
    if ∀ q, (s.phase q).locks ≠ some i then some (s.to p (.locked i)) else none
  | .opened i, .flock false => some (s.to p (.failing i false))
  | .locked i, .fstat => some (s.to p (.fstated i i))
  | .fstated i st0, .stat left => some (s.to p (.stated i st0 (s.path.getD left)))
  | .stated i st0 st1, .compare => some (s.to p (if st0 ≠ st1 then .failing i true else .held i))
  | .failing _ _, .close => some (s.to p .idle)
  | .held i, .unlock => some (s.to p (.unlocking i))
  | .unlocking i, .remove ok => some ({ s with path := if ok then none else s.path }.to p (.removed i))
  | .removed i, .funlock => some (s.to p (.unlocked i))
  | .unlocked _, .close => some (s.to p .idle)
  | _, .die => some (s.to p .idle)
  | _, _ => none

def start (path : Option Ino) : State n := ⟨path, fun _ => .idle⟩

/-- A `stat` that fails does not leave the number of the locked inode behind. -/
def statTells (s : State n) (p : Fin n) (e : Event) : Bool :=
  match s.phase p, e with
  | .fstated _ st0, .stat left => s.path.isSome || left != st0
  | _, _ => true

def Step (s t : State n) : Prop := ∃ p e, step s p e = some t

def TellingStep (s t : State n) : Prop := ∃ p e, statTells s p e = true ∧ step s p e = some t

/-- Steps of the other processes. -/
def OthersStep (p : Fin n) (s t : State n) : Prop := ∃ q e, q ≠ p ∧ statTells s q e = true ∧ step s q e = some t

/-! ## What a step does -/

/-- A step of a process by the path and the phase it leaves. -/
inductive Move (s : State n) (p : Fin n) : Event → Option Ino → Phase → Prop
  | open {new i : Ino} : s.phase p = .idle → s.path = some i → Move s p (.open new) s.path (.opened i)
  | create {new : Ino} : s.phase p = .idle → s.path = none → (∀ q, (s.phase q).fd ≠ some new) →
      Move s p (.open new) (some new) (.opened new)
  | granted {i : Ino} : s.phase p = .opened i → (∀ q, (s.phase q).locks ≠ some i) →
      Move s p (.flock true) s.path (.locked i)
  | refused {i : Ino} : s.phase p = .opened i → Move s p (.flock false) s.path (.failing i false)
  | fstat {i : Ino} : s.phase p = .locked i → Move s p .fstat s.path (.fstated i i)
  | stat {i st0 left : Ino} : s.phase p = .fstated i st0 → Move s p (.stat left) s.path (.stated i st0 (s.path.getD left))
  | differs {i st0 st1 : Ino} : s.phase p = .stated i st0 st1 → st0 ≠ st1 →
      Move s p .compare s.path (.failing i true)
  | agrees {i st0 : Ino} : s.phase p = .stated i st0 st0 → Move s p .compare s.path (.held i)
  | unlock {i : Ino} : s.phase p = .held i → Move s p .unlock s.path (.unlocking i)
  | remove {i : Ino} {ok : Bool} : s.phase p = .unlocking i →
      Move s p (.remove ok) (if ok then none else s.path) (.removed i)
  | funlock {i : Ino} : s.phase p = .removed i → Move s p .funlock s.path (.unlocked i)
  | leave {e : Event} : Move s p e s.path .idle

theorem step_move {s t : State n} {p : Fin n} {e : Event} (h : step s p e = some t) :
    ∃ path phase, t = ⟨path, Function.update s.phase p phase⟩ ∧ Move s p e path phase := by
  unfold step at h
  split at h
  · rename_i hphase
    unfold openFile at h
    split at h
    · rename_i hpath
      cases h
      exact ⟨_, _, rfl, .open hphase hpath⟩
    · rename_i hpath
      split at h
      · rename_i hnew
        cases h
        exact ⟨_, _, rfl, .create hphase hpath hnew⟩
      · cases h
  · rename_i hphase
    split at h
    · rename_i hfree
      cases h
      exact ⟨_, _, rfl, .granted hphase hfree⟩
    · cases h
  · rename_i hphase
    cases h
    exact ⟨_, _, rfl, .refused hphase⟩
  · rename_i hphase
    cases h
    exact ⟨_, _, rfl, .fstat hphase⟩
  · rename_i hphase
    cases h
    exact ⟨_, _, rfl, .stat hphase⟩
  · rename_i i st0 st1 hphase
    cases h
    by_cases heq : st0 = st1
    · subst heq
      exact ⟨_, _, rfl, by simpa using .agrees hphase⟩
    · exact ⟨_, _, rfl, by simpa [heq] using .differs hphase heq⟩
  · cases h
    exact ⟨_, _, rfl, .leave⟩
  · rename_i hphase
    cases h
    exact ⟨_, _, rfl, .unlock hphase⟩
  · rename_i hphase
    cases h
    exact ⟨_, _, rfl, .remove hphase⟩
  · rename_i hphase
    cases h
    exact ⟨_, _, rfl, .funlock hphase⟩
  · cases h
    exact ⟨_, _, rfl, .leave⟩
  · cases h
    exact ⟨_, _, rfl, .leave⟩
  · cases h

/-! ## The path names the locked file -/

/-- The inode a process has found under the path while it holds its lock, up to the removal. -/
def Phase.owns : Phase → Option Ino
  | .stated i st0 st1 => if st0 = st1 then some i else none
  | .held i | .unlocking i => some i
  | _ => none

/-- The numbers compared are that of the descriptor and what `stat` gave. -/
def Phase.Honest : Phase → Prop
  | .fstated i st0 | .stated i st0 _ => st0 = i
  | _ => True

structure Inv (s : State n) : Prop where
  honest : ∀ p, (s.phase p).Honest
  alone : ∀ p q i, (s.phase p).locks = some i → (s.phase q).locks = some i → p = q
  named : ∀ p i, (s.phase p).owns = some i → s.path = some i

theorem Phase.locks_of_owns {ph : Phase} {i : Ino} (h : ph.owns = some i) : ph.locks = some i := by
  cases ph <;> simp_all [Phase.owns, Phase.locks]

theorem Phase.fd_of_locks {ph : Phase} {i : Ino} (h : ph.locks = some i) : ph.fd = some i := by
  unfold Phase.locks at h
  split at h <;> simp_all [Phase.fd]

theorem inv_start (path : Option Ino) : Inv (start path : State n) where
  honest := fun _ => trivial
  alone := fun _ _ _ h => by cases h
  named := fun _ _ h => by cases h

/-- A lock is new to a process only when it is granted. -/
theorem Move.locks {s : State n} {p : Fin n} {e : Event} {path : Option Ino} {phase : Phase}
    (h : Move s p e path phase) {i : Ino} (hi : phase.locks = some i) :
    (s.phase p).locks = some i ∨ ∀ q, (s.phase q).locks ≠ some i := by
  cases h with
  | granted _ hfree =>
    cases hi
    exact .inr hfree
  | «open» | create | refused | funlock | leave => cases hi
  | fstat hp | stat hp | differs hp | agrees hp | unlock hp | remove hp =>
    left
    rw [hp]
    exact hi

theorem Move.honest {s : State n} {p : Fin n} {e : Event} {path : Option Ino} {phase : Phase}
    (h : Move s p e path phase) (hs : (s.phase p).Honest) : phase.Honest := by
  cases h with
  | fstat => rfl
  | stat hp =>
    rw [hp] at hs
    exact hs
  | _ => trivial

/-- The path changes under no other process that owns it. -/
theorem Move.path_of_owns {s : State n} {p : Fin n} {e : Event} {path : Option Ino} {phase : Phase}
    (h : Move s p e path phase) (hs : Inv s) {q : Fin n} (hq : q ≠ p) {i : Ino} (hi : (s.phase q).owns = some i) :
    path = some i := by
  have hpath := hs.named q i hi
  cases h with
  | create _ hnone =>
    rw [hnone] at hpath
    cases hpath
  | @remove j ok hp =>
    -- both would hold the lock of the file the path names
    have hown : (s.phase p).owns = some j := by
      rw [hp]
      rfl
    obtain rfl : j = i := Option.some.inj ((hs.named p j hown).symm.trans hpath)
    exact absurd (hs.alone q p j (Phase.locks_of_owns hi) (Phase.locks_of_owns hown)) hq
  | _ => exact hpath

theorem Move.named {s : State n} {p : Fin n} {e : Event} {path : Option Ino} {phase : Phase}
    (h : Move s p e path phase) (hs : Inv s) (htells : statTells s p e = true) {i : Ino} (hi : phase.owns = some i) :
    path = some i := by
  have hhonest := hs.honest p
  cases h with
  | @stat j st0 left hp =>
    rw [hp] at hhonest
    obtain rfl : st0 = j := hhonest
    simp only [Phase.owns] at hi
    split at hi
    · rename_i heq
      cases hi
      cases hpath : s.path with
      | none =>
        rw [hpath] at heq
        simp only [statTells, hp, hpath, Option.isSome_none, Bool.false_or, bne_iff_ne] at htells
        exact absurd heq.symm htells
      | some k =>
        rw [hpath] at heq
        rw [heq]
        rfl
    · cases hi
  | @agrees j st0 hp =>
    apply hs.named p
    rw [hp]
    simpa [Phase.owns] using hi
  | unlock hp =>
    apply hs.named p
    rw [hp]
    exact hi
  | _ => cases hi

theorem inv_step {s t : State n} (hs : Inv s) (h : TellingStep s t) : Inv t := by
  obtain ⟨p, e, htells, hstep⟩ := h
  obtain ⟨path, phase, rfl, hmove⟩ := step_move hstep
  constructor
  case honest =>
    intro q
    by_cases hq : q = p
    · subst hq
      simpa using hmove.honest (hs.honest q)
    · simpa [hq] using hs.honest q
  case alone =>
    -- a process that has the lock in the new state had it before, or it was free
    have hbefore : ∀ q i, (Function.update s.phase p phase q).locks = some i →
        (s.phase q).locks = some i ∨ q = p ∧ ∀ r, (s.phase r).locks ≠ some i := by
      intro q i hi
      by_cases hq : q = p
      · subst hq
        rw [Function.update_self] at hi
        obtain hold | hfree := hmove.locks hi
        · exact .inl hold
        · exact .inr ⟨rfl, hfree⟩
      · rw [Function.update_of_ne hq] at hi
        exact .inl hi
    intro q r i hq hr
    obtain hq | ⟨rfl, hfree⟩ := hbefore q i hq
    · obtain hr | ⟨-, hfree⟩ := hbefore r i hr
      · exact hs.alone q r i hq hr
      · exact absurd hq (hfree q)
    · obtain hr | ⟨rfl, -⟩ := hbefore r i hr
      · exact absurd hr (hfree r)
      · rfl
  case named =>
    intro q i hi
    by_cases hq : q = p
    · subst hq
      simp only [Function.update_self] at hi
      exact hmove.named hs htells hi
    · simp only [Function.update_of_ne hq] at hi
      exact hmove.path_of_owns hs hq hi

theorem reachable_inv {path : Option Ino} {s : State n} (h : Reachable (· = start path) TellingStep s) : Inv s :=
  h.invariant (fun _ hs => hs ▸ inv_start path) (fun _ _ hs hstep => inv_step hs hstep)

/-! ## Exclusion -/

/-- A process that comes while the lock is held gets no further than to be refused. -/
def Phase.Waits (i : Ino) (phase : Phase) : Prop := phase = .idle ∨ phase = .opened i ∨ phase = .failing i false

structure Turned (p q : Fin n) (i : Ino) (s : State n) : Prop where
  inv : Inv s
  held : s.phase p = .held i
  waits : (s.phase q).Waits i

theorem Move.waits {s : State n} {q : Fin n} {e : Event} {path : Option Ino} {phase : Phase}
    (h : Move s q e path phase) {p : Fin n} {i : Ino} (hs : Turned p q i s) : phase.Waits i := by
  have hpath : s.path = some i := hs.inv.named p i (by rw [hs.held]; rfl)
  have hlocks : (s.phase p).locks = some i := by
    rw [hs.held]
    rfl
  have hwaits := hs.waits
  cases h with
  | «open» _ hnamed =>
    rw [hpath] at hnamed
    cases hnamed
    exact .inr (.inl rfl)
  | create _ hnone =>
    rw [hpath] at hnone
    cases hnone
  | granted hq hfree =>
    rw [hq] at hwaits
    obtain heq | heq | heq := hwaits <;> cases heq
    exact absurd hlocks (hfree p)
  | refused hq =>
    rw [hq] at hwaits
    obtain heq | heq | heq := hwaits <;> cases heq
    exact .inr (.inr rfl)
  | leave => exact .inl rfl
  | fstat hq | stat hq | differs hq | agrees hq | unlock hq | remove hq | funlock hq =>
    rw [hq] at hwaits
    obtain heq | heq | heq := hwaits <;> cases heq

theorem turned_step {p q : Fin n} {i : Ino} {s t : State n} (hs : Turned p q i s) (h : OthersStep p s t) :
    Turned p q i t := by
  obtain ⟨r, e, hr, htells, hstep⟩ := h
  have hinv := inv_step hs.inv ⟨r, e, htells, hstep⟩
  obtain ⟨path, phase, rfl, hmove⟩ := step_move hstep
  refine ⟨hinv, by simpa [hr.symm] using hs.held, ?_⟩
  by_cases hq : q = r
  · subst hq
    simpa using hmove.waits hs
  · simpa [hq] using hs.waits

/-- If every failed `stat` tells, at most one process holds the lock, the path names the file
it locked, and whoever comes while it holds the lock is refused. -/
theorem held_excludes {path : Option Ino} {s : State n} (h : Reachable (· = start path) TellingStep s) :
    (∀ p q i j, s.phase p = .held i → s.phase q = .held j → p = q) ∧
      (∀ p i, s.phase p = .held i → s.path = some i) ∧
      ∀ p q i t, s.phase p = .held i → s.phase q = .idle → Relation.ReflTransGen (OthersStep p) s t →
        (t.phase q).Waits i := by
  have hinv := reachable_inv h
  have hnamed : ∀ p i, s.phase p = .held i → s.path = some i := fun p i hp =>
    hinv.named p i (by rw [hp]; rfl)
  refine ⟨?_, hnamed, ?_⟩
  · intro p q i j hp hq
    obtain rfl : i = j := Option.some.inj ((hnamed p i hp).symm.trans (hnamed q j hq))
    exact hinv.alone p q i (by rw [hp]; rfl) (by rw [hq]; rfl)
  · intro p q i t hp hq hrun
    have hturned : Turned p q i t := by
      induction hrun with
      | refl => exact ⟨hinv, hp, .inl hq⟩
      | tail _ hstep ih => exact turned_step ih hstep
    exact hturned.waits

def stepBy (s : State n) (a : Fin n × Event) : Option (State n) := step s a.1 a.2

def stepTelling (s : State n) (a : Fin n × Event) : Option (State n) :=
  if statTells s a.1 a.2 = true then step s a.1 a.2 else none

theorem stepTelling_cases (s : State n) (a : Fin n × Event) (t : State n) (h : stepTelling s a = some t) :
    TellingStep s t := by
  unfold stepTelling at h
  split at h
  · exact ⟨a.1, a.2, ‹_›, h⟩
  · cases h

/-- A process waits at the file that is removed and is told so; the next one takes the lock of
a new file. -/
theorem held_excludes_next : ∃ s : State 3, (s.phase 2 = .held 8 ∧ s.phase 1 = .failing 7 true) ∧
    s.path = some 8 := by
  have hrun : ∃ s, run stepTelling (start none : State 3) [(0, .open 7), (0, .flock true), (0, .fstat), (0, .stat 0),
      (0, .compare), (1, .open 9), (0, .unlock), (0, .remove true), (0, .funlock), (0, .close), (1, .flock true),
      (1, .fstat), (1, .stat 0), (1, .compare), (2, .open 8), (2, .flock true), (2, .fstat), (2, .stat 0),
      (2, .compare)] = some s ∧ s.phase 2 = .held 8 ∧ s.phase 1 = .failing 7 true := ⟨_, rfl, rfl, rfl⟩
  obtain ⟨s, hs, h2, h1⟩ := hrun
  exact ⟨s, ⟨h2, h1⟩, (held_excludes (Reachable.of_run stepTelling_cases (.start rfl) hs)).2.1 2 8 h2⟩

/-- A process waits at the file that is removed, finds nothing under the path and takes what
`stat` left for its own file; the next one makes a new file. -/
theorem removed_file_locked : ∃ s : State 3, Reachable (· = start none) Step s ∧ s.phase 1 = .held 7 ∧
    s.phase 2 = .held 8 := by
  have hrun : ∃ s, run stepBy (start none : State 3) [(0, .open 7), (0, .flock true), (0, .fstat), (0, .stat 0),
      (0, .compare), (1, .open 9), (0, .unlock), (0, .remove true), (0, .funlock), (0, .close), (1, .flock true),
      (1, .fstat), (1, .stat 7), (1, .compare), (2, .open 8), (2, .flock true), (2, .fstat), (2, .stat 0),
      (2, .compare)] = some s ∧ s.phase 1 = .held 7 ∧ s.phase 2 = .held 8 := ⟨_, rfl, rfl, rfl⟩
  obtain ⟨s, hs, h1, h2⟩ := hrun
  exact ⟨s, Reachable.of_run (fun s a t ht => ⟨a.1, a.2, ht⟩) (.start rfl) hs, h1, h2⟩

end SentryNative.Filelock
