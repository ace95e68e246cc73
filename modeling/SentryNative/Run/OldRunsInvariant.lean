import SentryNative.Run.OldRuns

/-!
# What holds of run directories at every step

A process goes through a directory under the run's lock, and, where it found the file of the
daemon's lock, under that lock too. A file it has captured stays in the directory only until
the next step of that process, which removes it.
-/

namespace SentryNative.OldRuns

open Machine

/-! ## What a process holds -/

def Pc.own : Pc → Option Run
  | .out => none
  | .creating own | .running own | .cleaned own | .next own _ _ | .found own _ _ _ | .locked own _ _ _
  | .daemonFile own _ _ _ | .old own _ _ _ _ _ | .unlock own _ _ _ => some own

/-- The run whose lock a process has taken to go through its directory. -/
def Pc.visits : Pc → Option Run
  | .locked _ _ _ x | .daemonFile _ _ _ x | .old _ _ _ x _ _ | .unlock _ _ _ x => some x
  | _ => none

/-- The run a process goes for or goes through. -/
def Pc.target : Pc → Option Run
  | .found _ _ _ x => some x
  | pc => pc.visits

def Pc.guards : Pc → Option Run
  | .old _ _ _ x true _ => some x
  | _ => none

/-- The run whose daemon's lock is let go of next. -/
def Pc.frees : Pc → Option Run
  | .old _ _ _ x _ .unlockDaemon => some x
  | _ => none

/-- The envelope that was read and is captured next. -/
def Stage.reads : Stage → Option File
  | .capture _ f _ => some f
  | _ => none

/-- The file that is removed next, or after the sessions were captured. -/
def Stage.removes : Stage → Option File
  | .removeEnvelope _ f _ | .flush _ f _ | .removeFile _ f _ => some f
  | _ => none

def Pc.reads : Pc → Option File
  | .old _ _ _ _ _ stage => stage.reads
  | _ => none

def Pc.removes : Pc → Option File
  | .old _ _ _ _ _ stage => stage.removes
  | _ => none

structure Locks (s : State) : Prop where
  own : ∀ p r, (s.sdk p).own = some r → s.lock r = some p
  visits : ∀ p x, (s.sdk p).visits = some x → s.lock x = some p
  apart : ∀ p x, (s.sdk p).target = some x → (s.sdk p).own ≠ some x
  guards : ∀ p x, (s.sdk p).guards = some x → s.daemonLock x = some (.sdk p)
  frees : ∀ p x, (s.sdk p).frees = some x → (s.sdk p).guards = some x
  exposes : ∀ p x d, (s.sdk p).exposes = some x → s.daemonLock x ≠ some (.daemon d)
  file : ∀ x, s.daemonLock x ≠ none → s.daemonFile x = true
  daemon : ∀ d x, s.daemon d = .locked x ∨ s.daemon d = .adopted x → s.daemonLock x = some (.daemon d)

/-- A file that was captured, or whose session a process has collected. -/
def Taken (s : State) (f : File) : Prop := f ∈ s.captured ∨ ∃ p, f ∈ (s.sdk p).sessions

/-- No file is captured twice, collected twice, or both. -/
structure Apart (captured : List File) (sessions : Nat → List File) : Prop where
  nodup : captured.Nodup
  each : ∀ p, (sessions p).Nodup
  uncaptured : ∀ p, ∀ f ∈ sessions p, f ∉ captured
  disjoint : ∀ p q, p ≠ q → ∀ f ∈ sessions p, f ∉ sessions q

structure Takes (s : State) : Prop where
  home : ∀ r, ∀ f ∈ s.files r, f.run = r ∧ s.written f = true
  apart : Apart s.captured fun p => (s.sdk p).sessions
  written : ∀ f, Taken s f → s.written f = true
  there : ∀ r, ∀ f ∈ s.files r, Taken s f → ∃ p, (s.sdk p).removes = some f ∧ (s.sdk p).visits = some r
  reads : ∀ p f, (s.sdk p).reads = some f → ¬ Taken s f ∧ s.written f = true ∧ (s.sdk p).visits = some f.run

/-- Nobody uses a run any more: its process is gone and no daemon has adopted it. -/
structure Ownerless (s : State) (r : Run) : Prop where
  known : s.known r = true
  own : ∀ q, (s.sdk q).own ≠ some r
  daemon : ∀ d, s.daemonLock r ≠ some (.daemon d)

structure Settled (s : State) : Prop where
  dir : ∀ r, (s.dir r).isSome = true → s.known r = true
  own : ∀ p r, (s.sdk p).own = some r → s.known r = true
  target : ∀ p x, (s.sdk p).target = some x → s.known x = true
  daemon : ∀ d x, s.daemon d = .locked x ∨ s.daemon d = .adopted x → s.known x = true
  sessions : ∀ p, ∀ f ∈ (s.sdk p).sessions, Ownerless s f.run

/-! ## The lists of files -/

@[simp] theorem files_to (s : State) (p : Nat) (pc : Pc) (r : Run) : (s.to p pc).files r = s.files r := rfl

theorem files_setDir (s : State) (r x : Run) (files : Option (List File)) :
    (s.setDir x files).files r = if r = x then files.getD [] else s.files r := by
  unfold State.files State.setDir
  by_cases h : r = x
  · subst h
    simp
  · simp [h]

theorem mem_files_remove {s : State} {r x : Run} {f g : File} :
    g ∈ (s.remove x f).files r ↔ g ∈ s.files r ∧ (r = x → g ≠ f) := by
  unfold State.remove
  rw [files_setDir]
  by_cases h : r = x
  · subst h
    simp only [if_true, State.files]
    cases s.dir r <;> simp
  · simp [h]

theorem mem_files_writeFile {s : State} {r x : Run} {f g : File} (h : g ∈ (s.writeFile x f).files r) :
    g ∈ s.files r ∨ r = x ∧ g = f := by
  change g ∈ (s.setDir x _).files r at h
  rw [files_setDir] at h
  by_cases hr : r = x
  · subst hr
    simp only [if_true] at h
    unfold State.files
    cases hdir : s.dir r with
    | none => simp [hdir] at h
    | some files =>
      simp only [hdir, Option.map_some, Option.getD_some, List.mem_append, List.mem_filter, List.mem_singleton] at h ⊢
      obtain ⟨hmem, -⟩ | hnew := h
      · exact Or.inl hmem
      · exact Or.inr ⟨trivial, hnew⟩
  · rw [if_neg hr] at h
    exact Or.inl h

/-! ## Locks -/

section

variable {s s' : State} {p : Nat} {pc : Pc}

theorem update_cases {α : Type*} (f : Nat → α) (p : Nat) (a : α) (q : Nat) :
    Function.update f p a q = f q ∨ q = p ∧ Function.update f p a q = a := by
  by_cases hq : q = p
  · rw [hq, Function.update_self]
    exact Or.inr ⟨rfl, rfl⟩
  · rw [Function.update_of_ne hq]
    exact Or.inl rfl

/-- A process moves on and keeps what it holds, or less; nobody else's locks are touched. -/
theorem Locks.move (h : Locks s) (hsdk : s'.sdk = Function.update s.sdk p pc) (hlock : s'.lock = s.lock)
    (hdaemonLock : s'.daemonLock = s.daemonLock) (hfile : s'.daemonFile = s.daemonFile) (hdaemon : s'.daemon = s.daemon)
    (hown : ∀ r, pc.own = some r → s.lock r = some p) (hvisits : ∀ x, pc.visits = some x → s.lock x = some p)
    (hapart : ∀ x, pc.target = some x → pc.own ≠ some x)
    (hguards : ∀ x, pc.guards = some x → s.daemonLock x = some (.sdk p))
    (hfrees : ∀ x, pc.frees = some x → pc.guards = some x)
    (hexposes : ∀ x d, pc.exposes = some x → s.daemonLock x ≠ some (.daemon d)) : Locks s' := by
  have hcases : ∀ q, s'.sdk q = s.sdk q ∨ q = p ∧ s'.sdk q = pc := by
    rw [hsdk]
    exact update_cases s.sdk p pc
  constructor
  · intro q r
    rw [hlock]
    obtain hq | ⟨rfl, hq⟩ := hcases q
    · rw [hq]
      exact h.own q r
    · rw [hq]
      exact hown r
  · intro q x
    rw [hlock]
    obtain hq | ⟨rfl, hq⟩ := hcases q
    · rw [hq]
      exact h.visits q x
    · rw [hq]
      exact hvisits x
  · intro q x
    obtain hq | ⟨rfl, hq⟩ := hcases q
    · rw [hq]
      exact h.apart q x
    · rw [hq]
      exact hapart x
  · intro q x
    rw [hdaemonLock]
    obtain hq | ⟨rfl, hq⟩ := hcases q
    · rw [hq]
      exact h.guards q x
    · rw [hq]
      exact hguards x
  · intro q x
    obtain hq | ⟨rfl, hq⟩ := hcases q
    · rw [hq]
      exact h.frees q x
    · rw [hq]
      exact hfrees x
  · intro q x d
    rw [hdaemonLock]
    obtain hq | ⟨rfl, hq⟩ := hcases q
    · rw [hq]
      exact h.exposes q x d
    · rw [hq]
      exact hexposes x d
  · rw [hdaemonLock, hfile]
    exact h.file
  · rw [hdaemonLock, hdaemon]
    exact h.daemon

/-- A lock that nobody holds is taken or one's own lock is let go of. -/
theorem Locks.relock {x : Run} {holder : Option Nat} (h : Locks s)
    (hfree : s.lock x = none ∨ s.lock x = some p ∧ (s.sdk p).own ≠ some x ∧ (s.sdk p).visits ≠ some x) :
    Locks (s.setLock x holder) := by
  have hother : ∀ q r, s.lock r = some q → (r = x → q = p ∧ (s.sdk p).own ≠ some x ∧ (s.sdk p).visits ≠ some x) := by
    rintro q r hq rfl
    obtain hnone | ⟨hp, hne⟩ := hfree
    · rw [hnone] at hq
      cases hq
    · rw [hp] at hq
      cases hq
      exact ⟨rfl, hne⟩
  refine ⟨?_, ?_, h.apart, h.guards, h.frees, h.exposes, h.file, h.daemon⟩
  · intro q r hr
    have hheld := h.own q r hr
    by_cases hrx : r = x
    · obtain ⟨rfl, hown, -⟩ := hother q r hheld hrx
      subst hrx
      exact absurd hr hown
    · simpa [State.setLock, hrx] using hheld
  · intro q r hr
    have hheld := h.visits q r hr
    by_cases hrx : r = x
    · obtain ⟨rfl, -, hvisits⟩ := hother q r hheld hrx
      subst hrx
      exact absurd hr hvisits
    · simpa [State.setLock, hrx] using hheld

/-- The daemon's lock of a run changes hands while nobody relies on it. -/
theorem Locks.redaemon {x : Run} {holder : Option Holder} (h : Locks s) (hsdk : s'.sdk = s.sdk)
    (hlock : s'.lock = s.lock) (hdaemon : s'.daemon = s.daemon)
    (hdaemonLock : s'.daemonLock = Function.update s.daemonLock x holder)
    (hfile : ∀ y, s'.daemonLock y ≠ none → s'.daemonFile y = true) (hguards : ∀ q, (s.sdk q).guards ≠ some x)
    (hdaemons : ∀ d, ¬ (s.daemon d = .locked x ∨ s.daemon d = .adopted x))
    (hexposes : ∀ d q, holder = some (.daemon d) → (s.sdk q).exposes ≠ some x) : Locks s' := by
  have hother : ∀ y, y ≠ x → s'.daemonLock y = s.daemonLock y := by
    intro y hy
    rw [hdaemonLock, Function.update_of_ne hy]
  constructor
  · rw [hsdk, hlock]
    exact h.own
  · rw [hsdk, hlock]
    exact h.visits
  · rw [hsdk]
    exact h.apart
  · intro q y hy
    rw [hsdk] at hy
    have hne : y ≠ x := by
      rintro rfl
      exact hguards q hy
    rw [hother y hne]
    exact h.guards q y hy
  · rw [hsdk]
    exact h.frees
  · intro q y d hy
    rw [hsdk] at hy
    by_cases hyx : y = x
    · subst hyx
      rw [hdaemonLock, Function.update_self]
      intro hholder
      exact hexposes d q hholder hy
    · rw [hother y hyx]
      exact h.exposes q y d hy
  · exact hfile
  · intro d y hd
    rw [hdaemon] at hd
    have hne : y ≠ x := by
      rintro rfl
      exact hdaemons d hd
    rw [hother y hne]
    exact h.daemon d y hd

/-- The daemon's lock is taken while nobody holds it. -/
theorem Locks.take {x : Run} {holder : Option Holder} (h : Locks s) (hfree : s.daemonLock x = none)
    (hexposes : ∀ d q, holder = some (.daemon d) → (s.sdk q).exposes ≠ some x) : Locks (s.setDaemonLock x holder) := by
  refine h.redaemon rfl rfl rfl rfl ?_ ?_ ?_ hexposes
  · intro y hy
    by_cases hyx : y = x
    · subst hyx
      have hsome : holder ≠ none := by simpa [State.setDaemonLock] using hy
      simpa [State.setDaemonLock, Option.isSome_iff_ne_none] using hsome
    · have hfile := h.file y (by simpa [State.setDaemonLock, hyx] using hy)
      simpa [State.setDaemonLock, hyx] using hfile
  · intro q hq
    have hheld := h.guards q x hq
    rw [hfree] at hheld
    cases hheld
  · intro d hd
    have hheld := h.daemon d x hd
    rw [hfree] at hheld
    cases hheld

theorem Locks.daemonMove {d : Nat} {dpc : DaemonPc} (h : Locks s)
    (hdpc : ∀ x, dpc = .locked x ∨ dpc = .adopted x → s.daemonLock x = some (.daemon d)) :
    Locks (s.daemonTo d dpc) := by
  refine ⟨h.own, h.visits, h.apart, h.guards, h.frees, h.exposes, h.file, ?_⟩
  intro e x he
  change Function.update s.daemon d dpc e = _ ∨ Function.update s.daemon d dpc e = _ at he
  obtain hsame | ⟨rfl, hnew⟩ := update_cases s.daemon d dpc e
  · rw [hsame] at he
    exact h.daemon e x he
  · rw [hnew] at he
    exact hdpc x he

/-- A daemon lets its lock go, with or without the lock's file. -/
theorem Locks.release {d : Nat} {x : Run} {file : Run → Bool} (h : Locks s)
    (hd : s.daemon d = .locked x ∨ s.daemon d = .adopted x) (hfile : ∀ y, y ≠ x → file y = s.daemonFile y) :
    Locks ({ s with daemonLock := Function.update s.daemonLock x none, daemonFile := file }.daemonTo d .out) := by
  have hheld := h.daemon d x hd
  have hmoved : Locks (s.daemonTo d .out) := by
    apply h.daemonMove
    rintro y (⟨⟨⟩⟩ | ⟨⟨⟩⟩)
  refine hmoved.redaemon rfl rfl rfl rfl ?_ ?_ ?_ ?_
  · intro y hy
    have hne : y ≠ x := by
      rintro rfl
      exact hy (Function.update_self ..)
    refine (hfile y hne).trans (h.file y ?_)
    rw [← Function.update_of_ne hne none s.daemonLock]
    exact hy
  · intro q hq
    have hq' : s.daemonLock x = some (.sdk q) := h.guards q x hq
    rw [hheld] at hq'
    cases hq'
  · intro e he
    have he' : s.daemonLock x = some (.daemon e) := hmoved.daemon e x he
    rw [hheld] at he'
    cases he'
    have hout : (s.daemonTo d .out).daemon d = .out := Function.update_self ..
    rw [hout] at he
    rcases he with he | he <;> cases he
  · rintro e q ⟨⟩

/-- A step that leaves the locks and the processes alone. -/
theorem Locks.still (h : Locks s) (hsdk : s'.sdk = s.sdk) (hlock : s'.lock = s.lock)
    (hdaemonLock : s'.daemonLock = s.daemonLock) (hfile : s'.daemonFile = s.daemonFile)
    (hdaemon : s'.daemon = s.daemon) : Locks s' := by
  constructor
  · rw [hsdk, hlock]
    exact h.own
  · rw [hsdk, hlock]
    exact h.visits
  · rw [hsdk]
    exact h.apart
  · rw [hsdk, hdaemonLock]
    exact h.guards
  · rw [hsdk]
    exact h.frees
  · rw [hsdk, hdaemonLock]
    exact h.exposes
  · rw [hdaemonLock, hfile]
    exact h.file
  · rw [hdaemon, hdaemonLock]
    exact h.daemon

/-- Two processes do not go through one directory. -/
theorem Locks.visitor {q : Nat} {x : Run} (h : Locks s) (hp : (s.sdk p).visits = some x)
    (hq : (s.sdk q).visits = some x) : q = p := by
  have hheld := h.visits p x hp
  rw [h.visits q x hq] at hheld
  exact Option.some.inj hheld

/-! ## Files that were taken -/

theorem sessions_update (sdk : Nat → Pc) (p : Nat) (pc : Pc) :
    (fun q => (Function.update sdk p pc q).sessions) = Function.update (fun q => (sdk q).sessions) p pc.sessions := by
  funext q
  by_cases hq : q = p
  · rw [hq, Function.update_self, Function.update_self]
  · rw [Function.update_of_ne hq, Function.update_of_ne hq]

section

variable {captured : List File} {sessions : Nat → List File} {f : File}

theorem Apart.capture (h : Apart captured sessions) (hf : f ∉ captured) (hs : ∀ q, f ∉ sessions q) :
    Apart (captured ++ [f]) sessions := by
  refine ⟨?_, h.each, ?_, h.disjoint⟩
  · apply h.nodup.append (List.nodup_singleton f)
    intro g hg hgf
    rw [List.mem_singleton.1 hgf] at hg
    exact hf hg
  · intro q g hg hmem
    obtain hold | hgf := List.mem_append.1 hmem
    · exact h.uncaptured q g hg hold
    · rw [List.mem_singleton.1 hgf] at hg
      exact hs q hg

theorem Apart.collect (h : Apart captured sessions) (p : Nat) (hf : f ∉ captured) (hs : ∀ q, f ∉ sessions q) :
    Apart captured (Function.update sessions p (sessions p ++ [f])) := by
  have hmem : ∀ q g, g ∈ Function.update sessions p (sessions p ++ [f]) q → g ∈ sessions q ∨ q = p ∧ g = f := by
    intro q g hg
    obtain hq | ⟨rfl, hq⟩ := update_cases sessions p (sessions p ++ [f]) q
    · rw [hq] at hg
      exact Or.inl hg
    · rw [hq] at hg
      simpa using hg
  refine ⟨h.nodup, ?_, ?_, ?_⟩
  · intro q
    obtain hq | ⟨rfl, hq⟩ := update_cases sessions p (sessions p ++ [f]) q
    · rw [hq]
      exact h.each q
    · rw [hq]
      apply (h.each q).append (List.nodup_singleton f)
      intro g hg hgf
      rw [List.mem_singleton.1 hgf] at hg
      exact hs q hg
  · intro q g hg
    obtain hold | ⟨-, rfl⟩ := hmem q g hg
    · exact h.uncaptured q g hold
    · exact hf
  · intro q q' hne g hg hg'
    obtain hold | ⟨rfl, rfl⟩ := hmem q g hg
    · obtain hold' | ⟨rfl, rfl⟩ := hmem q' g hg'
      · exact h.disjoint q q' hne g hold hold'
      · exact hs q hold
    · obtain hold' | ⟨rfl, -⟩ := hmem q' g hg'
      · exact hs q' hold'
      · exact hne rfl

/-- The sessions a process collected are captured and its envelope is given away. -/
theorem Apart.flush (h : Apart captured sessions) (p : Nat) :
    Apart (captured ++ sessions p) (Function.update sessions p []) := by
  have hmem : ∀ q g, g ∈ Function.update sessions p [] q → g ∈ sessions q ∧ q ≠ p := by
    intro q g hg
    by_cases hq : q = p
    · rw [hq, Function.update_self] at hg
      cases hg
    · rw [Function.update_of_ne hq] at hg
      exact ⟨hg, hq⟩
  refine ⟨?_, ?_, ?_, ?_⟩
  · apply h.nodup.append (h.each p)
    intro g hg hp
    exact h.uncaptured p g hp hg
  · intro q
    obtain hq | ⟨rfl, hq⟩ := update_cases sessions p [] q
    · rw [hq]
      exact h.each q
    · rw [hq]
      exact List.nodup_nil
  · intro q g hg hc
    obtain ⟨hold, hq⟩ := hmem q g hg
    obtain hc | hc := List.mem_append.1 hc
    · exact h.uncaptured q g hold hc
    · exact h.disjoint q p hq g hold hc
  · intro q q' hne g hg hg'
    exact h.disjoint q q' hne g (hmem q g hg).1 (hmem q' g hg').1

end

/-- A process moves on. It takes at most one more file, which it is to remove next; files may
go, but none that it was to remove stays behind. -/
theorem Takes.move (new : Option File) (h : Takes s) (hlocks : Locks s) (hsdk : s'.sdk = Function.update s.sdk p pc)
    (hwritten : s'.written = s.written) (hfiles : ∀ r, ∀ f ∈ s'.files r, f ∈ s.files r)
    (hapart : Apart s'.captured fun q => (s'.sdk q).sessions) (htaken : ∀ f, Taken s' f → Taken s f ∨ new = some f)
    (hnew : ∀ f, new = some f → s.written f = true ∧ (s.sdk p).visits = some f.run ∧ pc.visits = some f.run ∧
      pc.removes = some f)
    (hreads : ∀ f, pc.reads = some f → ¬ Taken s' f ∧ s.written f = true ∧ pc.visits = some f.run)
    (hremoves : ∀ r, ∀ f ∈ s'.files r, (s.sdk p).removes = some f → (s.sdk p).visits = some r →
      pc.removes = some f ∧ pc.visits = some r) : Takes s' := by
  have hcases : ∀ q, s'.sdk q = s.sdk q ∨ q = p ∧ s'.sdk q = pc := by
    rw [hsdk]
    exact update_cases s.sdk p pc
  constructor
  · intro r f hf
    rw [hwritten]
    exact h.home r f (hfiles r f hf)
  · exact hapart
  · intro f hf
    rw [hwritten]
    obtain hold | hf := htaken f hf
    · exact h.written f hold
    · exact (hnew f hf).1
  · intro r f hmem hf
    obtain hold | hf := htaken f hf
    · obtain ⟨q, hq, hv⟩ := h.there r f (hfiles r f hmem) hold
      refine ⟨q, ?_⟩
      obtain hsame | ⟨rfl, hpc⟩ := hcases q
      · rw [hsame]
        exact ⟨hq, hv⟩
      · rw [hpc]
        exact hremoves r f hmem hq hv
    · obtain ⟨-, -, hvisits, hremove⟩ := hnew f hf
      refine ⟨p, ?_⟩
      rw [hsdk, Function.update_self, hvisits, (h.home r f (hfiles r f hmem)).1]
      exact ⟨hremove, rfl⟩
  · intro q f hf
    rw [hwritten]
    obtain hsame | ⟨rfl, hpc⟩ := hcases q
    · rw [hsame] at hf ⊢
      obtain ⟨hfree, hw, hv⟩ := h.reads q f hf
      by_cases hqp : q = p
      · subst hqp
        rw [hsdk, Function.update_self] at hsame
        rw [← hsame] at hf ⊢
        exact hreads f hf
      · refine ⟨?_, hw, hv⟩
        -- two processes that look at one file would go through one directory
        intro hf'
        obtain hold | hf' := htaken f hf'
        · exact hfree hold
        · exact hqp (hlocks.visitor (hnew f hf').2.1 hv)
    · rw [hpc] at hf ⊢
      exact hreads f hf

/-- A process moves on with what it has. -/
theorem Takes.pass (h : Takes s) (hlocks : Locks s) (hsdk : s'.sdk = Function.update s.sdk p pc)
    (hcaptured : s'.captured = s.captured) (hwritten : s'.written = s.written)
    (hfiles : ∀ r, ∀ f ∈ s'.files r, f ∈ s.files r) (hsessions : pc.sessions = (s.sdk p).sessions)
    (hreads : ∀ f, pc.reads = some f → ¬ Taken s f ∧ s.written f = true ∧ pc.visits = some f.run)
    (hremoves : ∀ r, ∀ f ∈ s'.files r, (s.sdk p).removes = some f → (s.sdk p).visits = some r →
      pc.removes = some f ∧ pc.visits = some r) : Takes s' := by
  have hsame : ∀ q, (s'.sdk q).sessions = (s.sdk q).sessions := by
    intro q
    rw [hsdk]
    obtain hq | ⟨rfl, hq⟩ := update_cases s.sdk p pc q
    · rw [hq]
    · rw [hq, hsessions]
  have htaken : ∀ f, Taken s' f ↔ Taken s f := by
    intro f
    unfold Taken
    simp only [hcaptured, hsame]
  refine Takes.move none h hlocks hsdk hwritten hfiles ?_ (fun f hf => Or.inl ((htaken f).1 hf)) ?_ ?_ hremoves
  · simp only [hcaptured, hsame]
    exact h.apart
  · intro f hf
    cases hf
  · intro f hf
    rw [htaken]
    exact hreads f hf

/-- A process captures the sessions it has. -/
theorem Takes.flush (h : Takes s) (hlocks : Locks s) (hsdk : s'.sdk = Function.update s.sdk p pc)
    (hcaptured : s'.captured = s.captured ++ (s.sdk p).sessions) (hwritten : s'.written = s.written)
    (hdir : s'.dir = s.dir) (hsessions : pc.sessions = []) (hreads : pc.reads = none)
    (hremoves : ∀ f, (s.sdk p).removes = some f → pc.removes = some f ∧ pc.visits = (s.sdk p).visits) : Takes s' := by
  have hfiles : ∀ r, s'.files r = s.files r := by
    intro r
    unfold State.files
    rw [hdir]
  refine Takes.move none h hlocks hsdk hwritten (fun r f hf => by rwa [hfiles] at hf) ?_ ?_ ?_ ?_ ?_
  · rw [hcaptured, hsdk, sessions_update, hsessions]
    exact h.apart.flush p
  · rintro f (hf | ⟨q, hq⟩)
    · rw [hcaptured] at hf
      obtain hf | hf := List.mem_append.1 hf
      · exact Or.inl (Or.inl hf)
      · exact Or.inl (Or.inr ⟨p, hf⟩)
    · rw [hsdk] at hq
      obtain hsame | ⟨rfl, hpc⟩ := update_cases s.sdk p pc q
      · rw [hsame] at hq
        exact Or.inl (Or.inr ⟨q, hq⟩)
      · rw [hpc, hsessions] at hq
        cases hq
  · intro f hf
    cases hf
  · intro f hf
    rw [hreads] at hf
    cases hf
  · intro r f _ hf hv
    obtain ⟨hremove, hvisits⟩ := hremoves f hf
    exact ⟨hremove, by rw [hvisits, hv]⟩

/-- A new file is not one that was taken. -/
theorem Takes.write {x : Run} {f : File} (h : Takes s) (hf : f.run = x) (hnew : s.written f = false) :
    Takes (s.writeFile x f) := by
  have hold : ∀ g, s.written g = true → (s.writeFile x f).written g = true := by
    intro g hg
    have hne : g ≠ f := by
      rintro rfl
      rw [hnew] at hg
      cases hg
    simpa [State.writeFile, hne] using hg
  refine ⟨?_, h.apart, fun g hg => hold g (h.written g hg), ?_, ?_⟩
  · intro r g hg
    obtain hg | ⟨rfl, rfl⟩ := mem_files_writeFile hg
    · obtain ⟨hrun, hw⟩ := h.home r g hg
      exact ⟨hrun, hold g hw⟩
    · exact ⟨hf, by simp [State.writeFile]⟩
  · intro r g hg ht
    obtain hg | ⟨rfl, rfl⟩ := mem_files_writeFile hg
    · exact h.there r g hg ht
    · have hw := h.written g ht
      rw [hnew] at hw
      cases hw
  · intro q g hg
    obtain ⟨hfree, hw, hv⟩ := h.reads q g hg
    exact ⟨hfree, hold g hw, hv⟩

/-- A step that takes nothing and moves no process: files may go. -/
theorem Takes.still (h : Takes s) (hsdk : s'.sdk = s.sdk) (hcaptured : s'.captured = s.captured)
    (hwritten : s'.written = s.written) (hfiles : ∀ r, ∀ f ∈ s'.files r, f ∈ s.files r) : Takes s' := by
  have htaken : ∀ f, Taken s' f ↔ Taken s f := by
    intro f
    unfold Taken
    rw [hsdk, hcaptured]
  refine ⟨?_, ?_, ?_, ?_, ?_⟩
  · intro r f hf
    rw [hwritten]
    exact h.home r f (hfiles r f hf)
  · rw [hsdk, hcaptured]
    exact h.apart
  · intro f hf
    rw [hwritten]
    exact h.written f ((htaken f).1 hf)
  · intro r f hmem hf
    rw [hsdk]
    exact h.there r f (hfiles r f hmem) ((htaken f).1 hf)
  · intro q f hf
    rw [hsdk] at hf ⊢
    rw [htaken, hwritten]
    exact h.reads q f hf

/-! ## Runs that nobody uses -/

theorem Locks.daemonless (h : Locks s) {x : Run} (hx : (s.sdk p).guards = some x ∨ (s.sdk p).exposes = some x) (d : Nat) :
    s.daemonLock x ≠ some (.daemon d) := by
  obtain hx | hx := hx
  · rw [h.guards p x hx]
    rintro ⟨⟩
  · exact h.exposes p x d hx

/-- The run a process goes through is ownerless. -/
theorem Settled.visited (h : Settled s) (hlocks : Locks s) {x : Run} (hvisits : (s.sdk p).visits = some x)
    (htarget : (s.sdk p).target = some x) (hx : (s.sdk p).guards = some x ∨ (s.sdk p).exposes = some x) :
    Ownerless s x := by
  refine ⟨h.target p x htarget, ?_, hlocks.daemonless hx⟩
  intro q hq
  have hheld := hlocks.visits p x hvisits
  rw [hlocks.own q x hq] at hheld
  cases hheld
  exact hlocks.apart p x htarget hq

/-- A process moves on. It may have a new run, and a session of a run that nobody uses. -/
theorem Settled.move (h : Settled s) (hsdk : s'.sdk = Function.update s.sdk p pc)
    (hknown : ∀ r, s.known r = true → s'.known r = true) (hdir : ∀ r, (s'.dir r).isSome = true → s'.known r = true)
    (hdaemon : s'.daemon = s.daemon)
    (hdaemonLock : ∀ r d, s'.daemonLock r = some (.daemon d) → s.daemonLock r = some (.daemon d))
    (hown : ∀ r, pc.own = some r → s'.known r = true ∧ ((s.sdk p).own = some r ∨ s.known r = false))
    (htarget : ∀ x, pc.target = some x → s'.known x = true)
    (hsessions : ∀ f ∈ pc.sessions, f ∈ (s.sdk p).sessions ∨ Ownerless s f.run) : Settled s' := by
  have hcases : ∀ q, s'.sdk q = s.sdk q ∨ q = p ∧ s'.sdk q = pc := by
    rw [hsdk]
    exact update_cases s.sdk p pc
  have hkeep : ∀ r, Ownerless s r → Ownerless s' r := by
    intro r hr
    refine ⟨hknown r hr.known, ?_, fun d hd => hr.daemon d (hdaemonLock r d hd)⟩
    intro q hq
    obtain hsame | ⟨rfl, hpc⟩ := hcases q
    · rw [hsame] at hq
      exact hr.own q hq
    · rw [hpc] at hq
      obtain hold | hnew := (hown r hq).2
      · exact hr.own q hold
      · rw [hr.known] at hnew
        cases hnew
  refine ⟨hdir, ?_, ?_, ?_, ?_⟩
  · intro q r hq
    obtain hsame | ⟨rfl, hpc⟩ := hcases q
    · rw [hsame] at hq
      exact hknown r (h.own q r hq)
    · rw [hpc] at hq
      exact (hown r hq).1
  · intro q x hq
    obtain hsame | ⟨rfl, hpc⟩ := hcases q
    · rw [hsame] at hq
      exact hknown x (h.target q x hq)
    · rw [hpc] at hq
      exact htarget x hq
  · intro d x hd
    rw [hdaemon] at hd
    exact hknown x (h.daemon d x hd)
  · intro q f hf
    apply hkeep
    obtain hsame | ⟨rfl, hpc⟩ := hcases q
    · rw [hsame] at hf
      exact h.sessions q f hf
    · rw [hpc] at hf
      obtain hold | hfree := hsessions f hf
      · exact h.sessions q f hold
      · exact hfree

/-- A daemon moves on; it adopts no run whose session is collected. -/
theorem Settled.daemonMove {d : Nat} {dpc : DaemonPc} (h : Settled s) (hsdk : s'.sdk = s.sdk)
    (hknown : s'.known = s.known) (hdaemon : s'.daemon = Function.update s.daemon d dpc)
    (hdir : ∀ r, (s'.dir r).isSome = true → s'.known r = true)
    (hdpc : ∀ x, dpc = .locked x ∨ dpc = .adopted x → s.known x = true)
    (hdaemonLock : ∀ r e, s'.daemonLock r = some (.daemon e) →
      s.daemonLock r = some (.daemon e) ∨ ∀ q, ∀ f ∈ (s.sdk q).sessions, f.run ≠ r) : Settled s' := by
  refine ⟨hdir, ?_, ?_, ?_, ?_⟩
  · rw [hsdk, hknown]
    exact h.own
  · rw [hsdk, hknown]
    exact h.target
  · intro e x he
    rw [hknown]
    rw [hdaemon] at he
    obtain hsame | ⟨rfl, hnew⟩ := update_cases s.daemon d dpc e
    · rw [hsame] at he
      exact h.daemon e x he
    · rw [hnew] at he
      exact hdpc x he
  · intro q f hf
    rw [hsdk] at hf
    have hfree := h.sessions q f hf
    refine ⟨by rw [hknown]; exact hfree.known, by rw [hsdk]; exact hfree.own, ?_⟩
    intro e he
    obtain hold | hnone := hdaemonLock f.run e he
    · exact hfree.daemon e hold
    · exact hnone q f hf rfl

end

end SentryNative.OldRuns
