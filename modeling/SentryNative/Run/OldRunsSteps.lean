import SentryNative.Run.OldRunsInvariant

/-!
# Steps on run directories

One lemma for each kind of move, and the invariant of the locks and of the taken files over
every step.
-/

namespace SentryNative.OldRuns

open Machine

/-! ## Steps within a directory -/

section

variable {s : State} {p : Nat} {own : Run} {rest : List Run} {sessions : List File} {x : Run} {guarded : Bool}
  {stage : Stage}

/-- Where a process goes on after a step within a directory. -/
def resume (own : Run) (rest : List Run) (sessions : List File) (x : Run) (guarded : Bool) : Option Stage → Pc
  | some stage => .old own rest sessions x guarded stage
  | none => .unlock own rest sessions x

theorem removeMarker_locks (s : State) (x : Run) (marker : Option File) :
    (s.removeMarker x marker).lock = s.lock ∧ (s.removeMarker x marker).daemonLock = s.daemonLock ∧
      (s.removeMarker x marker).daemonFile = s.daemonFile ∧ (s.removeMarker x marker).daemon = s.daemon ∧
      (s.removeMarker x marker).sdk = s.sdk ∧ (s.removeMarker x marker).written = s.written := by
  unfold State.removeMarker
  split
  · split <;> exact ⟨rfl, rfl, rfl, rfl, rfl, rfl⟩
  · exact ⟨rfl, rfl, rfl, rfl, rfl, rfl⟩

theorem files_removeMarker {marker : Option File} {r : Run} {f : File} (h : f ∈ (s.removeMarker x marker).files r) :
    f ∈ s.files r := by
  unfold State.removeMarker at h
  split at h
  · split at h
    · exact (mem_files_remove.1 h).1
    · exact h
  · exact h

/-- Going on to the next thing within the directory, where nothing is to be removed. -/
theorem stage_pass (s' : State) (next : Option Stage) (h : Takes s) (hlocks : Locks s)
    (hp : s.sdk p = .old own rest sessions x guarded stage) (hremoves : stage.removes = none)
    (hnext : ∀ st, next = some st → st.reads = none) (hcaptured : s'.captured = s.captured)
    (hwritten : s'.written = s.written) (hsdk : s'.sdk = s.sdk) (hfiles : ∀ r, ∀ f ∈ s'.files r, f ∈ s.files r) :
    Takes (s'.to p (resume own rest sessions x guarded next)) := by
  refine h.pass hlocks (?_ : _ = Function.update s.sdk p (resume own rest sessions x guarded next)) hcaptured hwritten hfiles ?_ ?_ ?_
  · unfold State.to
    rw [hsdk]
  · rw [hp]
    cases next <;> rfl
  · intro f hf
    cases next with
    | none => cases hf
    | some st =>
      have hreads : st.reads = some f := hf
      rw [hnext st rfl] at hreads
      cases hreads
  · intro r f _ hf
    rw [hp] at hf
    have hremove : stage.removes = some f := hf
    rw [hremoves] at hremove
    cases hremove

/-- A file in the directory a process goes through was not taken, unless it is about to remove it. -/
theorem Takes.fresh {f : File} (h : Takes s) (hlocks : Locks s) (hp : s.sdk p = .old own rest sessions x guarded stage)
    (hremoves : stage.removes = none) (hf : f ∈ s.files x) : ¬ Taken s f ∧ s.written f = true ∧ f.run = x := by
  obtain ⟨hrun, hw⟩ := h.home x f hf
  refine ⟨?_, hw, hrun⟩
  intro ht
  obtain ⟨q, hq, hv⟩ := h.there x f hf ht
  have hvisits : (s.sdk p).visits = some x := by rw [hp]; rfl
  have hqp := hlocks.visitor hvisits hv
  subst hqp
  rw [hp] at hq
  have hremove : stage.removes = some f := hq
  rw [hremoves] at hremove
  cases hremove

/-- The file that was to be removed is removed. -/
theorem stage_remove {f : File} {next : Stage} (h : Takes s) (hlocks : Locks s)
    (hp : s.sdk p = .old own rest sessions x guarded stage) (hremoves : stage.removes = some f)
    (hnext : next.reads = none) : Takes ((s.remove x f).to p (.old own rest sessions x guarded next)) := by
  refine h.pass hlocks rfl rfl rfl ?_ ?_ ?_ ?_
  · intro r g hg
    exact (mem_files_remove.1 hg).1
  · rw [hp]
    rfl
  · intro g hg
    have hreads : next.reads = some g := hg
    rw [hnext] at hreads
    cases hreads
  · intro r g hg hg' hv
    rw [hp] at hg' hv
    have hgf : stage.removes = some g := hg'
    rw [hremoves] at hgf
    cases hgf
    exact absurd rfl ((mem_files_remove.1 hg).2 (Option.some.inj hv).symm)

/-- The process takes a file that nobody took, and is to remove it next. -/
theorem stage_takes_one {s' : State} {sessions' : List File} {next : Stage} (f : File) (h : Takes s)
    (hlocks : Locks s) (hp : s.sdk p = .old own rest sessions x guarded stage) (hbefore : stage.removes = none)
    (hw : s.written f = true) (hrun : f.run = x) (hremoves : next.removes = some f) (hreads : next.reads = none) (hfree : ¬ Taken s f)
    (hsdk : s'.sdk = s.sdk) (hwritten : s'.written = s.written) (hfiles : ∀ r, ∀ g ∈ s'.files r, g ∈ s.files r)
    (hnew : s'.captured = s.captured ++ [f] ∧ sessions' = sessions ∨
      s'.captured = s.captured ∧ sessions' = sessions ++ [f]) :
    Takes (s'.to p (.old own rest sessions' x guarded next)) := by
  subst hrun
  have hupdate : (s'.to p (.old own rest sessions' f.run guarded next)).sdk
      = Function.update s.sdk p (.old own rest sessions' f.run guarded next) := by
    unfold State.to
    rw [hsdk]
  have hsessions : (s.sdk p).sessions = sessions := by rw [hp]; rfl
  have hcaptured : f ∉ s.captured := fun hc => hfree (Or.inl hc)
  have hcollected : ∀ q, f ∉ (s.sdk q).sessions := fun q hq => hfree (Or.inr ⟨q, hq⟩)
  refine Takes.move (some f) h hlocks hupdate hwritten hfiles ?_ ?_ ?_ ?_ ?_
  · rw [hupdate, sessions_update]
    obtain ⟨hcap, rfl⟩ | ⟨hcap, rfl⟩ := hnew
    · have hsame : Function.update (fun q => (s.sdk q).sessions) p sessions' = fun q => (s.sdk q).sessions := by
        rw [← hsessions]
        exact Function.update_eq_self p _
      change Apart s'.captured (Function.update _ p sessions')
      rw [hsame, hcap]
      exact h.apart.capture hcaptured hcollected
    · change Apart s'.captured (Function.update _ p (sessions ++ [f]))
      rw [hcap, ← hsessions]
      exact h.apart.collect p hcaptured hcollected
  · rintro g (hg | ⟨q, hq⟩)
    · have hmem : g ∈ s'.captured := hg
      obtain ⟨hcap, -⟩ | ⟨hcap, -⟩ := hnew
      · rw [hcap] at hmem
        obtain hg | hg := List.mem_append.1 hmem
        · exact Or.inl (Or.inl hg)
        · exact Or.inr (by rw [List.mem_singleton.1 hg])
      · rw [hcap] at hmem
        exact Or.inl (Or.inl hmem)
    · rw [hupdate] at hq
      obtain hsame | ⟨rfl, hpc⟩ := update_cases s.sdk p (.old own rest sessions' f.run guarded next) q
      · rw [hsame] at hq
        exact Or.inl (Or.inr ⟨q, hq⟩)
      · rw [hpc] at hq
        have hmem : g ∈ sessions' := hq
        obtain ⟨-, rfl⟩ | ⟨-, rfl⟩ := hnew
        · exact Or.inl (Or.inr ⟨q, by rw [hsessions]; exact hmem⟩)
        · obtain hg | hg := List.mem_append.1 hmem
          · exact Or.inl (Or.inr ⟨q, by rw [hsessions]; exact hg⟩)
          · exact Or.inr (by rw [List.mem_singleton.1 hg])
  · rintro g ⟨⟩
    exact ⟨hw, by rw [hp]; rfl, rfl, hremoves⟩
  · intro g hg
    have hread : next.reads = some g := hg
    rw [hreads] at hread
    cases hread
  · intro r g _ hg
    rw [hp] at hg
    have hremove : stage.removes = some g := hg
    rw [hbefore] at hremove
    cases hremove

theorem stage_takes (ok : Bool) (marker : Option File) (h : Takes s) (hlocks : Locks s)
    (hp : s.sdk p = .old own rest sessions x guarded stage) :
    let r := stageStep s sessions x guarded ok marker stage
    Takes (r.1.to p (resume own rest r.2.1 x guarded r.2.2)) := by
  intro r
  subst r
  have hvisits : (s.sdk p).visits = some x := by rw [hp]; rfl
  have hsessions : (s.sdk p).sessions = sessions := by rw [hp]; rfl
  have hkeep : ∀ r, ∀ f ∈ s.files r, f ∈ s.files r := fun _ _ hf => hf
  cases stage with
  | listBackend =>
    refine stage_pass s _ h hlocks hp rfl ?_ rfl rfl rfl hkeep
    cases ok <;> (rintro st ⟨⟩; rfl)
  | backend files =>
    cases files with
    | nil => exact stage_pass s _ h hlocks hp rfl (by rintro st ⟨⟩; rfl) rfl rfl rfl hkeep
    | cons f files =>
      refine stage_pass s _ h hlocks hp rfl ?_ rfl rfl rfl hkeep
      rintro st ⟨⟩
      split <;> rfl
  | removeCrash f files =>
    cases ok with
    | true =>
      exact stage_pass (s.remove x f) _ h hlocks hp rfl (by rintro st ⟨⟩; rfl) rfl rfl rfl
        fun r g hg => (mem_files_remove.1 hg).1
    | false => exact stage_pass s _ h hlocks hp rfl (by rintro st ⟨⟩; rfl) rfl rfl rfl hkeep
  | listEnvelopes processed => exact stage_pass s _ h hlocks hp rfl (by rintro st ⟨⟩; rfl) rfl rfl rfl hkeep
  | envelopes processed files =>
    cases files with
    | nil => exact stage_pass s _ h hlocks hp rfl (by rintro st ⟨⟩; rfl) rfl rfl rfl hkeep
    | cons f files =>
      refine stage_pass s _ h hlocks hp rfl ?_ rfl rfl rfl hkeep
      rintro st ⟨⟩
      split <;> rfl
  | readEnvelope processed f files =>
    simp only [stageStep]
    split
    · rename_i hread
      obtain ⟨hfree, hw, hrun⟩ := h.fresh hlocks hp rfl hread.1
      refine h.pass hlocks rfl rfl rfl hkeep hsessions.symm ?_ ?_
      · rintro g ⟨⟩
        exact ⟨hfree, hw, by rw [hrun]; rfl⟩
      · intro r g _ hg
        rw [hp] at hg
        cases hg
    · exact stage_pass s (some (.removeEnvelope processed f files)) h hlocks hp rfl (by rintro st ⟨⟩; rfl) rfl
        rfl rfl hkeep
  | capture processed f files =>
    obtain ⟨hfree, hw, hv⟩ := h.reads p f (by rw [hp]; rfl)
    rw [hvisits] at hv
    cases hv
    obtain ⟨-, -, -, -, hsdk, hwritten⟩ := removeMarker_locks s f.run marker
    apply stage_takes_one f h hlocks hp rfl hw rfl rfl rfl hfree
    · exact hsdk
    · exact hwritten
    · intro r g hg
      exact files_removeMarker hg
    · exact Or.inl ⟨rfl, rfl⟩
  | removeEnvelope processed f files => exact stage_remove h hlocks hp rfl rfl
  | listFiles processed => exact stage_pass s _ h hlocks hp rfl (by rintro st ⟨⟩; rfl) rfl rfl rfl hkeep
  | files processed files =>
    cases files with
    | nil =>
      refine stage_pass s _ h hlocks hp rfl ?_ rfl rfl rfl hkeep
      intro st hst
      cases processed <;> cases guarded <;> cases hst <;> rfl
    | cons f files =>
      simp only [stageStep]
      split
      · exact stage_pass s (some _) h hlocks hp rfl (by rintro st ⟨⟩; rfl) rfl rfl rfl hkeep
      · split
        · split
          · rename_i hread
            obtain ⟨hfree, hw, hrun⟩ := h.fresh hlocks hp rfl hread.1
            apply stage_takes_one f h hlocks hp rfl hw hrun ?_ ?_ hfree rfl rfl hkeep (Or.inr ⟨rfl, rfl⟩)
            · split <;> rfl
            · split <;> rfl
          · exact stage_pass s (some _) h hlocks hp rfl (by rintro st ⟨⟩; rfl) rfl rfl rfl hkeep
        · refine stage_pass s (some _) h hlocks hp rfl ?_ rfl rfl rfl hkeep
          rintro st ⟨⟩
          split <;> rfl
  | flush processed f files =>
    apply h.flush hlocks rfl
    · rw [hsessions]
      rfl
    · rfl
    · rfl
    · rfl
    · rfl
    · intro g hg
      rw [hp] at hg ⊢
      exact ⟨hg, rfl⟩
  | removeFile processed f files => exact stage_remove h hlocks hp rfl rfl
  | removeAll =>
    refine stage_pass (s.setDir x none) _ h hlocks hp rfl ?_ rfl rfl rfl ?_
    · intro st hst
      cases guarded <;> cases hst
      rfl
    · intro r f hf
      rw [files_setDir] at hf
      split at hf
      · cases hf
      · exact hf
  | unlockDaemon => exact stage_pass (s.setDaemonLock x none) _ h hlocks hp rfl (by rintro st ⟨⟩) rfl rfl rfl hkeep

/-- The lock of the daemon is let go of by the one who holds it. -/
theorem Locks.unguard (h : Locks s) (hp : s.sdk p = .old own rest sessions x guarded .unlockDaemon) :
    Locks ((s.setDaemonLock x none).to p (.unlock own rest sessions x)) := by
  have hguards : (s.sdk p).guards = some x := h.frees p x (by rw [hp]; rfl)
  have hheld := h.guards p x hguards
  have hmoved : Locks (s.to p (.unlock own rest sessions x)) := by
    refine h.move rfl rfl rfl rfl rfl ?_ ?_ ?_ ?_ ?_ ?_
    · rintro r ⟨⟩
      exact h.own p own (by rw [hp]; rfl)
    · rintro r ⟨⟩
      exact h.visits p x (by rw [hp]; rfl)
    · rintro r ⟨⟩
      have hapart := h.apart p x (by rw [hp]; rfl)
      rw [hp] at hapart
      exact hapart
    · rintro r ⟨⟩
    · rintro r ⟨⟩
    · rintro r d ⟨⟩
  refine hmoved.redaemon rfl rfl rfl (rfl : _ = Function.update s.daemonLock x none) ?_ ?_ ?_ ?_
  · intro y hy
    have hne : y ≠ x := by
      rintro rfl
      exact hy (Function.update_self ..)
    have hfile : s.daemonFile y = true := by
      apply h.file
      rw [← Function.update_of_ne hne none s.daemonLock]
      exact hy
    exact (Function.update_of_ne hne _ _).trans hfile
  · intro q hq
    have hq' := hmoved.guards q x hq
    have hqp : q = p := by
      have hheld' : s.daemonLock x = some (.sdk q) := hq'
      rw [hheld] at hheld'
      cases hheld'
      rfl
    subst hqp
    rw [show (s.to q (.unlock own rest sessions x)).sdk q = .unlock own rest sessions x from Function.update_self ..] at hq
    cases hq
  · intro d hd
    have hd' : s.daemonLock x = some (.daemon d) := hmoved.daemon d x hd
    rw [hheld] at hd'
    cases hd'
  · intro d q hd
    cases hd

/-- Every other step within a directory leaves the locks alone, and only one who holds the
daemon's lock goes on to let go of it. -/
theorem stageStep_locks {ok : Bool} {marker : Option File} {s' : State} {sessions' : List File}
    {next : Option Stage} (hr : stageStep s sessions x guarded ok marker stage = (s', sessions', next))
    (hstage : stage ≠ .unlockDaemon) :
    s'.lock = s.lock ∧ s'.daemonLock = s.daemonLock ∧ s'.daemonFile = s.daemonFile ∧ s'.daemon = s.daemon ∧
      s'.sdk = s.sdk ∧ (next = some .unlockDaemon → guarded = true) := by
  unfold stageStep at hr
  split at hr
  · cases hr
    cases ok <;> exact ⟨rfl, rfl, rfl, rfl, rfl, by rintro ⟨⟩⟩
  · cases hr
    exact ⟨rfl, rfl, rfl, rfl, rfl, by rintro ⟨⟩⟩
  · cases hr
    refine ⟨rfl, rfl, rfl, rfl, rfl, ?_⟩
    split <;> rintro ⟨⟩
  · split at hr <;> cases hr <;> exact ⟨rfl, rfl, rfl, rfl, rfl, by rintro ⟨⟩⟩
  · cases hr
    exact ⟨rfl, rfl, rfl, rfl, rfl, by rintro ⟨⟩⟩
  · cases hr
    exact ⟨rfl, rfl, rfl, rfl, rfl, by rintro ⟨⟩⟩
  · cases hr
    refine ⟨rfl, rfl, rfl, rfl, rfl, ?_⟩
    split <;> rintro ⟨⟩
  · cases hr
    refine ⟨rfl, rfl, rfl, rfl, rfl, ?_⟩
    split <;> rintro ⟨⟩
  · cases hr
    obtain ⟨hlock, hdaemonLock, hfile, hdaemon, hsdk, -⟩ := removeMarker_locks s x marker
    exact ⟨hlock, hdaemonLock, hfile, hdaemon, hsdk, by rintro ⟨⟩⟩
  · cases hr
    exact ⟨rfl, rfl, rfl, rfl, rfl, by rintro ⟨⟩⟩
  · cases hr
    exact ⟨rfl, rfl, rfl, rfl, rfl, by rintro ⟨⟩⟩
  · rename_i processed
    cases hr
    refine ⟨rfl, rfl, rfl, rfl, rfl, ?_⟩
    cases processed <;> cases guarded <;> simp
  · split at hr
    · cases hr
      exact ⟨rfl, rfl, rfl, rfl, rfl, by rintro ⟨⟩⟩
    · split at hr
      · split at hr
        · cases hr
          refine ⟨rfl, rfl, rfl, rfl, rfl, ?_⟩
          split <;> rintro ⟨⟩
        · cases hr
          exact ⟨rfl, rfl, rfl, rfl, rfl, by rintro ⟨⟩⟩
      · cases hr
        refine ⟨rfl, rfl, rfl, rfl, rfl, ?_⟩
        split <;> rintro ⟨⟩
  · cases hr
    exact ⟨rfl, rfl, rfl, rfl, rfl, by rintro ⟨⟩⟩
  · cases hr
    exact ⟨rfl, rfl, rfl, rfl, rfl, by rintro ⟨⟩⟩
  · cases hr
    refine ⟨rfl, rfl, rfl, rfl, rfl, ?_⟩
    cases guarded <;> simp
  · exact absurd rfl hstage

theorem stage_locks {ok : Bool} {marker : Option File} {s' : State} {sessions' : List File} {next : Option Stage}
    (h : Locks s) (hp : s.sdk p = .old own rest sessions x guarded stage)
    (hr : stageStep s sessions x guarded ok marker stage = (s', sessions', next)) :
    Locks (s'.to p (resume own rest sessions' x guarded next)) := by
  by_cases hstage : stage = .unlockDaemon
  · subst hstage
    cases hr
    exact h.unguard hp
  · obtain ⟨hlock, hdaemonLock, hfile, hdaemon, hsdk, hfrees⟩ := stageStep_locks hr hstage
    refine h.move (?_ : _ = Function.update s.sdk p (resume own rest sessions' x guarded next)) hlock hdaemonLock hfile
      hdaemon ?_ ?_ ?_ ?_ ?_ ?_
    · unfold State.to
      rw [hsdk]
    · intro r hr
      have hown : r = own := by cases next <;> (cases hr; rfl)
      rw [hown]
      exact h.own p own (by rw [hp]; rfl)
    · intro r hr
      have hx : r = x := by cases next <;> (cases hr; rfl)
      rw [hx]
      exact h.visits p x (by rw [hp]; rfl)
    · intro r hr
      have hx : r = x := by cases next <;> (cases hr; rfl)
      have hapart := h.apart p x (by rw [hp]; rfl)
      rw [hp] at hapart
      rw [hx]
      cases next <;> exact hapart
    · intro r hr
      cases next with
      | none => cases hr
      | some st =>
        cases guarded with
        | false => cases hr
        | true =>
          cases hr
          exact h.guards p x (by rw [hp]; rfl)
    · intro r hr
      cases next with
      | none => cases hr
      | some st =>
        cases st with
        | unlockDaemon =>
          cases hr
          rw [hfrees rfl]
          rfl
        | _ => cases hr
    · intro r d hr
      cases next with
      | none => cases hr
      | some st =>
        cases guarded with
        | true => cases hr
        | false =>
          cases hr
          exact h.exposes p x d (by rw [hp]; rfl)

end

/-! ## Steps -/

structure Inv (s : State) : Prop where
  locks : Locks s
  takes : Takes s

section

variable {s s' : State} {p d : Nat} {pc : Pc}

/-- A process moves on outside a directory, with the locks and the sessions it has. -/
theorem Inv.to (h : Inv s) (hown : ∀ r, pc.own = some r → s.lock r = some p)
    (hvisits : ∀ x, pc.visits = some x → s.lock x = some p) (hapart : ∀ x, pc.target = some x → pc.own ≠ some x)
    (hguards : ∀ x, pc.guards = some x → s.daemonLock x = some (.sdk p)) (hfrees : pc.frees = none)
    (hexposes : ∀ x d, pc.exposes = some x → s.daemonLock x ≠ some (.daemon d))
    (hsessions : pc.sessions = (s.sdk p).sessions) (hreads : pc.reads = none) (hremoves : (s.sdk p).removes = none) :
    Inv (s.to p pc) := by
  refine ⟨h.locks.move rfl rfl rfl rfl rfl hown hvisits hapart hguards ?_ hexposes,
    h.takes.pass h.locks rfl rfl rfl (fun _ _ hf => hf) hsessions ?_ ?_⟩
  · intro x hx
    rw [hfrees] at hx
    cases hx
  · intro f hf
    rw [hreads] at hf
    cases hf
  · intro r f _ hf
    rw [hremoves] at hf
    cases hf

theorem Pc.idle_of_visits (h : pc.visits = none) :
    pc.guards = none ∧ pc.frees = none ∧ pc.exposes = none ∧ pc.reads = none := by
  cases pc with
  | locked own rest sessions x => cases h
  | daemonFile own rest sessions x => cases h
  | old own rest sessions x guarded stage => cases h
  | unlock own rest sessions x => cases h
  | _ => exact ⟨rfl, rfl, rfl, rfl⟩

/-- A process moves on between directories, with its own lock and its sessions. -/
theorem Inv.wander (h : Inv s) (hown : ∀ r, pc.own = some r → s.lock r = some p) (hvisits : pc.visits = none)
    (hapart : ∀ x, pc.target = some x → pc.own ≠ some x) (hsessions : pc.sessions = (s.sdk p).sessions)
    (hremoves : (s.sdk p).removes = none) : Inv (s.to p pc) := by
  obtain ⟨hguards, hfrees, hexposes, hreads⟩ := Pc.idle_of_visits hvisits
  apply h.to hown _ hapart _ hfrees _ hsessions hreads hremoves
  · intro x hx
    rw [hvisits] at hx
    cases hx
  · intro x hx
    rw [hguards] at hx
    cases hx
  · intro x d hx
    rw [hexposes] at hx
    cases hx

/-- The directories and the files change in a way that takes nothing. -/
theorem Inv.fileStep (h : Inv s) (hsdk : s'.sdk = s.sdk) (hlock : s'.lock = s.lock)
    (hdaemonLock : s'.daemonLock = s.daemonLock) (hfile : s'.daemonFile = s.daemonFile) (hdaemon : s'.daemon = s.daemon)
    (htakes : Takes s') : Inv s' :=
  ⟨h.locks.still hsdk hlock hdaemonLock hfile hdaemon, htakes⟩

theorem Inv.remove (h : Inv s) (x : Run) (f : File) : Inv (s.remove x f) :=
  h.fileStep rfl rfl rfl rfl rfl (h.takes.still rfl rfl rfl fun _ _ hg => (mem_files_remove.1 hg).1)

theorem Inv.write {x : Run} {f : File} (h : Inv s) (hf : f.run = x) (hnew : s.written f = false) :
    Inv (s.writeFile x f) :=
  h.fileStep rfl rfl rfl rfl rfl (h.takes.write hf hnew)

theorem Inv.setDir {x : Run} {files : Option (List File)} (h : Inv s) (hfiles : ∀ f ∈ files.getD [], f ∈ s.files x) :
    Inv (s.setDir x files) := by
  refine h.fileStep rfl rfl rfl rfl rfl ?_
  refine h.takes.still rfl rfl rfl ?_
  intro r f hf
  rw [files_setDir] at hf
  split at hf
  · rename_i hr
    rw [hr]
    exact hfiles f hf
  · exact hf

/-- A process that has no sessions and goes through no directory lets its own lock go. -/
theorem Inv.leave {own : Run} (h : Inv s) (hown : (s.sdk p).own = some own) (hsessions : (s.sdk p).sessions = [])
    (hremoves : (s.sdk p).removes = none) : Inv ((s.setLock own none).to p .out) := by
  have hheld := h.locks.own p own hown
  have hout : Inv (s.to p .out) :=
    h.wander (by rintro r ⟨⟩) rfl (by rintro r ⟨⟩) (by rw [hsessions]; rfl) hremoves
  have hgone : (s.to p .out).sdk p = .out := Function.update_self ..
  refine ⟨hout.locks.relock (p := p) (Or.inr ⟨hheld, ?_, ?_⟩), hout.takes.still rfl rfl rfl fun _ _ hf => hf⟩
  · rw [hgone]
    rintro ⟨⟩
  · rw [hgone]
    rintro ⟨⟩

/-- A process moves on within the directory whose lock it holds. -/
theorem Inv.visit {own x : Run} (h : Inv s) (hown : s.lock own = some p) (hheld : s.lock x = some p)
    (hapart : own ≠ x) (hpcown : pc.own = some own) (hpcvisits : pc.visits = some x) (hpctarget : pc.target = some x)
    (hfrees : pc.frees = none) (hguards : ∀ y, pc.guards = some y → s.daemonLock y = some (.sdk p))
    (hreads : pc.reads = none) (hexposes : ∀ y d, pc.exposes = some y → s.daemonLock y ≠ some (.daemon d))
    (hsessions : pc.sessions = (s.sdk p).sessions)
    (hremoves : (s.sdk p).removes = none) : Inv (s.to p pc) := by
  refine h.to ?_ ?_ ?_ hguards hfrees hexposes hsessions hreads hremoves
  · intro r hr
    rw [hpcown] at hr
    cases hr
    exact hown
  · intro r hr
    rw [hpcvisits] at hr
    cases hr
    exact hheld
  · intro r hr
    rw [hpctarget] at hr
    cases hr
    rw [hpcown]
    rintro ⟨⟩
    exact hapart rfl

theorem sdk_step_inv {a : SdkAct} (hstep : sdkStep s p a = some s') (h : Inv s) : Inv s' := by
  unfold sdkStep at hstep
  split at hstep
  · rename_i r hp
    split at hstep
    · rename_i hnew
      cases hstep
      have hlocks : Locks (s.setLock r (some p)) := h.locks.relock (p := p) (Or.inl hnew.2)
      have hlocked : Inv { s.setLock r (some p) with known := Function.update s.known r true } :=
        ⟨hlocks.still rfl rfl rfl rfl rfl, h.takes.still rfl rfl rfl fun _ _ hf => hf⟩
      refine hlocked.wander ?_ rfl (by rintro x ⟨⟩) ?_ ?_
      · rintro r' ⟨⟩
        exact Function.update_self ..
      · exact (congrArg Pc.sessions hp).symm
      · exact congrArg Pc.removes hp
    · cases hstep
  · rename_i own hp
    cases hstep
    have hdir : Inv (s.setDir own (some (s.files own))) := h.setDir fun f hf => hf
    refine hdir.wander ?_ rfl (by rintro x ⟨⟩) (congrArg Pc.sessions hp).symm (congrArg Pc.removes hp)
    rintro r ⟨⟩
    exact h.locks.own p own (congrArg Pc.own hp)
  · split at hstep
    · rename_i hnew
      cases hstep
      exact h.write hnew.1 hnew.2
    · cases hstep
  · cases hstep
    exact h.remove _ _
  · rename_i own removes hp
    cases hstep
    have hdir : Inv (if removes then s.setDir own none else s) := by
      cases removes with
      | true => exact h.setDir (by rintro f ⟨⟩)
      | false => exact h
    have hsame : (if removes then s.setDir own none else s).sdk = s.sdk ∧
        (if removes then s.setDir own none else s).lock = s.lock := by
      cases removes <;> exact ⟨rfl, rfl⟩
    refine hdir.wander ?_ rfl (by rintro x ⟨⟩) ?_ ?_
    · rintro r ⟨⟩
      rw [hsame.2]
      exact h.locks.own p own (congrArg Pc.own hp)
    · rw [hsame.1, hp]
      rfl
    · rw [hsame.1, hp]
      rfl
  · rename_i own hp
    cases hstep
    exact h.leave (congrArg Pc.own hp) (congrArg Pc.sessions hp) (congrArg Pc.removes hp)
  · rename_i own hp
    cases hstep
    exact h.leave (congrArg Pc.own hp) (congrArg Pc.sessions hp) (congrArg Pc.removes hp)
  · rename_i own hp
    cases hstep
    exact h.leave (congrArg Pc.own hp) (congrArg Pc.sessions hp) (congrArg Pc.removes hp)
  · rename_i own hp
    cases hstep
    exact h.leave (congrArg Pc.own hp) (congrArg Pc.sessions hp) (congrArg Pc.removes hp)
  · rename_i own runs hp
    split at hstep
    · cases hstep
      refine h.wander ?_ rfl (by rintro x ⟨⟩) (congrArg Pc.sessions hp).symm (congrArg Pc.removes hp)
      rintro r ⟨⟩
      exact h.locks.own p own (congrArg Pc.own hp)
    · cases hstep
  · rename_i own x rest sessions hp
    cases hstep
    have hown : s.lock own = some p := h.locks.own p own (congrArg Pc.own hp)
    split
    · rename_i hfound
      refine h.wander (by rintro r ⟨⟩; exact hown) rfl ?_ (congrArg Pc.sessions hp).symm (congrArg Pc.removes hp)
      rintro r ⟨⟩ ⟨⟩
      exact hfound.2 rfl
    · exact h.wander (by rintro r ⟨⟩; exact hown) rfl (by rintro r ⟨⟩) (congrArg Pc.sessions hp).symm
        (congrArg Pc.removes hp)
  · rename_i own rest sessions x hp
    have hown : s.lock own = some p := h.locks.own p own (congrArg Pc.own hp)
    have hapart : own ≠ x := by
      rintro rfl
      exact h.locks.apart p own (congrArg Pc.target hp) (congrArg Pc.own hp)
    split at hstep
    · rename_i hfree
      cases hstep
      have hlocked : Inv (s.setLock x (some p)) :=
        ⟨h.locks.relock (p := p) (Or.inl hfree), h.takes.still rfl rfl rfl fun _ _ hf => hf⟩
      apply hlocked.to
      · rintro r ⟨⟩
        exact (Function.update_of_ne hapart _ _).trans hown
      · rintro r ⟨⟩
        exact Function.update_self ..
      · rintro r ⟨⟩ ⟨⟩
        exact hapart rfl
      · rintro r ⟨⟩
      · rfl
      · rintro r d ⟨⟩
      · exact (congrArg Pc.sessions hp).symm
      · rfl
      · exact congrArg Pc.removes hp
    · cases hstep
      exact h.wander (by rintro r ⟨⟩; exact hown) rfl (by rintro r ⟨⟩) (congrArg Pc.sessions hp).symm
        (congrArg Pc.removes hp)
  · rename_i own rest sessions x hp
    cases hstep
    have hown : s.lock own = some p := h.locks.own p own (congrArg Pc.own hp)
    have hheld : s.lock x = some p := h.locks.visits p x (congrArg Pc.visits hp)
    have hapart : own ≠ x := by
      rintro rfl
      exact h.locks.apart p own (congrArg Pc.target hp) (congrArg Pc.own hp)
    split
    · exact h.visit hown hheld hapart rfl rfl rfl rfl (by rintro r ⟨⟩) rfl (by rintro r d ⟨⟩)
        (congrArg Pc.sessions hp).symm (congrArg Pc.removes hp)
    · rename_i hnone
      refine h.visit hown hheld hapart rfl rfl rfl rfl (by rintro r ⟨⟩) rfl ?_ (congrArg Pc.sessions hp).symm
        (congrArg Pc.removes hp)
      rintro r d ⟨⟩ hd
      exact hnone (h.locks.file x (by rw [hd]; rintro ⟨⟩))
  · rename_i own rest sessions x hp
    have hown : s.lock own = some p := h.locks.own p own (congrArg Pc.own hp)
    have hheld : s.lock x = some p := h.locks.visits p x (congrArg Pc.visits hp)
    have hapart : own ≠ x := by
      rintro rfl
      exact h.locks.apart p own (congrArg Pc.target hp) (congrArg Pc.own hp)
    split at hstep
    · rename_i hfree
      cases hstep
      have hlocks : Locks (s.setDaemonLock x (some (.sdk p))) := by
        refine h.locks.take hfree ?_
        rintro d q ⟨⟩
      have hlocked : Inv (s.setDaemonLock x (some (.sdk p))) := ⟨hlocks, h.takes.still rfl rfl rfl fun _ _ hf => hf⟩
      refine hlocked.visit hown hheld hapart rfl rfl rfl rfl ?_ rfl (by rintro r d ⟨⟩) (congrArg Pc.sessions hp).symm
        (congrArg Pc.removes hp)
      rintro r ⟨⟩
      exact Function.update_self ..
    · cases hstep
      exact h.visit hown hheld hapart rfl rfl rfl rfl (by rintro r ⟨⟩) rfl (by rintro r d ⟨⟩)
        (congrArg Pc.sessions hp).symm (congrArg Pc.removes hp)
  · rename_i own rest sessions x guarded stage ok marker hp
    have htakes := stage_takes ok marker h.takes h.locks hp
    cases hr : stageStep s sessions x guarded ok marker stage with
    | mk t next =>
      obtain ⟨sessions', next⟩ := next
      have hlocks := stage_locks h.locks hp hr
      simp only [hr] at hstep htakes
      cases hstep
      cases next <;> exact ⟨hlocks, htakes⟩
  · rename_i own rest sessions x hp
    cases hstep
    have hheld : s.lock x = some p := h.locks.visits p x (congrArg Pc.visits hp)
    have hapart : own ≠ x := by
      rintro rfl
      exact h.locks.apart p own (congrArg Pc.target hp) (congrArg Pc.own hp)
    have hnext : Inv (s.to p (.next own rest sessions)) := by
      refine h.wander ?_ rfl (by rintro r ⟨⟩) (congrArg Pc.sessions hp).symm (congrArg Pc.removes hp)
      rintro r ⟨⟩
      exact h.locks.own p own (congrArg Pc.own hp)
    have hpc : (s.to p (.next own rest sessions)).sdk p = .next own rest sessions := Function.update_self ..
    refine ⟨hnext.locks.relock (p := p) (Or.inr ⟨hheld, ?_, ?_⟩), hnext.takes.still rfl rfl rfl fun _ _ hf => hf⟩
    · rw [hpc]
      rintro ⟨⟩
      exact hapart rfl
    · rw [hpc]
      rintro ⟨⟩
  · rename_i own sessions hp
    cases hstep
    have hrunning : Locks ({ s with captured := s.captured ++ sessions }.to p (.running own)) := by
      refine h.locks.move rfl rfl rfl rfl rfl ?_ (by rintro r ⟨⟩) (by rintro r ⟨⟩) (by rintro r ⟨⟩) (by rintro r ⟨⟩)
        (by rintro r d ⟨⟩)
      rintro r ⟨⟩
      exact h.locks.own p own (congrArg Pc.own hp)
    refine ⟨hrunning, h.takes.flush h.locks rfl ?_ rfl rfl rfl rfl ?_⟩
    · rw [hp]
      rfl
    · intro f hf
      rw [hp] at hf
      cases hf
  · cases hstep

theorem daemon_step_inv {a : DaemonAct} (hstep : daemonStep s d a = some s')
    (htimely : ∀ x, a = .adopt x → ∀ q, (s.sdk q).exposes ≠ some x) (h : Inv s) : Inv s' := by
  unfold daemonStep at hstep
  split at hstep
  · rename_i x hd
    split at hstep
    · rename_i hfree
      cases hstep
      have hlocks : Locks (s.setDaemonLock x (some (.daemon d))) :=
        h.locks.take hfree.2 fun _ q _ => htimely x rfl q
      refine ⟨hlocks.daemonMove ?_, h.takes.still rfl rfl rfl fun _ _ hf => hf⟩
      rintro y (⟨⟨⟩⟩ | ⟨⟨⟩⟩)
      exact Function.update_self ..
    · cases hstep
  · rename_i x hd
    cases hstep
    have hdir : Inv (s.setDir x (some (s.files x))) := h.setDir fun f hf => hf
    refine ⟨hdir.locks.daemonMove ?_, hdir.takes.still rfl rfl rfl fun _ _ hf => hf⟩
    rintro y (⟨⟨⟩⟩ | ⟨⟨⟩⟩)
    exact h.locks.daemon d x (Or.inl hd)
  · split at hstep
    · rename_i hnew
      cases hstep
      exact h.write hnew.1 hnew.2
    · cases hstep
  · cases hstep
    exact h.remove _ _
  · rename_i x hd
    cases hstep
    refine ⟨h.locks.release (Or.inr hd) ?_, h.takes.still rfl rfl rfl fun _ _ hf => hf⟩
    intro y hne
    exact Function.update_of_ne hne _ _
  · rename_i x hd
    cases hstep
    exact ⟨h.locks.release (Or.inl hd) fun _ _ => rfl, h.takes.still rfl rfl rfl fun _ _ hf => hf⟩
  · rename_i x hd
    cases hstep
    exact ⟨h.locks.release (Or.inr hd) fun _ _ => rfl, h.takes.still rfl rfl rfl fun _ _ hf => hf⟩
  · cases hstep

end

end SentryNative.OldRuns
