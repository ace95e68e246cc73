import SentryNative.Run.OldRunsSteps

/-!
# Taking over the runs of others

A directory that exists is of a known run, and nobody gets a run back that another process
goes through: what is captured or removed is of a run nobody uses.
-/

namespace SentryNative.OldRuns

open Machine

section

variable {s s' : State} {p d : Nat} {pc : Pc}

/-! ## Directories of known runs -/

theorem dir_setDir {r x : Run} {files : Option (List File)} (h : ((s.setDir x files).dir r).isSome = true) :
    (s.dir r).isSome = true ∨ r = x ∧ files.isSome = true := by
  by_cases hr : r = x
  · subst hr
    exact Or.inr ⟨rfl, by simpa [State.setDir] using h⟩
  · exact Or.inl (by simpa [State.setDir, hr] using h)

theorem dir_remove {r x : Run} {f : File} (h : ((s.remove x f).dir r).isSome = true) : (s.dir r).isSome = true := by
  obtain hold | ⟨rfl, hnew⟩ := dir_setDir h
  · exact hold
  · simpa using hnew

theorem dir_writeFile {r x : Run} {f : File} (h : ((s.writeFile x f).dir r).isSome = true) :
    (s.dir r).isSome = true := by
  have hdir : ((s.setDir x ((s.dir x).map fun files =>
      (files.filter fun g => ¬ (f.kind = .session ∧ g.kind = .session)) ++ [f])).dir r).isSome = true := h
  obtain hold | ⟨rfl, hnew⟩ := dir_setDir hdir
  · exact hold
  · simpa using hnew

theorem dir_removeMarker {r x : Run} {marker : Option File} (h : ((s.removeMarker x marker).dir r).isSome = true) :
    (s.dir r).isSome = true := by
  unfold State.removeMarker at h
  split at h
  · split at h
    · exact dir_remove h
    · exact h
  · exact h

/-- A step within a directory makes no directory and gives no daemon a lock; a session it
collects is one of the directory. -/
structure StageKeeps (s : State) (sessions : List File) (x : Run) (s' : State) (sessions' : List File) : Prop where
  known : s'.known = s.known
  daemon : s'.daemon = s.daemon
  sdk : s'.sdk = s.sdk
  dir : ∀ r, (s'.dir r).isSome = true → (s.dir r).isSome = true
  daemonLock : ∀ r d, s'.daemonLock r = some (.daemon d) → s.daemonLock r = some (.daemon d)
  sessions : ∀ f ∈ sessions', f ∈ sessions ∨ f ∈ s.files x

theorem StageKeeps.same (s : State) (sessions : List File) (x : Run) : StageKeeps s sessions x s sessions :=
  ⟨rfl, rfl, rfl, fun _ h => h, fun _ _ h => h, fun _ h => Or.inl h⟩

theorem StageKeeps.removed (s : State) (sessions : List File) (x : Run) (f : File) :
    StageKeeps s sessions x (s.remove x f) sessions :=
  ⟨rfl, rfl, rfl, fun _ h => dir_remove h, fun _ _ h => h, fun _ h => Or.inl h⟩

theorem stageStep_keeps {sessions sessions' : List File} {x : Run} {guarded ok : Bool} {marker : Option File}
    {stage : Stage} {next : Option Stage}
    (hr : stageStep s sessions x guarded ok marker stage = (s', sessions', next)) :
    StageKeeps s sessions x s' sessions' := by
  have hsame := StageKeeps.same s sessions x
  unfold stageStep at hr
  split at hr
  · cases hr
    exact hsame
  · cases hr
    exact hsame
  · cases hr
    exact hsame
  · split at hr <;> cases hr
    · exact .removed s sessions x _
    · exact hsame
  · cases hr
    exact hsame
  · cases hr
    exact hsame
  · cases hr
    exact hsame
  · cases hr
    exact hsame
  · cases hr
    obtain ⟨-, hdaemonLock, -, hdaemon, hsdk, -⟩ := removeMarker_locks s x marker
    refine ⟨?_, hdaemon, hsdk, fun r h => dir_removeMarker h, ?_, fun f hf => Or.inl hf⟩
    · unfold State.removeMarker
      split
      · split <;> rfl
      · rfl
    · intro r d hd
      rw [← hdaemonLock]
      exact hd
  · cases hr
    exact .removed s sessions x _
  · cases hr
    exact hsame
  · cases hr
    exact hsame
  · split at hr
    · cases hr
      exact hsame
    · split at hr
      · split at hr
        · rename_i hread
          cases hr
          refine ⟨rfl, rfl, rfl, fun _ h => h, fun _ _ h => h, ?_⟩
          intro f hf
          obtain hf | hf := List.mem_append.1 hf
          · exact Or.inl hf
          · rw [List.mem_singleton.1 hf]
            exact Or.inr hread.1
        · cases hr
          exact hsame
      · cases hr
        exact hsame
  · cases hr
    exact ⟨rfl, rfl, rfl, fun _ h => h, fun _ _ h => h, by rintro f ⟨⟩⟩
  · cases hr
    exact .removed s sessions x _
  · cases hr
    refine ⟨rfl, rfl, rfl, ?_, fun _ _ h => h, fun _ h => Or.inl h⟩
    intro r h
    obtain hold | ⟨-, hnone⟩ := dir_setDir h
    · exact hold
    · cases hnone
  · cases hr
    refine ⟨rfl, rfl, rfl, fun _ h => h, ?_, fun _ h => Or.inl h⟩
    intro r d hd
    by_cases hrx : r = x
    · subst hrx
      simp [State.setDaemonLock] at hd
    · simpa [State.setDaemonLock, hrx] using hd

/-- A process moves on with its own run, in a state with the same locks of daemons. -/
theorem Settled.pass (h : Settled s) (hsdk : s'.sdk = Function.update s.sdk p pc) (hknown : s'.known = s.known)
    (hdir : ∀ r, (s'.dir r).isSome = true → s.known r = true) (hdaemon : s'.daemon = s.daemon)
    (hdaemonLock : s'.daemonLock = s.daemonLock) (hown : ∀ r, pc.own = some r → (s.sdk p).own = some r)
    (htarget : ∀ x, pc.target = some x → s.known x = true) (hsessions : ∀ f ∈ pc.sessions, f ∈ (s.sdk p).sessions) :
    Settled s' := by
  refine h.move hsdk ?_ ?_ hdaemon ?_ ?_ ?_ fun f hf => Or.inl (hsessions f hf)
  · rw [hknown]
    exact fun _ hr => hr
  · rw [hknown]
    exact hdir
  · rw [hdaemonLock]
    exact fun _ _ hd => hd
  · intro r hr
    rw [hknown]
    exact ⟨h.own p r (hown r hr), Or.inl (hown r hr)⟩
  · rw [hknown]
    exact htarget

theorem Settled.fileStep (h : Settled s) (hsdk : s'.sdk = s.sdk) (hknown : s'.known = s.known)
    (hdir : ∀ r, (s'.dir r).isSome = true → s.known r = true) (hdaemon : s'.daemon = s.daemon)
    (hdaemonLock : s'.daemonLock = s.daemonLock) : Settled s' := by
  refine ⟨?_, ?_, ?_, ?_, ?_⟩
  · rw [hknown]
    exact hdir
  · rw [hsdk, hknown]
    exact h.own
  · rw [hsdk, hknown]
    exact h.target
  · rw [hdaemon, hknown]
    exact h.daemon
  · intro q f hf
    rw [hsdk] at hf
    have hfree := h.sessions q f hf
    exact ⟨by rw [hknown]; exact hfree.known, by rw [hsdk]; exact hfree.own, by rw [hdaemonLock]; exact hfree.daemon⟩

theorem stage_settled {own x : Run} {rest : List Run} {sessions sessions' : List File} {guarded : Bool} {stage : Stage}
    (h : Settled s) (hi : Inv s) (hp : s.sdk p = .old own rest sessions x guarded stage) (hfree : Ownerless s x)
    (hkeeps : StageKeeps s sessions x s' sessions') (next : Option Stage) :
    Settled (s'.to p (resume own rest sessions' x guarded next)) := by
  have hmono : ∀ r, s.known r = true → s'.known r = true := by
    rw [hkeeps.known]
    exact fun _ hr => hr
  refine h.move (?_ : _ = Function.update s.sdk p (resume own rest sessions' x guarded next)) hmono
    (fun r hr => hmono r (h.dir r (hkeeps.dir r hr))) hkeeps.daemon hkeeps.daemonLock ?_ ?_ ?_
  · unfold State.to
    rw [hkeeps.sdk]
  · intro r hr
    have hown : r = own := by cases next <;> (cases hr; rfl)
    rw [hown]
    exact ⟨hmono own (h.own p own (congrArg Pc.own hp)), Or.inl (congrArg Pc.own hp)⟩
  · intro y hy
    have hyx : y = x := by cases next <;> (cases hy; rfl)
    rw [hyx]
    exact hmono x hfree.known
  · intro f hf
    have hmem : f ∈ sessions' := by cases next <;> exact hf
    obtain hold | hnew := hkeeps.sessions f hmem
    · rw [hp]
      exact Or.inl hold
    · rw [(hi.takes.home x f hnew).1]
      exact Or.inr hfree

theorem sdk_step_settled {a : SdkAct} (hstep : sdkStep s p a = some s') (hi : Inv s) (h : Settled s) : Settled s' := by
  unfold sdkStep at hstep
  split at hstep
  · rename_i r hp
    split at hstep
    · rename_i hnew
      cases hstep
      have hmono : ∀ r', s.known r' = true → Function.update s.known r true r' = true := by
        intro r' hr'
        obtain hsame | ⟨-, hup⟩ := update_cases s.known r true r'
        · rw [hsame, hr']
        · exact hup
      refine h.move rfl hmono (fun r' hr' => hmono r' (h.dir r' hr')) rfl (fun _ _ hd => hd) ?_ (by rintro x ⟨⟩)
        (by rintro f ⟨⟩)
      rintro r' ⟨⟩
      exact ⟨Function.update_self .., Or.inr hnew.1⟩
    · cases hstep
  · rename_i own hp
    cases hstep
    refine h.pass rfl rfl ?_ rfl rfl (by rintro r ⟨⟩; exact congrArg Pc.own hp) (by rintro x ⟨⟩) (by rintro f ⟨⟩)
    intro r hr
    obtain hold | ⟨rfl, -⟩ := dir_setDir hr
    · exact h.dir r hold
    · exact h.own p r (congrArg Pc.own hp)
  · split at hstep
    · cases hstep
      exact h.fileStep rfl rfl (fun r hr => h.dir r (dir_writeFile hr)) rfl rfl
    · cases hstep
  · cases hstep
    exact h.fileStep rfl rfl (fun r hr => h.dir r (dir_remove hr)) rfl rfl
  · rename_i own removes hp
    cases hstep
    cases removes with
    | true =>
      refine h.pass rfl rfl ?_ rfl rfl (by rintro r ⟨⟩; exact congrArg Pc.own hp) (by rintro x ⟨⟩) (by rintro f ⟨⟩)
      intro r hr
      obtain hold | ⟨-, hnone⟩ := dir_setDir hr
      · exact h.dir r hold
      · cases hnone
    | false =>
      exact h.pass rfl rfl h.dir rfl rfl (by rintro r ⟨⟩; exact congrArg Pc.own hp) (by rintro x ⟨⟩) (by rintro f ⟨⟩)
  · cases hstep
    exact h.pass rfl rfl h.dir rfl rfl (by rintro r ⟨⟩) (by rintro x ⟨⟩) (by rintro f ⟨⟩)
  · cases hstep
    exact h.pass rfl rfl h.dir rfl rfl (by rintro r ⟨⟩) (by rintro x ⟨⟩) (by rintro f ⟨⟩)
  · cases hstep
    exact h.pass rfl rfl h.dir rfl rfl (by rintro r ⟨⟩) (by rintro x ⟨⟩) (by rintro f ⟨⟩)
  · cases hstep
    exact h.pass rfl rfl h.dir rfl rfl (by rintro r ⟨⟩) (by rintro x ⟨⟩) (by rintro f ⟨⟩)
  · rename_i own runs hp
    split at hstep
    · cases hstep
      exact h.pass rfl rfl h.dir rfl rfl (by rintro r ⟨⟩; exact congrArg Pc.own hp) (by rintro x ⟨⟩) (by rintro f ⟨⟩)
    · cases hstep
  · rename_i own x rest sessions hp
    cases hstep
    have hss : (s.sdk p).sessions = sessions := congrArg Pc.sessions hp
    split
    · rename_i hfound
      refine h.pass rfl rfl h.dir rfl rfl (by rintro r ⟨⟩; exact congrArg Pc.own hp) ?_ (by rw [hss]; exact fun _ hf => hf)
      rintro y ⟨⟩
      exact h.dir x hfound.1
    · exact h.pass rfl rfl h.dir rfl rfl (by rintro r ⟨⟩; exact congrArg Pc.own hp) (by rintro x ⟨⟩)
        (by rw [hss]; exact fun _ hf => hf)
  · rename_i own rest sessions x hp
    have hss : (s.sdk p).sessions = sessions := congrArg Pc.sessions hp
    split at hstep
    · cases hstep
      refine h.pass rfl rfl h.dir rfl rfl (by rintro r ⟨⟩; exact congrArg Pc.own hp) ?_ (by rw [hss]; exact fun _ hf => hf)
      rintro y ⟨⟩
      exact h.target p x (congrArg Pc.target hp)
    · cases hstep
      exact h.pass rfl rfl h.dir rfl rfl (by rintro r ⟨⟩; exact congrArg Pc.own hp) (by rintro x ⟨⟩)
        (by rw [hss]; exact fun _ hf => hf)
  · rename_i own rest sessions x hp
    cases hstep
    have hss : (s.sdk p).sessions = sessions := congrArg Pc.sessions hp
    have hx : s.known x = true := h.target p x (congrArg Pc.target hp)
    split <;> exact h.pass rfl rfl h.dir rfl rfl (by rintro r ⟨⟩; exact congrArg Pc.own hp)
      (by rintro y ⟨⟩; exact hx) (by rw [hss]; exact fun _ hf => hf)
  · rename_i own rest sessions x hp
    have hss : (s.sdk p).sessions = sessions := congrArg Pc.sessions hp
    have hx : s.known x = true := h.target p x (congrArg Pc.target hp)
    split at hstep
    · cases hstep
      refine h.move rfl (fun _ hr => hr) h.dir rfl ?_ ?_ (by rintro y ⟨⟩; exact hx)
        (by rw [hss]; exact fun _ hf => Or.inl hf)
      · intro r d hd
        change Function.update s.daemonLock x (some (.sdk p)) r = _ at hd
        obtain hsame | ⟨rfl, hup⟩ := update_cases s.daemonLock x (some (.sdk p)) r
        · rwa [hsame] at hd
        · rw [hup] at hd
          cases hd
      · rintro r ⟨⟩
        exact ⟨h.own p own (congrArg Pc.own hp), Or.inl (congrArg Pc.own hp)⟩
    · cases hstep
      exact h.pass rfl rfl h.dir rfl rfl (by rintro r ⟨⟩; exact congrArg Pc.own hp) (by rintro y ⟨⟩; exact hx)
        (by rw [hss]; exact fun _ hf => hf)
  · rename_i own rest sessions x guarded stage ok marker hp
    have hfree : Ownerless s x := by
      apply h.visited hi.locks (congrArg Pc.visits hp) (congrArg Pc.target hp)
      rw [hp]
      cases guarded
      · exact Or.inr rfl
      · exact Or.inl rfl
    cases hr : stageStep s sessions x guarded ok marker stage with
    | mk t next =>
      obtain ⟨sessions', next⟩ := next
      have hsettled := stage_settled h hi hp hfree (stageStep_keeps hr) next
      simp only [hr] at hstep
      cases hstep
      cases next <;> exact hsettled
  · rename_i own rest sessions x hp
    cases hstep
    have hss : (s.sdk p).sessions = sessions := congrArg Pc.sessions hp
    exact h.pass rfl rfl h.dir rfl rfl (by rintro r ⟨⟩; exact congrArg Pc.own hp) (by rintro y ⟨⟩)
      (by rw [hss]; exact fun _ hf => hf)
  · rename_i own sessions hp
    cases hstep
    exact h.pass rfl rfl h.dir rfl rfl (by rintro r ⟨⟩; exact congrArg Pc.own hp) (by rintro y ⟨⟩) (by rintro f ⟨⟩)
  · cases hstep

theorem daemon_step_settled {a : DaemonAct} (hstep : daemonStep s d a = some s')
    (htimely : ∀ x, a = .adopt x → ∀ q, ∀ f ∈ (s.sdk q).sessions, f.run ≠ x) (h : Settled s) : Settled s' := by
  have hreleased : ∀ x r e, Function.update s.daemonLock x none r = some (.daemon e) →
      s.daemonLock r = some (.daemon e) ∨ ∀ q, ∀ f ∈ (s.sdk q).sessions, f.run ≠ r := by
    intro x r e he
    obtain hsame | ⟨-, hup⟩ := update_cases s.daemonLock x none r
    · rw [hsame] at he
      exact Or.inl he
    · rw [hup] at he
      cases he
  unfold daemonStep at hstep
  split at hstep
  · rename_i x hd
    split at hstep
    · rename_i hfree
      cases hstep
      refine h.daemonMove rfl rfl rfl h.dir ?_ ?_
      · rintro y (⟨⟨⟩⟩ | ⟨⟨⟩⟩)
        exact hfree.1
      · intro r e he
        change Function.update s.daemonLock x (some (.daemon d)) r = _ at he
        obtain hsame | ⟨rfl, -⟩ := update_cases s.daemonLock x (some (.daemon d)) r
        · rw [hsame] at he
          exact Or.inl he
        · exact Or.inr (htimely r rfl)
    · cases hstep
  · rename_i x hd
    cases hstep
    refine h.daemonMove rfl rfl rfl ?_ ?_ fun _ _ he => Or.inl he
    · intro r hr
      obtain hold | ⟨rfl, -⟩ := dir_setDir hr
      · exact h.dir r hold
      · exact h.daemon d r (Or.inl hd)
    · rintro y (⟨⟨⟩⟩ | ⟨⟨⟩⟩)
      exact h.daemon d x (Or.inl hd)
  · split at hstep
    · cases hstep
      exact h.fileStep rfl rfl (fun r hr => h.dir r (dir_writeFile hr)) rfl rfl
    · cases hstep
  · cases hstep
    exact h.fileStep rfl rfl (fun r hr => h.dir r (dir_remove hr)) rfl rfl
  · rename_i x hd
    cases hstep
    exact h.daemonMove rfl rfl rfl h.dir (by rintro y (⟨⟨⟩⟩ | ⟨⟨⟩⟩)) (hreleased x)
  · rename_i x hd
    cases hstep
    exact h.daemonMove rfl rfl rfl h.dir (by rintro y (⟨⟨⟩⟩ | ⟨⟨⟩⟩)) (hreleased x)
  · rename_i x hd
    cases hstep
    exact h.daemonMove rfl rfl rfl h.dir (by rintro y (⟨⟨⟩⟩ | ⟨⟨⟩⟩)) (hreleased x)
  · cases hstep

end

/-! ## Runs -/

structure Orderly (s : State) : Prop where
  inv : Inv s
  settled : Settled s

theorem Start.orderly {s : State} (h : Start s) : Orderly s := by
  have hout : ∀ {α : Type} (g : Pc → Option α) (hg : g .out = none) p a, g (s.sdk p) = some a → False := by
    intro α g hg p a ha
    rw [h.sdk, hg] at ha
    cases ha
  have hsessions : ∀ p f, f ∈ (s.sdk p).sessions → False := by
    intro p f hf
    rw [h.sdk] at hf
    cases hf
  have htaken : ∀ f, ¬ Taken s f := by
    rintro f (hf | ⟨p, hf⟩)
    · rw [h.captured] at hf
      cases hf
    · exact hsessions p f hf
  have hdaemon : ∀ d x, ¬ (s.daemon d = .locked x ∨ s.daemon d = .adopted x) := by
    intro d x hd
    rw [h.daemon] at hd
    rcases hd with hd | hd <;> cases hd
  refine ⟨⟨⟨?_, ?_, ?_, ?_, ?_, ?_, ?_, ?_⟩, ⟨h.written, ⟨?_, ?_, ?_, ?_⟩, ?_, ?_, ?_⟩⟩, ⟨h.known, ?_, ?_, ?_, ?_⟩⟩
  · exact fun p r hr => (hout Pc.own rfl p r hr).elim
  · exact fun p r hr => (hout Pc.visits rfl p r hr).elim
  · exact fun p r hr => (hout Pc.target rfl p r hr).elim
  · exact fun p r hr => (hout Pc.guards rfl p r hr).elim
  · exact fun p r hr => (hout Pc.frees rfl p r hr).elim
  · exact fun p r d hr => (hout Pc.exposes rfl p r hr).elim
  · exact fun x hx => absurd (h.daemonLock x) hx
  · exact fun d x hd => (hdaemon d x hd).elim
  · rw [h.captured]
    exact List.nodup_nil
  · intro p
    rw [h.sdk]
    exact List.nodup_nil
  · exact fun p f hf => (hsessions p f hf).elim
  · exact fun p q _ f hf => (hsessions p f hf).elim
  · exact fun f hf => (htaken f hf).elim
  · exact fun r f _ hf => (htaken f hf).elim
  · exact fun p f hf => (hout Pc.reads rfl p f hf).elim
  · exact fun p r hr => (hout Pc.own rfl p r hr).elim
  · exact fun p r hr => (hout Pc.target rfl p r hr).elim
  · exact fun d x hd => (hdaemon d x hd).elim
  · exact fun p f hf => (hsessions p f hf).elim

theorem TimelyStep.orderly {s t : State} (hstep : TimelyStep s t) (h : Orderly s) : Orderly t := by
  obtain ⟨a, htimely, hstep⟩ := hstep
  cases a with
  | sdk p a => exact ⟨sdk_step_inv hstep h.inv, sdk_step_settled hstep h.inv h.settled⟩
  | daemon d a =>
    refine ⟨daemon_step_inv hstep ?_ h.inv, daemon_step_settled hstep ?_ h.settled⟩
    · rintro x rfl q hq
      exact htimely ⟨d, x, q, rfl, Or.inl hq⟩
    · rintro x rfl q f hf hx
      exact htimely ⟨d, x, q, rfl, Or.inr ⟨f, hf, hx⟩⟩

theorem reachable_orderly {s : State} (h : Reachable Start TimelyStep s) : Orderly s :=
  h.invariant (fun _ hs => hs.orderly) fun _ _ hs hstep => hstep.orderly hs

/-- Whatever a process captures or removes is of a run that nobody uses. -/
theorem Orderly.touches {s : State} (h : Orderly s) {p : Nat} {a : SdkAct} {x : Run} (hx : x ∈ touches s p a) :
    Ownerless s x := by
  have hold : ∀ {own rest sessions y guarded stage}, s.sdk p = .old own rest sessions y guarded stage → Ownerless s y := by
    intro own rest sessions y guarded stage hp
    apply h.settled.visited h.inv.locks (congrArg Pc.visits hp) (congrArg Pc.target hp)
    rw [hp]
    cases guarded
    · exact Or.inr rfl
    · exact Or.inl rfl
  have hsessions : ∀ {sessions : List File}, (s.sdk p).sessions = sessions → x ∈ sessions.map File.run →
      Ownerless s x := by
    rintro sessions hss hmem
    obtain ⟨f, hf, rfl⟩ := List.mem_map.1 hmem
    exact h.settled.sessions p f (by rw [hss]; exact hf)
  unfold OldRuns.touches at hx
  split at hx
  · rw [List.mem_singleton.1 hx]
    exact hold ‹_›
  · rw [List.mem_singleton.1 hx]
    exact hold ‹_›
  · rw [List.mem_singleton.1 hx]
    exact hold ‹_›
  · rw [List.mem_singleton.1 hx]
    exact hold ‹_›
  · rename_i hp
    obtain rfl | hx := List.mem_cons.1 hx
    · exact hold hp
    · exact hsessions (congrArg Pc.sessions hp) hx
  · rw [List.mem_singleton.1 hx]
    exact hold ‹_›
  · rw [List.mem_singleton.1 hx]
    exact hold ‹_›
  · rename_i hp
    exact hsessions (congrArg Pc.sessions hp) hx
  · cases hx

/-- In every run in which no daemon adopts a run that a process goes through without the
daemon's lock, or whose session it still has to capture: a file is captured or removed only
while neither the process that created the run nor a daemon has it, never by that process
itself, and no file is captured twice. -/
theorem taken_over_once {s : State} (h : Reachable Start TimelyStep s) :
    (∀ p a x, x ∈ touches s p a → (∀ q, (s.sdk q).own ≠ some x) ∧ ∀ d, s.daemonLock x ≠ some (.daemon d)) ∧
      (∀ q r, (s.sdk q).own = some r → s.lock r = some q) ∧
      (∀ d x, s.daemon d = .locked x ∨ s.daemon d = .adopted x → s.daemonLock x = some (.daemon d)) ∧
      s.captured.Nodup := by
  have hs := reachable_orderly h
  refine ⟨?_, hs.inv.locks.own, hs.inv.locks.daemon, hs.inv.takes.apart.nodup⟩
  intro p a x hx
  have hfree := hs.touches hx
  exact ⟨hfree.own, hfree.daemon⟩

/-- A database directory with nothing in it. -/
def emptyDatabase : State where
  known _ := false
  written _ := false
  dir _ := none
  lock _ := none
  daemonLock _ := none
  daemonFile _ := false
  sdk _ := .out
  daemon _ := .out
  captured := []

theorem emptyDatabase_start : Start emptyDatabase where
  known r hr := by cases hr
  written r f hf := by cases hf
  lock _ := rfl
  daemonLock _ := rfl
  sdk _ := rfl
  daemon _ := rfl
  captured := rfl

/-- The first process leaves an envelope behind, and the second goes for it. -/
def leftBehind : List Act :=
  [.sdk 0 (.create 0), .sdk 0 .makeDir, .sdk 0 (.write ⟨0, 0, .envelope⟩), .sdk 0 .die, .sdk 1 (.create 1),
    .sdk 1 .makeDir, .sdk 1 (.list [1, 0]), .sdk 1 .visit, .sdk 1 .visit, .sdk 1 .tryLock, .sdk 1 .checkDaemon]

/-- The second process reads the envelope. -/
def readsEnvelope : List Act :=
  [.sdk 1 (.stage false none), .sdk 1 (.stage true none), .sdk 1 (.stage true none), .sdk 1 (.stage true none)]

def stepSdk (s : State) (a : Act) : Option State :=
  match a with
  | .sdk p a => sdkStep s p a
  | .daemon _ _ => none

theorem stepSdk_timely {s t : State} {a : Act} (h : stepSdk s a = some t) : TimelyStep s t := by
  cases a with
  | daemon d a => cases h
  | sdk p a =>
    refine ⟨.sdk p a, ?_, h⟩
    rintro ⟨d, x, q, ha, -⟩
    cases ha

/-- The second process is about to capture the envelope, and no daemon has adopted the run. -/
theorem taken_over_once_by_next : ∃ s, touches s 1 (.stage true none) = [0] ∧ ∀ d, s.daemonLock 0 ≠ some (.daemon d) := by
  have hrun : ∃ s, run stepSdk emptyDatabase (leftBehind ++ readsEnvelope) = some s ∧
      touches s 1 (.stage true none) = [0] := ⟨_, rfl, rfl⟩
  obtain ⟨s, hs, htouches⟩ := hrun
  have hreach : Reachable Start TimelyStep s :=
    Reachable.of_run (R := TimelyStep) (fun _ _ _ ht => stepSdk_timely ht) (.start emptyDatabase_start) hs
  refine ⟨s, htouches, ((taken_over_once hreach).1 1 (.stage true none) 0 ?_).2⟩
  rw [htouches]
  exact List.mem_singleton_self 0

/-- The daemon of the first process adopts the run after the second has looked for the file of
its lock. -/
theorem adopted_run_taken_over : ∃ s t, (∃ acts, run step emptyDatabase acts = some s) ∧
    s.daemon 7 = .adopted 0 ∧ s.daemonLock 0 = some (.daemon 7) ∧ touches s 1 (.stage true none) = [0] ∧
    step s (.sdk 1 (.stage true none)) = some t ∧ t.captured = [⟨0, 0, .envelope⟩] :=
  ⟨_, _, ⟨leftBehind ++ [.daemon 7 (.adopt 0), .daemon 7 .makeDir] ++ readsEnvelope, rfl⟩, rfl, rfl, rfl, rfl, rfl⟩

end SentryNative.OldRuns
