import SentryNative.Daemon.Handover

/-!
# What the hand-over keeps

At most one thread gets past the swap of `handling_crash`, so the state word, the context and
the notification are in the hands of that thread until it has notified, and in the daemon's
hands afterwards.
-/

namespace SentryNative.Handover

open Machine

theorem words : READY = 0 ∧ CRASHED = 1 ∧ PROCESSING = 2 ∧ CAPTURED = 4 ∧ DONE = 5 := ⟨rfl, rfl, rfl, rfl, rfl⟩

/-- Not past the swap of `handling_crash`. -/
def Handler.outside : Handler → Bool
  | .idle | .entered => true
  | _ => false

/-- Every field the handler writes holds the thread's data. -/
def Filled (c : Context) (t : Nat) : Prop := ∀ f ∈ fillOrder, c f = some (.thread t)

/-- Nothing is published yet. -/
structure Quiet (s : State) : Prop where
  word : s.shmem.state = READY
  unnotified : s.notifyFd = 0
  unheard : s.heard = false

/-- The crash of the thread is published and the daemon is notified. -/
structure Told (s : State) (t : Nat) : Prop where
  word : CRASHED ≤ s.shmem.state
  filled : s.shmem.state = CRASHED → Filled s.shmem.context t
  calls : ∀ c ∈ s.calls, Filled c t

/-- The swap was made and the notification was not. -/
structure Published (s : State) (t : Nat) : Prop where
  word : s.shmem.state = CRASHED
  filled : Filled s.shmem.context t
  unnotified : s.notifyFd = 0
  unheard : s.heard = false
  unread : s.daemon ≠ .readState ∧ s.daemon ≠ .processing

/-- What holds of the thread that got past the swap of `handling_crash`. -/
def HandlerOk (s : State) (t : Nat) : Handler → Prop
  | .idle | .entered => False
  | .filling rest =>
    Quiet s ∧ ∃ done, fillOrder = done ++ rest ∧ ∀ f ∈ done, s.shmem.context f = some (.thread t)
  | .hooks | .publish => Quiet s ∧ Filled s.shmem.context t
  | .notify => Published s t
  | .waiting _ => Told s t
  | .resumed .notClaimed => False
  | .resumed (.captured v) => Told s t ∧ CAPTURED ≤ v ∧ v ≤ s.shmem.state
  | .resumed (.timedOut elapsed) => Told s t ∧ SENTRY_CRASH_HANDLER_WAIT_TIMEOUT_MS ≤ elapsed

/-- The crash was not looked at. -/
structure Unprocessed (s : State) : Prop where
  unprocessed : s.crashProcessed = false
  calls : s.calls = []
  word : s.shmem.state ≤ CRASHED

def DaemonOk (s : State) : Prop :=
  match s.daemon with
  | .starting | .waiting | .checking => Unprocessed s
  | .readState | .processing => Unprocessed s ∧ s.shmem.state = CRASHED
  | .working => s.shmem.state = PROCESSING ∧ s.calls.length = 1
  | .storing => s.crashProcessed = true ∧ s.shmem.state = PROCESSING ∧ s.calls.length = 1
  | .leaving =>
    Unprocessed s ∨
      s.crashProcessed = true ∧ PROCESSING ≤ s.shmem.state ∧ s.shmem.state ≤ CAPTURED ∧ s.calls.length = 1
  | .exited => Unprocessed s ∨ PROCESSING ≤ s.shmem.state ∧ s.calls.length = 1

def ThreadsOk (s : State) : Prop :=
  (s.handlingCrash = false ∧ Quiet s ∧ ∀ t, (s.threads t).outside = true) ∨
    (s.handlingCrash = true ∧
      ∃ t, HandlerOk s t (s.threads t) ∧ ∀ u, u ≠ t → (s.threads u).outside = true)

structure Inv (s : State) : Prop where
  threads : ThreadsOk s
  daemon : DaemonOk s

/-! ## Steps of a thread -/

theorem HandlerOk.not_outside {s : State} {t : Nat} {h : Handler} (hok : HandlerOk s t h) :
    h.outside = false := by
  cases h <;> first | rfl | exact absurd hok (by simp [HandlerOk])

/-- What the handler looks at in the state. -/
structure SameView (s s' : State) : Prop where
  shmem : s'.shmem = s.shmem
  notifyFd : s'.notifyFd = s.notifyFd
  heard : s'.heard = s.heard
  daemon : s'.daemon = s.daemon
  calls : s'.calls = s.calls
  crashProcessed : s'.crashProcessed = s.crashProcessed

/-- What the thread past the swap relies on is still there. -/
structure Carries (s s' : State) : Prop where
  quiet : Quiet s → Quiet s'
  context : Quiet s → s'.shmem.context = s.shmem.context
  published : ∀ t, Published s t → Published s' t
  told : ∀ t, Told s t → Told s' t
  word : ∀ t, Told s t → s.shmem.state ≤ s'.shmem.state

theorem SameView.carries {s s' : State} (h : SameView s s') : Carries s s' where
  quiet hq := ⟨by rw [h.shmem]; exact hq.word, by rw [h.notifyFd]; exact hq.unnotified,
    by rw [h.heard]; exact hq.unheard⟩
  context _ := by rw [h.shmem]
  published t hp :=
    ⟨by rw [h.shmem]; exact hp.word, by rw [h.shmem]; exact hp.filled, by rw [h.notifyFd]; exact hp.unnotified,
      by rw [h.heard]; exact hp.unheard, by rw [h.daemon]; exact hp.unread⟩
  told t ht :=
    ⟨by rw [h.shmem]; exact ht.word, by rw [h.shmem]; exact ht.filled, by rw [h.calls]; exact ht.calls⟩
  word t _ := by rw [h.shmem]

theorem Carries.handler {s s' : State} {t : Nat} {pc : Handler} (h : Carries s s')
    (hok : HandlerOk s t pc) : HandlerOk s' t pc := by
  unfold HandlerOk at hok ⊢
  split at hok
  · exact hok
  · exact hok
  · exact ⟨h.quiet hok.1, by rw [h.context hok.1]; exact hok.2⟩
  · exact ⟨h.quiet hok.1, by rw [h.context hok.1]; exact hok.2⟩
  · exact ⟨h.quiet hok.1, by rw [h.context hok.1]; exact hok.2⟩
  · exact h.published t hok
  · exact h.told t hok
  · exact hok
  · exact ⟨h.told t hok.1, hok.2.1, le_trans hok.2.2 (h.word t hok.1)⟩
  · exact ⟨h.told t hok.1, hok.2⟩

theorem SameView.unprocessed {s s' : State} (h : SameView s s') (hu : Unprocessed s) : Unprocessed s' :=
  ⟨by rw [h.crashProcessed]; exact hu.unprocessed, by rw [h.calls]; exact hu.calls,
    by rw [h.shmem]; exact hu.word⟩

theorem SameView.daemonOk {s s' : State} (h : SameView s s') (hd : DaemonOk s) : DaemonOk s' := by
  have hu := h.unprocessed
  unfold DaemonOk at hd ⊢
  rw [h.daemon, h.shmem, h.calls, h.crashProcessed]
  split at hd <;> grind

/-- The thread past the swap moves. -/
theorem ThreadsOk.owner {s s' : State} {t : Nat} {pc : Handler} (hs : s'.handlingCrash = true)
    (hothers : ∀ u, u ≠ t → (s.threads u).outside = true) (hto : s'.threads = Function.update s.threads t pc)
    (hok : HandlerOk s' t pc) : ThreadsOk s' := by
  apply Or.inr
  refine ⟨hs, t, ?_, ?_⟩
  · rw [hto, Function.update_self]
    exact hok
  · intro u hu
    rw [hto, Function.update_of_ne hu]
    exact hothers u hu

/-- A thread that is not past the swap moves and stays there. -/
theorem ThreadsOk.other {s s' : State} {u : Nat} {pc : Handler} (hs : ThreadsOk s) (hview : Carries s s')
    (hheld : s'.handlingCrash = s.handlingCrash) (hto : s'.threads = Function.update s.threads u pc)
    (hu : (s.threads u).outside = true) (hpc : pc.outside = true) : ThreadsOk s' := by
  have hout : ∀ v, (s.threads v).outside = true → (s'.threads v).outside = true := by
    intro v hv
    rw [hto]
    by_cases hvu : v = u
    · rw [hvu, Function.update_self]
      exact hpc
    · rw [Function.update_of_ne hvu]
      exact hv
  obtain ⟨hfree, hquiet, hall⟩ | ⟨hheld', t, hok, hothers⟩ := hs
  · exact Or.inl ⟨by rw [hheld]; exact hfree, hview.quiet hquiet, fun v => hout v (hall v)⟩
  · have htu : t ≠ u := by
      rintro rfl
      rw [hok.not_outside] at hu
      cases hu
    refine Or.inr ⟨by rw [hheld]; exact hheld', t, ?_, fun v hv => hout v (hothers v hv)⟩
    rw [hto, Function.update_of_ne htu]
    exact hview.handler hok

/-- A step that leaves the threads and what they look at alone. -/
theorem ThreadsOk.still {s s' : State} (hs : ThreadsOk s) (hview : Carries s s')
    (hheld : s'.handlingCrash = s.handlingCrash) (hthreads : s'.threads = s.threads) : ThreadsOk s' := by
  unfold ThreadsOk
  rw [hheld, hthreads]
  obtain ⟨hfree, hquiet, hall⟩ | ⟨hheld', t, hok, hothers⟩ := hs
  · exact Or.inl ⟨hfree, hview.quiet hquiet, hall⟩
  · exact Or.inr ⟨hheld', t, hview.handler hok, hothers⟩

/-- A thread that is past the swap is the only one. -/
theorem ThreadsOk.inside {s : State} {t : Nat} (hs : ThreadsOk s) (ht : (s.threads t).outside = false) :
    s.handlingCrash = true ∧ HandlerOk s t (s.threads t) ∧ ∀ u, u ≠ t → (s.threads u).outside = true := by
  obtain ⟨-, -, hall⟩ | ⟨hheld, u, hok, hothers⟩ := hs
  · rw [hall t] at ht
    cases ht
  · have hut : t = u := by
      by_contra hne
      rw [hothers t hne] at ht
      cases ht
    subst hut
    exact ⟨hheld, hok, hothers⟩

theorem fill_next {c : Context} {t : Nat} {f : Field} {done rest : List Field}
    (horder : fillOrder = done ++ f :: rest) (hdone : ∀ g ∈ done, c g = some (.thread t)) :
    ∃ done', fillOrder = done' ++ rest ∧ ∀ g ∈ done', c.put f (.thread t) g = some (.thread t) := by
  refine ⟨done ++ [f], by simp [horder], ?_⟩
  intro g hg
  unfold Context.put
  by_cases hgf : g = f
  · rw [hgf, Function.update_self]
  · rw [Function.update_of_ne hgf]
    apply hdone
    simpa [hgf] using hg

/-- The hook's field is not one of those the handler fills. -/
theorem Filled.hook {c : Context} {t : Nat} {w : Writer} (h : Filled c t) :
    Filled (c.put .attachScreenshot w) t := by
  intro f hf
  have hne : f ≠ .attachScreenshot := by
    rintro rfl
    simp [fillOrder] at hf
  unfold Context.put
  rw [Function.update_of_ne hne]
  exact h f hf

/-- While nothing is published the daemon has nothing to look at. -/
theorem DaemonOk.quiet {s : State} (h : DaemonOk s) (hword : s.shmem.state = READY) :
    Unprocessed s ∧ (s.daemon = .starting ∨ s.daemon = .waiting ∨ s.daemon = .checking ∨ s.daemon = .leaving ∨
      s.daemon = .exited) := by
  unfold DaemonOk at h
  split at h <;> grind

/-- Nothing the daemon has done bears on the context or on a word that is at most `CRASHED`. -/
theorem Unprocessed.daemonOk {s : State} (h : Unprocessed s)
    (hpc : s.daemon = .starting ∨ s.daemon = .waiting ∨ s.daemon = .checking ∨ s.daemon = .leaving ∨
      s.daemon = .exited) : DaemonOk s := by
  unfold DaemonOk
  rcases hpc with hpc | hpc | hpc | hpc | hpc <;> simp [hpc, h]

theorem thread_step_inv {s s' : State} {t : Nat} {a : ThreadAct} (h : threadStep s t a = some s')
    (hs : Inv s) : Inv s' := by
  unfold threadStep at h
  split at h
  · rename_i hpc
    split at h
    · cases h
      have hview : SameView s (s.to t .entered) := ⟨rfl, rfl, rfl, rfl, rfl, rfl⟩
      exact ⟨hs.threads.other hview.carries rfl rfl (by rw [hpc]; rfl) rfl, hview.daemonOk hs.daemon⟩
    · cases h
  · rename_i hpc
    cases h
    have hview : SameView s (s.to t .idle) := ⟨rfl, rfl, rfl, rfl, rfl, rfl⟩
    exact ⟨hs.threads.other hview.carries rfl rfl (by rw [hpc]; rfl) rfl, hview.daemonOk hs.daemon⟩
  · rename_i hpc
    split at h
    · cases h
      have hview : SameView s { s with alive := false } := ⟨rfl, rfl, rfl, rfl, rfl, rfl⟩
      exact ⟨hs.threads.still hview.carries rfl rfl, hview.daemonOk hs.daemon⟩
    · rename_i hfree
      cases h
      have hview : SameView s ({ s with handlingCrash := true }.to t (.filling fillOrder)) :=
        ⟨rfl, rfl, rfl, rfl, rfl, rfl⟩
      obtain ⟨-, hquiet, hall⟩ | ⟨hheld, -⟩ := hs.threads
      · have hok : HandlerOk ({ s with handlingCrash := true }.to t (.filling fillOrder)) t (.filling fillOrder) :=
          ⟨hview.carries.quiet hquiet, [], rfl, by simp⟩
        exact ⟨.owner rfl (fun u _ => hall u) rfl hok, hview.daemonOk hs.daemon⟩
      · exact absurd hheld hfree
  · rename_i f rest hpc
    cases h
    obtain ⟨hheld, hok, hothers⟩ := hs.threads.inside (t := t) (by rw [hpc]; rfl)
    rw [hpc] at hok
    obtain ⟨hquiet, done, horder, hdone⟩ := hok
    obtain ⟨hunprocessed, hdaemon⟩ := hs.daemon.quiet hquiet.word
    refine ⟨.owner hheld hothers rfl ⟨⟨hquiet.word, hquiet.unnotified, hquiet.unheard⟩, fill_next horder hdone⟩, ?_⟩
    exact Unprocessed.daemonOk ⟨hunprocessed.unprocessed, hunprocessed.calls, hunprocessed.word⟩ hdaemon
  · rename_i hpc
    cases h
    obtain ⟨hheld, hok, hothers⟩ := hs.threads.inside (t := t) (by rw [hpc]; rfl)
    rw [hpc] at hok
    obtain ⟨hquiet, done, horder, hdone⟩ := hok
    have hview : SameView s (s.to t .hooks) := ⟨rfl, rfl, rfl, rfl, rfl, rfl⟩
    have hfilled : Filled s.shmem.context t := by
      intro f hf
      apply hdone
      simpa [horder] using hf
    exact ⟨.owner hheld hothers rfl ⟨hview.carries.quiet hquiet, hfilled⟩, hview.daemonOk hs.daemon⟩
  · rename_i skip hpc
    cases h
    obtain ⟨hheld, hok, hothers⟩ := hs.threads.inside (t := t) (by rw [hpc]; rfl)
    rw [hpc] at hok
    obtain ⟨hquiet, hfilled⟩ := hok
    obtain ⟨hunprocessed, hdaemon⟩ := hs.daemon.quiet hquiet.word
    cases skip with
    | true =>
      refine ⟨.owner hheld hothers rfl ⟨⟨hquiet.word, hquiet.unnotified, hquiet.unheard⟩, hfilled.hook⟩, ?_⟩
      exact Unprocessed.daemonOk ⟨hunprocessed.unprocessed, hunprocessed.calls, hunprocessed.word⟩ hdaemon
    | false =>
      refine ⟨.owner hheld hothers rfl ⟨⟨hquiet.word, hquiet.unnotified, hquiet.unheard⟩, hfilled⟩, ?_⟩
      exact Unprocessed.daemonOk ⟨hunprocessed.unprocessed, hunprocessed.calls, hunprocessed.word⟩ hdaemon
  · rename_i hpc
    obtain ⟨hheld, hok, hothers⟩ := hs.threads.inside (t := t) (by rw [hpc]; rfl)
    rw [hpc] at hok
    obtain ⟨hquiet, hfilled⟩ := hok
    obtain ⟨hunprocessed, hdaemon⟩ := hs.daemon.quiet hquiet.word
    split at h
    · cases h
      have hunread : s.daemon ≠ .readState ∧ s.daemon ≠ .processing := by
        rcases hdaemon with hd | hd | hd | hd | hd <;> simp [hd]
      refine ⟨.owner hheld hothers rfl ⟨rfl, hfilled, hquiet.unnotified, hquiet.unheard, hunread⟩, ?_⟩
      exact Unprocessed.daemonOk ⟨hunprocessed.unprocessed, hunprocessed.calls, le_refl _⟩ hdaemon
    · rename_i hword
      exact absurd hquiet.word hword
  · rename_i hpc
    cases h
    obtain ⟨hheld, hok, hothers⟩ := hs.threads.inside (t := t) (by rw [hpc]; rfl)
    rw [hpc] at hok
    have hunprocessed : Unprocessed s := by
      have hd := hs.daemon
      unfold DaemonOk at hd
      have hword := hok.word
      have hunread := hok.unread
      split at hd <;> grind
    refine ⟨.owner hheld hothers rfl ⟨hok.word.ge, fun _ => hok.filled, ?_⟩, ?_⟩
    · intro c hc
      have hcalls : c ∈ s.calls := hc
      rw [hunprocessed.calls] at hcalls
      cases hcalls
    · have hd := hs.daemon
      unfold DaemonOk at hd ⊢
      have hunread := hok.unread
      split at hd <;> grind [State.to, Unprocessed]
  · rename_i elapsed hpc
    obtain ⟨hheld, hok, hothers⟩ := hs.threads.inside (t := t) (by rw [hpc]; rfl)
    rw [hpc] at hok
    have hview : ∀ pc, SameView s (s.to t pc) := fun _ => ⟨rfl, rfl, rfl, rfl, rfl, rfl⟩
    split at h
    · split at h
      · rename_i hcaptured
        cases h
        exact ⟨.owner hheld hothers rfl ⟨(hview _).carries.told t hok, hcaptured, le_refl _⟩, (hview _).daemonOk hs.daemon⟩
      · cases h
        exact ⟨.owner hheld hothers rfl ((hview _).carries.told t hok), (hview _).daemonOk hs.daemon⟩
    · rename_i hlate
      cases h
      exact ⟨.owner hheld hothers rfl ⟨(hview _).carries.told t hok, not_lt.1 hlate⟩, (hview _).daemonOk hs.daemon⟩
  · cases h
    have hview : SameView s { s with alive := false } := ⟨rfl, rfl, rfl, rfl, rfl, rfl⟩
    exact ⟨hs.threads.still hview.carries rfl rfl, hview.daemonOk hs.daemon⟩
  · cases h

/-! ## Steps of the daemon -/

/-- What the daemon writes while it works on the crash is only the context. -/
theorem enumerateProc_eq (s : State) (enumerate : Bool) : ∃ context,
    enumerateProc s enumerate = { s with shmem := { s.shmem with context := context } } := by
  unfold enumerateProc
  split
  · exact ⟨_, rfl⟩
  · exact ⟨s.shmem.context, rfl⟩

/-- A step of the daemon that only moves it on, to a place where it has not read the word. -/
theorem Carries.moved {s : State} {pc : Daemon} (hpc : pc ≠ .readState ∧ pc ≠ .processing) :
    Carries s { s with daemon := pc } where
  quiet hq := ⟨hq.word, hq.unnotified, hq.unheard⟩
  context _ := rfl
  published _ hp := ⟨hp.word, hp.filled, hp.unnotified, hp.unheard, hpc⟩
  told _ ht := ⟨ht.word, ht.filled, ht.calls⟩
  word _ _ := le_refl _

/-- Nothing is quiet or merely published once the daemon was woken. -/
theorem Carries.of_told {s s' : State} (hquiet : ¬ Quiet s) (hpublished : ∀ t, ¬ Published s t)
    (htold : ∀ t, Told s t → Told s' t) (hword : s.shmem.state ≤ s'.shmem.state) : Carries s s' where
  quiet hq := absurd hq hquiet
  context hq := absurd hq hquiet
  published t hp := absurd hp (hpublished t)
  told := htold
  word _ _ := hword

/-- A notification or a word beyond `CRASHED` means that the daemon was told. -/
theorem ThreadsOk.told {s : State} (hs : ThreadsOk s) (hquiet : ¬ Quiet s) (hpublished : ∀ t, ¬ Published s t) :
    ∃ t, Told s t := by
  obtain ⟨-, hq, -⟩ | ⟨-, t, hok, -⟩ := hs
  · exact absurd hq hquiet
  · refine ⟨t, ?_⟩
    unfold HandlerOk at hok
    split at hok
    · exact hok.elim
    · exact hok.elim
    · exact absurd hok.1 hquiet
    · exact absurd hok.1 hquiet
    · exact absurd hok.1 hquiet
    · exact absurd hok (hpublished t)
    · exact hok
    · exact hok.elim
    · exact hok.1
    · exact hok.1

/-- The daemon works on the crash: its word is beyond `CRASHED`. -/
theorem carries_working {s s' : State} (hword : PROCESSING ≤ s.shmem.state) (hmono : s.shmem.state ≤ s'.shmem.state)
    (hcalls : s'.calls = s.calls) : Carries s s' := by
  have hwords := words
  apply Carries.of_told
  · intro hq
    have hw := hq.word
    omega
  · intro t hp
    have hw := hp.word
    omega
  · intro t ht
    refine ⟨by omega, ?_, by rw [hcalls]; exact ht.calls⟩
    intro hw
    omega
  · exact hmono

theorem daemon_step_inv {s s' : State} {a : DaemonAct} (h : daemonStep s a = some s') (hs : Inv s) :
    Inv s' := by
  have hd := hs.daemon
  unfold daemonStep at h
  split at h
  · rename_i hpc
    cases h
    simp only [DaemonOk, hpc] at hd
    have hmoved : ∀ pc, pc ≠ .readState ∧ pc ≠ .processing → ThreadsOk { s with daemon := pc } :=
      fun pc hne => hs.threads.still (.moved hne) rfl rfl
    split
    · exact ⟨hmoved _ (by simp), ⟨hd.unprocessed, hd.calls, hd.word⟩⟩
    · exact ⟨hmoved _ (by simp), Or.inl ⟨hd.unprocessed, hd.calls, hd.word⟩⟩
  · rename_i hpc
    split at h
    · rename_i hpending
      cases h
      simp only [DaemonOk, hpc] at hd
      have hquiet : ¬ Quiet s := fun hq => by
        have hn := hq.unnotified
        omega
      have hpublished : ∀ t, ¬ Published s t := fun t hp => by
        have hn := hp.unnotified
        omega
      obtain ⟨t, ht⟩ := hs.threads.told hquiet hpublished
      have hcarries : Carries s { s with notifyFd := 0, daemon := .readState } :=
        .of_told hquiet hpublished (fun u hu => ⟨hu.word, hu.filled, hu.calls⟩) (le_refl _)
      exact ⟨hs.threads.still hcarries rfl rfl, ⟨hd.unprocessed, hd.calls, hd.word⟩, le_antisymm hd.word ht.word⟩
    · cases h
  · rename_i hpc
    split at h
    · cases h
      simp only [DaemonOk, hpc] at hd
      exact ⟨hs.threads.still (.moved (by simp)) rfl rfl, ⟨hd.unprocessed, hd.calls, hd.word⟩⟩
    · cases h
  · rename_i hpc
    cases h
    simp only [DaemonOk, hpc] at hd
    obtain ⟨hu, hword⟩ := hd
    rw [if_pos ⟨hword, hu.unprocessed⟩]
    have hcarries : Carries s { s with daemon := .processing } := by
      apply Carries.of_told
      · intro hq
        rw [hq.word] at hword
        cases hword
      · intro t hp
        exact absurd hpc hp.unread.1
      · exact fun t ht => ⟨ht.word, ht.filled, ht.calls⟩
      · exact le_refl _
    exact ⟨hs.threads.still hcarries rfl rfl, ⟨hu.unprocessed, hu.calls, hu.word⟩, hword⟩
  · rename_i hpc
    cases h
    simp only [DaemonOk, hpc] at hd
    obtain ⟨hu, hword⟩ := hd
    have hcarries :
        Carries s { s.word PROCESSING with calls := s.calls ++ [s.shmem.context], daemon := .working } := by
      apply Carries.of_told
      · intro hq
        rw [hq.word] at hword
        cases hword
      · intro t hp
        exact absurd hpc hp.unread.2
      · intro t ht
        refine ⟨by simp [State.word], fun hw => absurd hw (by simp [State.word]), ?_⟩
        intro c hc
        rcases List.mem_append.1 hc with hc | hc
        · exact ht.calls c hc
        · rw [List.mem_singleton.1 hc]
          exact ht.filled hword
      · simp [State.word, hword]
    exact ⟨hs.threads.still hcarries rfl rfl, rfl, by simp [hu.calls]⟩
  · rename_i enumerate captured hpc
    cases h
    simp only [DaemonOk, hpc] at hd
    obtain ⟨hword, hcalls⟩ := hd
    obtain ⟨context, henumerate⟩ := enumerateProc_eq s enumerate
    rw [henumerate]
    refine ⟨hs.threads.still (carries_working hword.ge (le_refl _) rfl) rfl rfl, ?_⟩
    unfold DaemonOk
    split_ifs with hasync
    · exact ⟨rfl, hword, hcalls⟩
    · exact Or.inr ⟨rfl, hword.ge, by simp [hword], hcalls⟩
  · rename_i hpc
    cases h
    simp only [DaemonOk, hpc] at hd
    obtain ⟨hprocessed, hword, hcalls⟩ := hd
    refine ⟨hs.threads.still (carries_working hword.ge ?_ rfl) rfl rfl, ?_⟩
    · simp [State.word, hword]
    · exact Or.inr ⟨hprocessed, by simp [State.word], by simp [State.word], hcalls⟩
  · rename_i hpc
    cases h
    simp only [DaemonOk, hpc] at hd
    split
    · exact ⟨hs.threads.still (.moved (by simp)) rfl rfl, Or.inl ⟨hd.unprocessed, hd.calls, hd.word⟩⟩
    · exact ⟨hs.threads.still (.moved (by simp)) rfl rfl, ⟨hd.unprocessed, hd.calls, hd.word⟩⟩
  · rename_i hpc
    cases h
    simp only [DaemonOk, hpc] at hd
    obtain hu | ⟨hprocessed, hlow, hhigh, hcalls⟩ := hd
    · rw [hu.unprocessed]
      exact ⟨hs.threads.still (.moved (by simp)) rfl rfl, Or.inl ⟨hu.unprocessed, hu.calls, hu.word⟩⟩
    · rw [hprocessed]
      refine ⟨hs.threads.still (carries_working hlow ?_ rfl) rfl rfl, Or.inr ⟨by simp [State.word], hcalls⟩⟩
      have hwords := words
      simp only [State.word, if_true]
      omega
  · cases h

/-! ## Runs -/

/-- No thread is in the handler before it is installed. -/
def Uninstalled (s : State) : Prop := s.installed = false → ∀ t, s.threads t = .idle

/-- A notification the daemon could hear is waiting for it, or it has looked at the crash. -/
def HeardOk (s : State) : Prop :=
  s.heard = true → s.calls ≠ [] ∨ s.daemon = .processing ∨ s.daemon = .readState ∨
    0 < s.notifyFd ∧ (s.daemon = .waiting ∨ s.daemon = .checking)

structure Handed (s : State) : Prop where
  inv : Inv s
  uninstalled : Uninstalled s
  heard : HeardOk s

/-- What a thread leaves alone, and the one step in which it notifies. -/
theorem thread_step_daemon {s s' : State} {t : Nat} {a : ThreadAct} (h : threadStep s t a = some s') :
    s'.daemon = s.daemon ∧ s'.calls = s.calls ∧ s'.installed = s.installed ∧
      (s'.notifyFd = s.notifyFd ∧ s'.heard = s.heard ∨
        s.threads t = .notify ∧ s'.notifyFd = s.notifyFd + 1 ∧ s'.heard = (s.heard || s.daemon.inLoop)) := by
  unfold threadStep at h
  split at h <;> (try split at h) <;> (try split at h) <;> cases h <;>
    first
      | exact ⟨rfl, rfl, rfl, Or.inl ⟨rfl, rfl⟩⟩
      | exact ⟨rfl, rfl, rfl, Or.inr ⟨‹_›, rfl, rfl⟩⟩

/-- A thread moves only once the handlers are installed, from the handler's start on. -/
theorem thread_step_installed {s s' : State} {t : Nat} {a : ThreadAct} (h : threadStep s t a = some s')
    (hs : Uninstalled s) : s.installed = true := by
  by_contra hne
  have hidle := hs (by simpa using hne) t
  cases a <;> simp [threadStep, hidle, hne] at h

theorem thread_step_heard {s s' : State} {t : Nat} {a : ThreadAct} (h : threadStep s t a = some s')
    (hs : Handed s) : HeardOk s' := by
  obtain ⟨hdaemon, hcalls, -, ⟨hfd, hheard⟩ | ⟨hpc, hfd, hheard⟩⟩ := thread_step_daemon h
  · unfold HeardOk
    rw [hdaemon, hcalls, hfd, hheard]
    exact hs.heard
  · -- the swap was made just before, so the daemon has not read the word
    obtain ⟨-, hok, -⟩ := hs.inv.threads.inside (t := t) (by rw [hpc]; rfl)
    rw [hpc] at hok
    have hpublished : Published s t := hok
    unfold HeardOk
    rw [hdaemon, hcalls, hfd, hheard, hpublished.unheard, Bool.false_or]
    intro hloop
    have hd := hs.inv.daemon
    have hword := hpublished.word
    have hunread := hpublished.unread
    have hwords := words
    unfold DaemonOk at hd
    apply Or.inr
    apply Or.inr
    apply Or.inr
    refine ⟨by omega, ?_⟩
    split at hd <;> simp_all [Daemon.inLoop]

theorem daemon_step_heard {s s' : State} {a : DaemonAct} (h : daemonStep s a = some s')
    (hheeds : heeds s (.daemon a) = true) (hs : Handed s) : HeardOk s' := by
  have hheard := hs.heard
  have hd := hs.inv.daemon
  unfold DaemonOk at hd
  unfold daemonStep at h
  unfold HeardOk at hheard ⊢
  split at h
  · rename_i hpc
    cases h
    grind
  · rename_i hpc
    split at h
    · cases h
      exact fun _ => Or.inr (Or.inr (Or.inl rfl))
    · cases h
  · rename_i hpc
    split at h
    · cases h
      grind
    · cases h
  · rename_i hpc
    cases h
    simp only [hpc] at hd
    rw [if_pos ⟨hd.2, hd.1.unprocessed⟩]
    exact fun _ => Or.inr (Or.inl rfl)
  · cases h
    exact fun _ => Or.inl (by simp)
  · rename_i enumerate captured hpc
    cases h
    simp only [hpc] at hd
    obtain ⟨context, henumerate⟩ := enumerateProc_eq s enumerate
    rw [henumerate]
    exact fun _ => Or.inl (List.ne_nil_of_length_pos (by have := hd.2; simpa using by omega))
  · rename_i hpc
    cases h
    simp only [hpc] at hd
    exact fun _ => Or.inl (List.ne_nil_of_length_pos (by have := hd.2.2; simpa [State.word] using by omega))
  · rename_i hpc
    cases h
    simp only [heeds, hpc] at hheeds
    grind
  · rename_i hpc
    cases h
    have hcalls : (if s.crashProcessed = true then s.word DONE else s).calls = s.calls := by
      split <;> rfl
    have hkeep : (if s.crashProcessed = true then s.word DONE else s).heard = s.heard := by
      split <;> rfl
    dsimp only
    rw [hcalls, hkeep]
    grind
  · cases h

/-- What the daemon leaves alone; the calls it made stay made. -/
theorem daemon_step_threads {s s' : State} {a : DaemonAct} (h : daemonStep s a = some s') :
    s'.installed = s.installed ∧ s'.threads = s.threads ∧ s'.heard = s.heard ∧ s.calls <+: s'.calls := by
  unfold daemonStep at h
  split at h
  · cases h
    exact ⟨rfl, rfl, rfl, List.prefix_rfl⟩
  · split at h
    · cases h
      exact ⟨rfl, rfl, rfl, List.prefix_rfl⟩
    · cases h
  · split at h
    · cases h
      exact ⟨rfl, rfl, rfl, List.prefix_rfl⟩
    · cases h
  · cases h
    exact ⟨rfl, rfl, rfl, List.prefix_rfl⟩
  · cases h
    exact ⟨rfl, rfl, rfl, List.prefix_append _ _⟩
  · rename_i enumerate captured hpc
    cases h
    obtain ⟨context, henumerate⟩ := enumerateProc_eq s enumerate
    rw [henumerate]
    exact ⟨rfl, rfl, rfl, List.prefix_rfl⟩
  · cases h
    exact ⟨rfl, rfl, rfl, List.prefix_rfl⟩
  · cases h
    exact ⟨rfl, rfl, rfl, List.prefix_rfl⟩
  · cases h
    cases s.crashProcessed <;> exact ⟨rfl, rfl, rfl, List.prefix_rfl⟩
  · cases h

theorem step_handed {s s' : State} {a : Act} (h : heedingStep s a = some s') (hs : Handed s) : Handed s' := by
  unfold heedingStep at h
  split at h
  · rename_i hheeds
    cases a with
    | install =>
      simp only [step] at h
      split at h
      · cases h
        have hview : SameView s { s with installed := true } := ⟨rfl, rfl, rfl, rfl, rfl, rfl⟩
        refine ⟨⟨hs.inv.threads.still hview.carries rfl rfl, hview.daemonOk hs.inv.daemon⟩, ?_, hs.heard⟩
        intro hi
        cases hi
      · cases h
    | die =>
      simp only [step] at h
      split at h
      · cases h
        have hview : SameView s { s with alive := false } := ⟨rfl, rfl, rfl, rfl, rfl, rfl⟩
        exact ⟨⟨hs.inv.threads.still hview.carries rfl rfl, hview.daemonOk hs.inv.daemon⟩, hs.uninstalled, hs.heard⟩
      · cases h
    | thread t a =>
      simp only [step] at h
      split at h
      · have hinstalled := thread_step_installed h hs.uninstalled
        have hsame := (thread_step_daemon h).2.2.1
        refine ⟨thread_step_inv h hs.inv, ?_, thread_step_heard h hs⟩
        intro hne
        rw [hsame, hinstalled] at hne
        cases hne
      · cases h
    | daemon a =>
      refine ⟨daemon_step_inv h hs.inv, ?_, daemon_step_heard h hheeds hs⟩
      obtain ⟨hinstalled, hthreads, -⟩ := daemon_step_threads h
      unfold Uninstalled
      rw [hinstalled, hthreads]
      exact hs.uninstalled
  · cases h

theorem start_handed {s : State} (h : StartsReady s) : Handed s := by
  obtain ⟨existing, asyncUpload, hready, rfl⟩ := h
  have hword : (start existing asyncUpload).shmem.state = READY := by
    cases existing with
    | none => rfl
    | some shmem => exact hready shmem rfl
  refine ⟨⟨Or.inl ⟨rfl, ⟨hword, rfl, rfl⟩, fun _ => rfl⟩, ?_⟩, fun _ _ => rfl, fun hh => by cases hh⟩
  exact ⟨rfl, rfl, by rw [hword]; decide⟩

theorem reachable_handed {s : State} (h : Reachable StartsReady HeedingStep s) : Handed s := by
  apply h.invariant
  · intro s hs
    exact start_handed hs
  · rintro s t hs ⟨a, hstep⟩
    exact step_handed hstep hs

/-- A thread writes the word only where it swaps it. -/
theorem thread_step_shmem {s s' : State} {t : Nat} {a : ThreadAct} (h : threadStep s t a = some s')
    (hpc : s.threads t ≠ .publish) : s'.shmem.state = s.shmem.state := by
  unfold threadStep at h
  split at h
  · split at h <;> cases h
    rfl
  · cases h
    rfl
  · split at h <;> cases h <;> rfl
  · cases h
    rfl
  · cases h
    rfl
  · rename_i skipScreenshot _
    cases h
    cases skipScreenshot <;> rfl
  · contradiction
  · cases h
    rfl
  · split at h
    · split at h <;> cases h <;> rfl
    · cases h
      rfl
  · cases h
    rfl
  · cases h

/-- A thread writes the context only before it has swapped the word. -/
theorem thread_step_context {s s' : State} {t : Nat} {a : ThreadAct} (h : threadStep s t a = some s')
    (hs : Inv s) (hword : CRASHED ≤ s.shmem.state) : s'.shmem.context = s.shmem.context := by
  have hloud : ¬ Quiet s := by
    intro hq
    rw [hq.word] at hword
    exact absurd hword (by decide)
  have hinside := hs.threads.inside (t := t)
  unfold threadStep at h
  split at h
  · split at h <;> cases h
    rfl
  · cases h
    rfl
  · split at h <;> cases h <;> rfl
  · rename_i hpc
    rw [hpc] at hinside
    exact absurd (hinside rfl).2.1.1 hloud
  · cases h
    rfl
  · rename_i hpc
    rw [hpc] at hinside
    exact absurd (hinside rfl).2.1.1 hloud
  · split at h <;> cases h <;> rfl
  · cases h
    rfl
  · split at h
    · split at h <;> cases h <;> rfl
    · cases h
      rfl
  · cases h
    rfl
  · cases h

theorem daemon_step_word {s s' : State} {a : DaemonAct} (h : daemonStep s a = some s') (hd : DaemonOk s) :
    s.shmem.state ≤ s'.shmem.state := by
  have hwords := words
  unfold daemonStep at h
  split at h
  · cases h
    exact le_refl _
  · split at h <;> cases h
    exact le_refl _
  · split at h <;> cases h
    exact le_refl _
  · cases h
    exact le_refl _
  · rename_i hpc
    cases h
    simp only [DaemonOk, hpc] at hd
    simp [State.word, hd.2]
  · rename_i enumerate captured hpc
    cases h
    obtain ⟨context, henumerate⟩ := enumerateProc_eq s enumerate
    rw [henumerate]
  · rename_i hpc
    cases h
    simp only [DaemonOk, hpc] at hd
    simp [State.word, hd.2.1]
  · cases h
    exact le_refl _
  · rename_i hpc
    cases h
    simp only [DaemonOk, hpc] at hd
    cases hprocessed : s.crashProcessed with
    | false => exact le_refl _
    | true =>
      obtain hu | ⟨-, -, hhigh, -⟩ := hd
      · rw [hu.unprocessed] at hprocessed
        cases hprocessed
      · simp only [State.word, if_true]
        omega
  · cases h

/-- The word never decreases. -/
theorem step_word {s s' : State} {a : Act} (h : heedingStep s a = some s') (hs : Handed s) :
    s.shmem.state ≤ s'.shmem.state := by
  have hwords := words
  unfold heedingStep at h
  split at h
  · cases a with
    | install =>
      simp only [step] at h
      split at h <;> cases h
      exact le_refl _
    | die =>
      simp only [step] at h
      split at h <;> cases h
      exact le_refl _
    | thread t a =>
      simp only [step] at h
      split at h
      · by_cases hpc : s.threads t = .publish
        · obtain ⟨-, hok, -⟩ := hs.inv.threads.inside (t := t) (by rw [hpc]; rfl)
          rw [hpc] at hok
          have hword : s.shmem.state = READY := hok.1.word
          cases a <;> simp only [threadStep, hpc, hword, if_true, reduceCtorEq] at h
          cases h
          simp [State.to, State.word, hword]
        · exact (thread_step_shmem h hpc).ge
      · cases h
    | daemon a =>
      exact daemon_step_word h hs.inv.daemon
  · cases h

theorem run_word {s s' : State} (h : Reachable StartsReady HeedingStep s)
    (hrun : Relation.ReflTransGen HeedingStep s s') : s.shmem.state ≤ s'.shmem.state := by
  apply h.run_invariant _ hrun (I := fun t => s.shmem.state ≤ t.shmem.state)
  · exact le_refl _
  · rintro t u ht hle ⟨a, hstep⟩
    exact le_trans hle (step_word hstep (reachable_handed ht))

/-! ## The daemon gets to the crash -/

def Act.isDaemon : Act → Bool
  | .daemon _ => true
  | _ => false

/-- The steps the daemon is away from the crash it was notified of. -/
def Daemon.lag : Daemon → Nat
  | .checking => 4
  | .waiting => 3
  | .readState => 2
  | .processing => 1
  | _ => 0

theorem HeardOk.lag_pos {s : State} (h : HeardOk s) (hheard : s.heard = true) (hcalls : s.calls = []) :
    0 < s.daemon.lag := by
  obtain hne | hpc | hpc | ⟨-, hpc | hpc⟩ := h hheard
  · exact absurd hcalls hne
  · simp [hpc, Daemon.lag]
  · simp [hpc, Daemon.lag]
  · simp [hpc, Daemon.lag]
  · simp [hpc, Daemon.lag]

/-- Every step of the daemon brings it nearer. -/
theorem daemon_step_lag {s s' : State} {a : DaemonAct} (h : heedingStep s (.daemon a) = some s')
    (hs : Handed s) (hheard : s.heard = true) (hcalls : s.calls = []) :
    s'.calls ≠ [] ∨ s'.daemon.lag < s.daemon.lag := by
  have hd := hs.inv.daemon
  have hok := hs.heard hheard
  unfold heedingStep at h
  split at h
  · rename_i hheeds
    obtain hne | hpc | hpc | ⟨hpending, hpc | hpc⟩ := hok
    · exact absurd hcalls hne
    · cases a <;> simp only [step, daemonStep, hpc, reduceCtorEq] at h
      cases h
      exact Or.inl (by simp)
    · cases a <;> simp only [step, daemonStep, hpc, reduceCtorEq] at h
      cases h
      simp only [DaemonOk, hpc] at hd
      rw [if_pos ⟨hd.2, hd.1.unprocessed⟩]
      exact Or.inr (by simp [hpc, Daemon.lag])
    · cases a <;> simp only [step, daemonStep, hpc, reduceCtorEq] at h
      · rw [if_pos hpending] at h
        cases h
        exact Or.inr (by simp [hpc, Daemon.lag])
      · rw [if_neg (by omega)] at h
        cases h
    · cases a <;> simp only [step, daemonStep, hpc, reduceCtorEq] at h
      cases h
      have halive : s.alive = true := by
        simp only [heeds, hpc, Bool.or_eq_true, beq_iff_eq] at hheeds
        obtain halive | hnone := hheeds
        · exact halive
        · omega
      exact Or.inr (by simp [hpc, halive, Daemon.lag])
  · cases h

/-- The other steps leave the daemon, its calls and what it heard alone. -/
theorem other_step_daemon {s s' : State} {a : Act} (h : heedingStep s a = some s') (ha : a.isDaemon = false) :
    s'.daemon = s.daemon ∧ s'.calls = s.calls ∧ (s.heard = true → s'.heard = true) := by
  unfold heedingStep at h
  split at h
  · cases a with
    | install =>
      simp only [step] at h
      split at h <;> cases h
      exact ⟨rfl, rfl, id⟩
    | die =>
      simp only [step] at h
      split at h <;> cases h
      exact ⟨rfl, rfl, id⟩
    | thread t a =>
      simp only [step] at h
      split at h
      · obtain ⟨hdaemon, hcalls, -, ⟨-, hheard⟩ | ⟨-, -, hheard⟩⟩ := thread_step_daemon h
        · exact ⟨hdaemon, hcalls, by rw [hheard]; exact id⟩
        · exact ⟨hdaemon, hcalls, by rw [hheard]; intro hs; simp [hs]⟩
      · cases h
    | daemon a => cases ha
  · cases h

theorem step_calls {s s' : State} {a : Act} (h : heedingStep s a = some s') : s.calls <+: s'.calls := by
  cases ha : a.isDaemon with
  | false => rw [(other_step_daemon h ha).2.1]
  | true =>
    unfold heedingStep at h
    split at h
    · cases a with
      | daemon a => exact (daemon_step_threads h).2.2.2
      | install => cases ha
      | die => cases ha
      | thread t a => cases ha
    · cases h

theorem step_heard {s s' : State} {a : Act} (h : heedingStep s a = some s') (hheard : s.heard = true) :
    s'.heard = true := by
  cases ha : a.isDaemon with
  | false => exact (other_step_daemon h ha).2.2 hheard
  | true =>
    unfold heedingStep at h
    split at h
    · cases a with
      | daemon a => rw [(daemon_step_threads h).2.2.1, hheard]
      | install => cases ha
      | die => cases ha
      | thread t a => cases ha
    · cases h

/-- A crash that was heard is processed after as many steps of the daemon as it is away. -/
theorem run_processes {acts : List Act} {s s' : State} (h : run heedingStep s acts = some s') (hs : Handed s)
    (hheard : s.heard = true) (hlag : s.calls = [] → s.daemon.lag ≤ acts.countP Act.isDaemon) :
    s'.calls ≠ [] := by
  induction acts generalizing s with
  | nil =>
    cases h
    intro hcalls
    have hpos := hs.heard.lag_pos hheard hcalls
    have hle := hlag hcalls
    simp at hle
    omega
  | cons a acts ih =>
    simp only [run] at h
    cases hstep : heedingStep s a with
    | none => simp [hstep] at h
    | some t =>
      rw [hstep, Option.bind_some] at h
      apply ih h (step_handed hstep hs) (step_heard hstep hheard)
      intro hcalls
      have hbefore : s.calls = [] := by
        have hprefix := step_calls hstep
        rw [hcalls] at hprefix
        exact List.prefix_nil.1 hprefix
      have hle := hlag hbefore
      rw [List.countP_cons] at hle
      cases ha : a.isDaemon with
      | false =>
        rw [(other_step_daemon hstep ha).1]
        simpa [ha] using hle
      | true =>
        cases a with
        | daemon d =>
          obtain hne | hless := daemon_step_lag hstep hs hheard hbefore
          · exact absurd hcalls hne
          · simp only [ha, if_true] at hle
            omega
        | install => cases ha
        | die => cases ha
        | thread t a => cases ha

/-! ## The hand-over -/

theorem Handed.ready_at_install {s s' : State} (hs : Handed s) (h : heedingStep s .install = some s') :
    s'.shmem.state = READY := by
  unfold heedingStep at h
  split at h
  · simp only [step] at h
    split at h
    · rename_i hnew
      cases h
      obtain ⟨-, hquiet, -⟩ | ⟨-, t, hok, -⟩ := hs.inv.threads
      · exact hquiet.word
      · rw [hs.uninstalled hnew.2 t] at hok
        exact hok.elim
    · cases h
  · cases h

theorem Handed.calls {s : State} (hs : Handed s) : s.calls.length ≤ 1 := by
  have hd := hs.inv.daemon
  unfold DaemonOk at hd
  have hnone : Unprocessed s → s.calls.length ≤ 1 := fun hu => by simp [hu.calls]
  split at hd
  · exact hnone hd
  · exact hnone hd
  · exact hnone hd
  · exact hnone hd.1
  · exact hnone hd.1
  · exact hd.2.le
  · exact hd.2.2.le
  · obtain hu | ⟨-, -, -, hc⟩ := hd
    · exact hnone hu
    · exact hc.le
  · obtain hu | ⟨-, hc⟩ := hd
    · exact hnone hu
    · exact hc.le

theorem Handed.filled {s : State} (hs : Handed s) {c : Context} (hc : c ∈ s.calls) : ∃ t, Filled c t := by
  have hcalls : s.calls ≠ [] := List.ne_nil_of_mem hc
  have hword : PROCESSING ≤ s.shmem.state := by
    have hd := hs.inv.daemon
    unfold DaemonOk at hd
    split at hd <;> grind [Unprocessed]
  have hwords := words
  obtain ⟨t, ht⟩ := hs.inv.threads.told (fun hq => by have := hq.word; omega) (fun t hp => by have := hp.word; omega)
  exact ⟨t, ht.calls c hc⟩

theorem Handed.resumed {s : State} (hs : Handed s) {t : Nat} {why : Resumed} (h : s.threads t = .resumed why) :
    (∃ state, why = .captured state ∧ CAPTURED ≤ state ∧ state ≤ s.shmem.state) ∨
      ∃ elapsed, why = .timedOut elapsed ∧ SENTRY_CRASH_HANDLER_WAIT_TIMEOUT_MS ≤ elapsed := by
  obtain ⟨-, hok, -⟩ := hs.inv.threads.inside (t := t) (by rw [h]; rfl)
  rw [h] at hok
  cases why with
  | notClaimed => exact hok.elim
  | captured state => exact Or.inl ⟨state, rfl, hok.2.1, hok.2.2⟩
  | timedOut elapsed => exact Or.inr ⟨elapsed, rfl, hok.2⟩

/-- In every run from a new object, or from one whose word was left `READY`, in which the
daemon does not give the parent up over a waiting notification: the word is `READY` when the
handlers are installed and never decreases; the crash is processed at most once, from a
context that one thread filled; no thread writes the context once the word is `CRASHED`; the
handler goes on only after `CAPTURED` or its time-out; and a crash the daemon was notified of
in its loop is processed within four of its steps. -/
theorem crash_handed_over {s : State} (h : Reachable StartsReady HeedingStep s) :
    (∀ s', heedingStep s .install = some s' → s'.shmem.state = READY) ∧
      (∀ s', Relation.ReflTransGen HeedingStep s s' → s.shmem.state ≤ s'.shmem.state) ∧
      s.calls.length ≤ 1 ∧ (∀ c ∈ s.calls, ∃ t, Filled c t) ∧
      (CRASHED ≤ s.shmem.state → ∀ t a s', heedingStep s (.thread t a) = some s' →
        s'.shmem.context = s.shmem.context) ∧
      (∀ t why, s.threads t = .resumed why →
        (∃ state, why = .captured state ∧ CAPTURED ≤ state ∧ state ≤ s.shmem.state) ∨
          ∃ elapsed, why = .timedOut elapsed ∧ SENTRY_CRASH_HANDLER_WAIT_TIMEOUT_MS ≤ elapsed) ∧
      (s.heard = true → (s.daemon.inLoop = false → s.calls ≠ []) ∧
        ∀ acts s', run heedingStep s acts = some s' → 4 ≤ acts.countP Act.isDaemon → s'.calls ≠ []) := by
  have hs := reachable_handed h
  refine ⟨fun _ => hs.ready_at_install, fun _ => run_word h, hs.calls, fun _ => hs.filled, ?_,
    fun _ _ => hs.resumed, ?_⟩
  · intro hword t a s' hstep
    unfold heedingStep at hstep
    split at hstep
    · simp only [step] at hstep
      split at hstep
      · exact thread_step_context hstep hs.inv hword
      · cases hstep
    · cases hstep
  · intro hheard
    refine ⟨?_, ?_⟩
    · intro hout hcalls
      have hpos := hs.heard.lag_pos hheard hcalls
      cases hpc : s.daemon <;> simp [hpc, Daemon.lag, Daemon.inLoop] at hpos hout
    · intro acts s' hrun hcount
      apply run_processes hrun hs hheard
      intro _
      have hle : s.daemon.lag ≤ 4 := by cases s.daemon <;> simp [Daemon.lag]
      omega

/-- A thread crashes and is processed; the second one that crashes ends the process. -/
theorem crash_handed_over_once : ∃ s : State, (s.calls.length = 1 ∧ s.shmem.state = DONE ∧ s.alive = false) ∧
    ∀ c ∈ s.calls, ∃ t, Filled c t := by
  have hrun : (run heedingStep (start none true) ([.daemon .start, .install, .thread 3 .signal, .thread 3 .claim] ++
      List.replicate 10 (.thread 3 .fill) ++ [.thread 3 (.handleException false), .thread 3 .publish,
      .thread 3 .notify, .daemon .wake, .daemon .readState, .thread 5 .signal, .thread 5 .claim,
      .daemon .markProcessing, .daemon (.work true true), .daemon .storeCaptured, .daemon .finish])).map
      (fun s => (s.calls.length, s.shmem.state, s.alive)) = some (1, DONE, false) := by
    decide +kernel
  obtain ⟨s, hs, hfacts⟩ := Option.map_eq_some_iff.mp hrun
  simp only [Prod.mk.injEq] at hfacts
  have hstart : Reachable StartsReady HeedingStep (start none true) := .start ⟨none, true, by simp, rfl⟩
  exact ⟨s, hfacts, (crash_handed_over (hstart.of_run (fun _ a _ h => ⟨a, h⟩) hs)).2.2.2.1⟩

/-- An object that was left over with its word at `DONE` keeps it; and a process that dies
between the daemon's time-out and its look at the parent takes its published crash with it. -/
theorem stale_word_and_lost_crash :
    (∃ s, step (start (some ⟨SENTRY_CRASH_MAGIC, DONE, false, fun _ => some .earlier⟩) false) .install = some s ∧
      s.shmem.state ≠ READY) ∧
    ∃ s, run step (start none false) ([.daemon .start, .install, .daemon .timeOut, .thread 3 .signal,
      .thread 3 .claim] ++ List.replicate 10 (.thread 3 .fill) ++ [.thread 3 (.handleException false),
      .thread 3 .publish, .thread 3 .notify, .die, .daemon .checkParent, .daemon .finish]) = some s ∧
      s.heard = true ∧ s.daemon = .exited ∧ s.calls = [] := by
  have hrun : (run step (start none false) ([.daemon .start, .install, .daemon .timeOut, .thread 3 .signal,
      .thread 3 .claim] ++ List.replicate 10 (.thread 3 .fill) ++ [.thread 3 (.handleException false),
      .thread 3 .publish, .thread 3 .notify, .die, .daemon .checkParent, .daemon .finish])).map
      (fun s => (s.heard, s.daemon, s.calls.length)) = some (true, .exited, 0) := by
    decide +kernel
  refine ⟨⟨_, rfl, by decide⟩, ?_⟩
  obtain ⟨s, hs, hfacts⟩ := Option.map_eq_some_iff.mp hrun
  simp only [Prod.mk.injEq, List.length_eq_zero_iff] at hfacts
  exact ⟨s, hs, hfacts⟩

end SentryNative.Handover
