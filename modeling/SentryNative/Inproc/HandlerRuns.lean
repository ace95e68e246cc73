import SentryNative.Inproc.Handler

/-!
# One crash gets through

With the handler thread ready, of all threads that crash one hands its crash over or handles
it, and the others wait until the previous signal handlers are back.
-/

namespace SentryNative.Inproc

open Machine

variable {n : Nat}

/-- No shutdown, and no application thread crashes again while it handles its crash. -/
def plain (s : State n) : Label n → Bool
  | .run _ _ => true
  | .crash (.app p) => (s.stack (.app p)).isEmpty
  | .crash .handler => true
  | .stop | .wakeForExit | .stopped => false

def PlainStep (opts : Options) (s t : State n) : Prop := ∃ l, plain s l = true ∧ step opts s l = some t

/-- The winner is up to handing over, or handles the crash itself. -/
def Pc.isOwned : Pc → Bool
  | .loadReady _ | .writeState _ | .storeWork _ | .wake _ | .process _ _ _ => true
  | .clearOwner (.handOver _) | .clearFlag (.handOver _) => true
  | .loadFlag (.fallback _) | .loadOwner (.fallback _) | .addDepth (.fallback _) | .exchangeFlag (.fallback _)
  | .storeOwner (.fallback _) | .storeDepth (.fallback _) => true
  | _ => false

/-- The winner goes on after the handler thread. -/
def Pc.isAcked : Pc → Bool
  | .loadFlag .afterAck | .loadOwner .afterAck | .addDepth .afterAck | .exchangeFlag .afterAck | .storeOwner .afterAck
  | .storeDepth .afterAck => true
  | _ => false

def Pc.isLost : Pc → Bool
  | .clearOwner .lost | .clearFlag .lost | .spin => true
  | _ => false

/-- An activation of the signal handler on the handler thread. -/
def Pc.isNested : Pc → Bool
  | .loadFlag .first | .loadOwner .first | .addDepth .first | .exchangeFlag .first | .storeOwner .first
  | .storeDepth .first => true
  | .loadPreloaded _ | .loadPreloadedReady _ | .handlerCrashed _ | .process true false _ => true
  | .reset | .storeDone | .clearOwner .cleanup | .clearFlag .cleanup | .previous => true
  | _ => false

def Pc.isMain : Pc → Bool
  | .readPipe | .loadWork | .process _ true _ | .clearWork | .writeAck | .loadExit | .exited => true
  | _ => false

/-- The handler thread is past its work. -/
def Rested (s : State n) : Prop :=
  s.g.pipe = 0 ∧ (s.stack .handler = [.readPipe] ∨ s.stack .handler = [.loadExit] ∨ s.stack .handler = [.exited])

/-! ## What a step of an activation does -/

section
variable {opts : Options} {s u : State n} {me : Thread n} {pc : Pc} {outcome : Bool} {next : Option Pc}

theorem processStage_eq (skip : Bool) (stage : Stage) :
    ∃ hooks, (processStage opts s skip stage outcome).1 = { s with history.hooks := hooks } := by
  unfold processStage
  cases stage <;> simp only <;> first | exact ⟨_, rfl⟩ | (split <;> exact ⟨_, rfl⟩)

theorem stepPc_process {skip inMain : Bool} {stage : Stage}
    (h : stepPc opts s me (.process skip inMain stage) outcome = some (u, next)) :
    (∃ hooks, u = { s with history.hooks := hooks }) ∧
      ((∃ stage', next = some (.process skip inMain stage')) ∨ inMain = true ∧ next = some .clearWork ∨
        inMain = false ∧ next = some .reset) := by
  obtain ⟨hooks, hhooks⟩ := @processStage_eq n opts s outcome skip stage
  simp only [stepPc, Option.some.injEq, Prod.mk.injEq] at h
  obtain ⟨rfl, rfl⟩ := h
  refine ⟨⟨hooks, hhooks⟩, ?_⟩
  cases (processStage opts s skip stage outcome).2 with
  | some stage' => exact .inl ⟨stage', rfl⟩
  | none => cases inMain <;> simp

/-- Where an activation goes, and what a step says of the state it goes from. -/
inductive Goes (s u : State n) (me : Thread n) : Pc → Option Pc → Prop
  | held (k : Entry) : Goes s u me (.loadFlag k) (some (.loadOwner k))
  | free (k : Entry) : Goes s u me (.loadFlag k) (some (.exchangeFlag k))
  | again (k : Entry) : s.g.handlingThread = some me → Goes s u me (.loadOwner k) (some (.addDepth k))
  | other (k : Entry) : Goes s u me (.loadOwner k) (some (.loadFlag k))
  | deeper (depth : Nat) : Goes s u me (.addDepth .first) (some (.loadPreloaded depth))
  | deeperFallback (skip : Bool) : Goes s u me (.addDepth (.fallback skip)) (some (.process skip false .start))
  | tooDeep (k : Entry) : Goes s u me (.addDepth k) (some .reset)
  | taken (k : Entry) : Goes s u me (.exchangeFlag k) (some (.loadFlag k))
  | won (k : Entry) : Goes s u me (.exchangeFlag k) (some (.storeOwner k))
  | owner (k : Entry) : Goes s u me (.storeOwner k) (some (.storeDepth k))
  | outermost : Goes s u me (.storeDepth .first) (some (.loadPreloaded 1))
  | outermostFallback (skip : Bool) : Goes s u me (.storeDepth (.fallback skip)) (some (.process skip false .start))
  | afterAck : Goes s u me (.storeDepth .afterAck) (some .reset)
  | clearOwner (k : Exit) : u.g.handlingThread = none → Goes s u me (.clearOwner k) (some (.clearFlag k))
  | lost : Goes s u me (.clearFlag .lost) (some .spin)
  | handOver (skip : Bool) : Goes s u me (.clearFlag (.handOver skip)) (some (.storeWork skip))
  | forwarded : Goes s u me (.clearFlag .forward) (some .previous)
  | cleanedUp : Goes s u me (.clearFlag .cleanup) (some .previous)
  | preloaded (depth : Nat) : Goes s u me (.loadPreloaded depth) (some (.loadPreloadedReady depth))
  | notPreloaded (depth : Nat) : Goes s u me (.loadPreloaded depth) (some (.handlerCrashed depth))
  | preloadedReady (depth : Nat) : Goes s u me (.loadPreloadedReady depth) (some (.handlerCrashed depth))
  | forward (depth : Nat) : s.g.ready = false → Goes s u me (.loadPreloadedReady depth) (some .forwardReset)
  | forwardReset : u.g.installed = false → Goes s u me .forwardReset (some .forwardConsume)
  | forwardConsume : Goes s u me .forwardConsume (some (.clearOwner .forward))
  | reset : u.g.installed = false → Goes s u me .reset (some .storeDone)
  | storeDone : Goes s u me .storeDone (some (.clearOwner .cleanup))
  | previous : Goes s u me .previous none
  | nested (depth : Nat) : s.g.ready = true → me = .handler →
      Goes s u me (.handlerCrashed depth) (some (.process true false .start))
  | dispatch (depth : Nat) : ¬(s.g.ready = true ∧ me = .handler) →
      Goes s u me (.handlerCrashed depth) (some (.swap (decide (depth ≥ 2))))
  | wins (skip : Bool) : s.g.crashState = .idle → u.history.wins = me :: s.history.wins →
      Goes s u me (.swap skip) (some (.loadReady skip))
  | loses (skip : Bool) : s.g.crashState ≠ .idle → Goes s u me (.swap skip) (some (.clearOwner .lost))
  | spin : Goes s u me .spin (some .spin)
  | returns : Goes s u me .spin none
  | ready (skip : Bool) : Goes s u me (.loadReady skip) (some (.writeState skip))
  | notReady (skip : Bool) : Goes s u me (.loadReady skip) (some (.process skip false .start))
  | writeState (skip : Bool) : Goes s u me (.writeState skip) (some (.clearOwner (.handOver skip)))
  | storeWork (skip : Bool) : Goes s u me (.storeWork skip) (some (.wake skip))
  | woken (skip : Bool) : Goes s u me (.wake skip) (some .waitAck)
  | fallback (skip : Bool) : Goes s u me (.wake skip) (some (.loadFlag (.fallback skip)))
  | acked : s.g.ack ≠ 0 ∨ s.g.ackOpen = false → Goes s u me .waitAck (some (.loadFlag .afterAck))
  | stage (skip inMain : Bool) (stage stage' : Stage) :
      Goes s u me (.process skip inMain stage) (some (.process skip inMain stage'))
  | worked (skip : Bool) (stage : Stage) : Goes s u me (.process skip true stage) (some .clearWork)
  | handled (skip : Bool) (stage : Stage) : Goes s u me (.process skip false stage) (some .reset)
  | readPipe : Goes s u me .readPipe (some .loadWork)
  | work : Goes s u me .loadWork (some (.process false true .start))
  | noWork : Goes s u me .loadWork (some .loadExit)
  | clearWork : Goes s u me .clearWork (some .writeAck)
  | wroteAck : Goes s u me .writeAck (some .loadExit)
  | lostAck : Goes s u me .writeAck (some .exited)
  | exit : Goes s u me .loadExit (some .exited)
  | stay : Goes s u me .loadExit (some .readPipe)

section
variable (h : stepPc opts s me pc outcome = some (u, next))
include h

theorem stepPc_goes : Goes s u me pc next := by
  cases pc
  case process skip inMain stage =>
    obtain ⟨-, ⟨stage', rfl⟩ | ⟨rfl, rfl⟩ | ⟨rfl, rfl⟩⟩ := stepPc_process h
    · exact .stage skip inMain stage stage'
    · exact .worked skip stage
    · exact .handled skip stage
  case addDepth k =>
    simp only [stepPc, Option.some.injEq, Prod.mk.injEq] at h
    obtain ⟨-, rfl⟩ := h
    cases k <;> simp only [entered]
    · split
      · exact .tooDeep _
      · exact .deeper _
    · split
      · exact .tooDeep _
      · exact .deeperFallback _
    · exact .tooDeep _
  case storeDepth k =>
    simp only [stepPc, Option.some.injEq, Prod.mk.injEq] at h
    obtain ⟨-, rfl⟩ := h
    cases k
    · exact .outermost
    · exact .outermostFallback _
    · exact .afterAck
  case clearFlag k =>
    simp only [stepPc, Option.some.injEq, Prod.mk.injEq] at h
    obtain ⟨-, rfl⟩ := h
    cases k <;> constructor
  all_goals
    simp only [stepPc] at h
    repeat' split at h
    all_goals
      cases h
      try split
      all_goals constructor
      all_goals simp_all

theorem stepPc_stack : u.stack = s.stack := by
  cases pc
  case process =>
    obtain ⟨⟨hooks, rfl⟩, -⟩ := stepPc_process h
    rfl
  all_goals
    simp only [stepPc] at h
    grind

theorem stepPc_ready : u.g.ready = s.g.ready := by
  cases pc
  case process =>
    obtain ⟨⟨hooks, rfl⟩, -⟩ := stepPc_process h
    rfl
  all_goals
    simp only [stepPc] at h
    grind

theorem stepPc_pipe : u.g.pipe = s.g.pipe ∨
    (∃ skip, pc = .wake skip ∧ u.g.pipe = s.g.pipe + 1 ∧ next = some .waitAck) ∨
    pc = .readPipe ∧ s.g.pipe ≠ 0 ∧ u.g.pipe = s.g.pipe - 1 ∧ next = some .loadWork := by
  cases pc
  case process =>
    obtain ⟨⟨hooks, rfl⟩, -⟩ := stepPc_process h
    exact .inl rfl
  all_goals
    simp only [stepPc] at h
    grind

theorem stepPc_crashState : u.g.crashState = s.g.crashState ∨
    (∃ skip, pc = .swap skip ∧ s.g.crashState = .idle ∧ u.g.crashState = .handling) ∨
    pc = .storeDone ∧ u.g.crashState = .done := by
  cases pc
  case process =>
    obtain ⟨⟨hooks, rfl⟩, -⟩ := stepPc_process h
    exact .inl rfl
  all_goals
    simp only [stepPc] at h
    grind

theorem stepPc_installed : u.g.installed = s.g.installed ∨ u.g.installed = false := by
  cases pc
  case process =>
    obtain ⟨⟨hooks, rfl⟩, -⟩ := stepPc_process h
    exact .inl rfl
  all_goals
    simp only [stepPc] at h
    grind

theorem stepPc_wins : u.history.wins = s.history.wins ∨
    ∃ skip, pc = .swap skip ∧ s.g.crashState = .idle ∧ u.g.crashState = .handling ∧
      u.history.wins = me :: s.history.wins ∧ next = some (.loadReady skip) := by
  cases pc
  case process =>
    obtain ⟨⟨hooks, rfl⟩, -⟩ := stepPc_process h
    exact .inl rfl
  all_goals
    simp only [stepPc] at h
    grind

theorem stepPc_writes : u.history.writes = s.history.writes ∨
    ∃ skip, pc = .writeState skip ∧ u.history.writes = (me, s.processing .handler) :: s.history.writes := by
  cases pc
  case process =>
    obtain ⟨⟨hooks, rfl⟩, -⟩ := stepPc_process h
    exact .inl rfl
  all_goals
    simp only [stepPc] at h
    grind

theorem stepPc_returns : u.history.returns = s.history.returns ∨
    pc = .spin ∧ s.g.crashState ≠ .handling ∧ u.history.returns = (!s.g.installed) :: s.history.returns := by
  cases pc
  case process =>
    obtain ⟨⟨hooks, rfl⟩, -⟩ := stepPc_process h
    exact .inl rfl
  all_goals
    simp only [stepPc] at h
    grind

theorem stepPc_ack : u.g.ack = s.g.ack ∧ u.g.ackOpen = s.g.ackOpen ∨
    pc = .waitAck ∧ (s.g.ack ≠ 0 ∨ s.g.ackOpen = false) ∧ u.g.ackOpen = s.g.ackOpen ∨
    pc = .writeAck ∧ (next = some .loadExit ∨ next = some .exited) := by
  cases pc
  case process =>
    obtain ⟨⟨hooks, rfl⟩, -⟩ := stepPc_process h
    exact .inl ⟨rfl, rfl⟩
  all_goals
    simp only [stepPc] at h
    grind

/-- An application thread owns the crash from the swap on. -/
theorem stepPc_owned {p : Fin n} (hme : me = .app p) {pc' : Pc} (hnext : next = some pc') (howned : pc'.isOwned = true) :
    pc.isOwned = true ∨ pc.isMain = true ∨ ∃ skip, pc = .swap skip ∧ s.g.crashState = .idle ∧
      u.history.wins = me :: s.history.wins := by
  subst hnext
  cases stepPc_goes h
  case wins skip hidle hwins => exact .inr (.inr ⟨skip, rfl, hidle, hwins⟩)
  case nested hhandler => cases hme.symm.trans hhandler
  all_goals first
    | exact Bool.noConfusion howned
    | exact .inl rfl
    | exact .inr (.inl rfl)
    | (rename_i k; cases k <;> first | exact Bool.noConfusion howned | exact .inl rfl)
    | (rename_i k _; cases k <;> first | exact Bool.noConfusion howned | exact .inl rfl)

theorem stepPc_waitAck (hnext : next = some .waitAck) : ∃ skip, pc = .wake skip := by
  subst hnext
  cases stepPc_goes h with
  | woken skip => exact ⟨skip, rfl⟩

theorem stepPc_acked {pc' : Pc} (hnext : next = some pc') (hacked : pc'.isAcked = true) :
    pc.isAcked = true ∨ pc = .waitAck ∧ (s.g.ack ≠ 0 ∨ s.g.ackOpen = false) := by
  subst hnext
  cases stepPc_goes h
  case acked hack => exact .inr ⟨rfl, hack⟩
  all_goals first
    | exact Bool.noConfusion hacked
    | (rename_i k; cases k <;> first | exact Bool.noConfusion hacked | exact .inl rfl)
    | (rename_i k _; cases k <;> first | exact Bool.noConfusion hacked | exact .inl rfl)

theorem stepPc_lost {pc' : Pc} (hnext : next = some pc') (hlost : pc'.isLost = true) :
    pc.isLost = true ∨ ∃ skip, pc = .swap skip ∧ s.g.crashState ≠ .idle := by
  subst hnext
  cases stepPc_goes h
  case loses skip hne => exact .inr ⟨skip, rfl, hne⟩
  all_goals first
    | exact Bool.noConfusion hlost
    | exact .inl rfl
    | (rename_i k _; cases k <;> first | exact Bool.noConfusion hlost | exact .inl rfl)

theorem stepPc_storeDone (hnext : next = some .storeDone) : u.g.installed = false := by
  subst hnext
  cases stepPc_goes h with
  | reset hgone => exact hgone

theorem stepPc_not_main {pc' : Pc} (hnext : next = some pc') (hmain : pc'.isMain = true) : pc.isMain = true := by
  subst hnext
  cases stepPc_goes h
  case stage inMain _ _ => cases inMain <;> first | rfl | exact Bool.noConfusion hmain
  all_goals first
    | exact Bool.noConfusion hmain
    | rfl

/-- An activation of the signal handler on the handler thread stays one or returns. -/
theorem stepPc_nested (hme : me = .handler) (hready : s.g.ready = true) (hnested : pc.isNested = true) :
    next = none ∨ ∃ pc', next = some pc' ∧ pc'.isNested = true := by
  cases stepPc_goes h
  case stage skip inMain _ _ =>
    exact .inr ⟨_, rfl, by cases skip <;> cases inMain <;> first | rfl | exact Bool.noConfusion hnested⟩
  case forward _ hnot => cases hready.symm.trans hnot
  case dispatch _ hnot => exact absurd ⟨hready, hme⟩ hnot
  all_goals first
    | exact .inl rfl
    | exact .inr ⟨_, rfl, rfl⟩
    | exact Bool.noConfusion hnested
    | (rename_i k; cases k <;> first | exact Bool.noConfusion hnested | exact .inr ⟨_, rfl, rfl⟩)
    | (rename_i k _; cases k <;> first | exact Bool.noConfusion hnested | exact .inr ⟨_, rfl, rfl⟩)

theorem stepPc_main (hmain : pc.isMain = true) : ∃ pc', next = some pc' ∧ pc'.isMain = true := by
  cases stepPc_goes h
  case stage inMain _ _ => exact ⟨_, rfl, by cases inMain <;> first | rfl | exact Bool.noConfusion hmain⟩
  all_goals first
    | exact Bool.noConfusion hmain
    | exact ⟨_, rfl, rfl⟩

end

end

/-! ## The end of the waiting -/

/-- Who has lost waits for DONE, and DONE comes after the previous handlers. -/
structure WaitInv (s : State n) : Prop where
  ready : s.g.ready = true
  lost : ∀ t, ∀ pc ∈ s.stack t, pc.isLost = true → s.g.crashState ≠ .idle
  done : s.g.crashState = .done → s.g.installed = false
  storing : ∀ t, .storeDone ∈ s.stack t → s.g.installed = false
  returns : ∀ r ∈ s.history.returns, r = true

theorem mem_put {s : State n} {t r : Thread n} {stack : List Pc} {pc : Pc} (h : pc ∈ (s.put t stack).stack r) :
    r = t ∧ pc ∈ stack ∨ r ≠ t ∧ pc ∈ s.stack r := by
  by_cases hr : r = t
  · subst hr
    exact .inl ⟨rfl, by simpa [State.put] using h⟩
  · exact .inr ⟨hr, by simpa [State.put, hr] using h⟩

/-- What runs after a step of a thread: the next of its activation, or what was there before. -/
theorem mem_run {s u : State n} {t r : Thread n} {pc pc' : Pc} {rest : List Pc} {next : Option Pc}
    (hu : u.stack = s.stack) (ht : s.stack t = pc :: rest) (h : pc' ∈ (u.put t (next.toList ++ rest)).stack r) :
    r = t ∧ next = some pc' ∨ pc' ∈ s.stack r := by
  obtain ⟨rfl, hmem⟩ | ⟨-, hmem⟩ := mem_put h
  · obtain hmem | hmem := List.mem_append.mp hmem
    · exact .inl ⟨rfl, Option.mem_toList.mp hmem⟩
    · right
      rw [ht]
      exact List.mem_cons_of_mem _ hmem
  · right
    rw [← hu]
    exact hmem

theorem WaitInv.run {opts : Options} {s u : State n} (h : WaitInv s) {me : Thread n} {pc : Pc} {rest : List Pc}
    {outcome : Bool} {next : Option Pc} (hstack : s.stack me = pc :: rest)
    (hstep : stepPc opts s me pc outcome = some (u, next)) : WaitInv (u.put me (next.toList ++ rest)) := by
  have hpc : pc ∈ s.stack me := by
    rw [hstack]
    exact List.mem_cons_self
  have hidle : s.g.crashState ≠ .idle → u.g.crashState ≠ .idle := by
    intro hne
    obtain heq | ⟨_, -, -, heq⟩ | ⟨-, heq⟩ := stepPc_crashState hstep <;> rw [heq]
    · exact hne
    · simp
    · simp
  have hgone : s.g.installed = false → u.g.installed = false := by
    intro hfalse
    obtain heq | heq := stepPc_installed hstep
    · rw [heq, hfalse]
    · exact heq
  exact {
    ready := (stepPc_ready hstep).trans h.ready
    lost := by
      intro r pc' hmem hlost
      apply hidle
      obtain ⟨-, hnext⟩ | hold := mem_run (stepPc_stack hstep) hstack hmem
      · obtain hlost | ⟨_, -, hne⟩ := stepPc_lost hstep hnext hlost
        · exact h.lost me pc hpc hlost
        · exact hne
      · exact h.lost r pc' hold hlost
    done := by
      intro hdone
      obtain heq | ⟨_, -, -, heq⟩ | ⟨rfl, -⟩ := stepPc_crashState hstep
      · exact hgone (h.done (heq ▸ hdone))
      · rw [show u.g.crashState = .done from hdone] at heq
        cases heq
      · exact hgone (h.storing me hpc)
    storing := by
      intro r hmem
      obtain ⟨-, hnext⟩ | hold := mem_run (stepPc_stack hstep) hstack hmem
      · show u.g.installed = false
        exact stepPc_storeDone hstep hnext
      · exact hgone (h.storing r hold)
    returns := by
      intro b hb
      obtain heq | ⟨rfl, hhandling, heq⟩ := stepPc_returns hstep
      · exact h.returns b (heq ▸ hb)
      · rw [show (u.put me (next.toList ++ rest)).history.returns = _ from heq] at hb
        obtain rfl | hb := List.mem_cons.mp hb
        · have hdone : s.g.crashState = .done := by
            have hidle := h.lost me .spin hpc rfl
            cases hstate : s.g.crashState with
            | idle => exact absurd hstate hidle
            | handling => exact absurd hstate hhandling
            | done => rfl
          rw [h.done hdone]
          rfl
        · exact h.returns b hb }

theorem WaitInv.crash {s : State n} (h : WaitInv s) (t : Thread n) : WaitInv (s.put t (.loadFlag .first :: s.stack t)) := by
  have hold : ∀ r pc, pc ∈ (s.put t (.loadFlag .first :: s.stack t)).stack r → pc = .loadFlag .first ∨ pc ∈ s.stack r := by
    intro r pc hmem
    obtain ⟨rfl, hmem⟩ | ⟨-, hmem⟩ := mem_put hmem
    · exact List.mem_cons.mp hmem
    · exact .inr hmem
  exact {
    ready := h.ready
    lost := by
      intro r pc hmem hlost
      obtain rfl | hmem := hold r pc hmem
      · cases hlost
      · exact h.lost r pc hmem hlost
    done := h.done
    storing := by
      intro r hmem
      obtain heq | hmem := hold r _ hmem
      · cases heq
      · exact h.storing r hmem
    returns := h.returns }

/-! ## The hand-over -/

/-- Nothing has reached the handler thread. -/
structure Untouched (s : State n) : Prop where
  pipe : s.g.pipe = 0
  handler : s.stack .handler = [.readPipe]
  ack : s.g.ack = 0
  ackOpen : s.g.ackOpen = true

/-- The winner has the crash to itself until it has woken the handler thread. -/
structure HandInv (s : State n) : Prop where
  single : ∀ p, (s.stack (.app p)).length ≤ 1
  shape : ∃ pre m, s.stack .handler = pre ++ [m] ∧ m.isMain = true ∧ ∀ pc ∈ pre, pc.isNested = true
  app : ∀ p, ∀ pc ∈ s.stack (.app p), pc.isMain = false
  wins : s.history.wins = [] ∧ Untouched s ∨ ∃ p, s.history.wins = [.app p] ∧ s.g.crashState ≠ .idle
  pipe : s.g.pipe = 0 ∨ s.g.pipe = 1 ∧ s.stack .handler = [.readPipe]
  owned : ∀ p, ∀ pc ∈ s.stack (.app p), pc.isOwned = true → s.history.wins = [.app p] ∧ Untouched s
  waits : ∀ p, .waitAck ∈ s.stack (.app p) → s.history.wins = [.app p]
  acked : ∀ p, ∀ pc ∈ s.stack (.app p), pc.isAcked = true → s.history.wins = [.app p] ∧ Rested s
  ack : s.g.ack ≠ 0 ∨ s.g.ackOpen = false → Rested s
  writes : ∀ w ∈ s.history.writes, s.history.wins = [w.1] ∧ w.2 = false

theorem not_processing {s : State n} (h : s.stack .handler = [.readPipe]) : s.processing .handler = false := by
  simp [State.processing, h, Pc.isProcess]

theorem HandInv.run_app {opts : Options} {s u : State n} (h : HandInv s) {p : Fin n} {pc : Pc}
    {rest : List Pc} {outcome : Bool} {next : Option Pc} (hstack : s.stack (.app p) = pc :: rest)
    (hstep : stepPc opts s (.app p) pc outcome = some (u, next)) : HandInv (u.put (.app p) (next.toList ++ rest)) := by
  obtain rfl : rest = [] := by
    have hlength := h.single p
    rw [hstack] at hlength
    simpa using hlength
  have hpc : pc ∈ s.stack (.app p) := by
    rw [hstack]
    exact List.mem_cons_self
  have hmain := h.app p pc hpc
  have hstay := stepPc_stack hstep
  have hhandler : (u.put (.app p) (next.toList ++ [])).stack .handler = s.stack .handler := by
    simp [State.put, hstay]
  have hothers : ∀ q, q ≠ p → (u.put (.app p) (next.toList ++ [])).stack (.app q) = s.stack (.app q) := by
    intro q hq
    simp [State.put, hq, hstay]
  have hmine : ∀ pc', pc' ∈ (u.put (.app p) (next.toList ++ [])).stack (.app p) → next = some pc' := by
    intro pc' hmem
    simpa [State.put] using hmem
  have hown : pc.isOwned = true → s.history.wins = [.app p] ∧ Untouched s := h.owned p pc hpc
  have hpipe : u.g.pipe = s.g.pipe ∨ pc.isOwned = true ∧ u.g.pipe = s.g.pipe + 1 ∧ next = some .waitAck := by
    obtain heq | ⟨skip, rfl, hwake⟩ | ⟨rfl, -⟩ := stepPc_pipe hstep
    · exact .inl heq
    · exact .inr ⟨rfl, hwake⟩
    · cases hmain
  have hack : u.g.ack = s.g.ack ∧ u.g.ackOpen = s.g.ackOpen ∨ pc = .waitAck ∧ (s.g.ack ≠ 0 ∨ s.g.ackOpen = false) := by
    obtain heq | ⟨hwaits, hack, -⟩ | ⟨rfl, -⟩ := stepPc_ack hstep
    · exact .inl heq
    · exact .inr ⟨hwaits, hack⟩
    · cases hmain
  have hwins : u.history.wins = s.history.wins ∨
      s.history.wins = [] ∧ Untouched s ∧ u.history.wins = [.app p] ∧ u.g.crashState ≠ .idle ∧ u.g.pipe = s.g.pipe ∧
        u.g.ack = s.g.ack ∧ u.g.ackOpen = s.g.ackOpen := by
    obtain heq | ⟨skip, rfl, hidle, hhandling, hwins, -⟩ := stepPc_wins hstep
    · exact .inl heq
    · obtain ⟨hnone, hquiet⟩ | ⟨_, -, hne⟩ := h.wins
      · refine .inr ⟨hnone, hquiet, by rw [hwins, hnone], by rw [hhandling]; simp, ?_⟩
        obtain hp | ⟨hp, -⟩ := hpipe
        · obtain ⟨ha, ho⟩ | ⟨ha, -⟩ := hack
          · exact ⟨hp, ha, ho⟩
          · cases ha
        · cases hp
      · exact absurd hidle hne
  have hkeep : ∀ t, s.history.wins = [t] → u.history.wins = [t] := by
    intro t ht
    obtain heq | ⟨hnone, -⟩ := hwins
    · rw [heq, ht]
    · rw [hnone] at ht
      cases ht
  -- a step that is not the winner's own leaves the handler thread as it was
  have hquiet : Untouched s → (pc.isOwned = true → next ≠ some .waitAck) →
      Untouched (u.put (.app p) (next.toList ++ [])) := by
    intro hs hnext
    refine ⟨?_, hhandler.trans hs.handler, ?_, ?_⟩
    · obtain heq | ⟨howned, -, hwaits⟩ := hpipe
      · exact heq.trans hs.pipe
      · exact absurd hwaits (hnext howned)
    · obtain ⟨heq, -⟩ | ⟨-, hack | hopen⟩ := hack
      · exact heq.trans hs.ack
      · exact absurd hs.ack hack
      · rw [hs.ackOpen] at hopen
        cases hopen
    · obtain ⟨-, heq⟩ | ⟨-, hack | hopen⟩ := hack
      · exact heq.trans hs.ackOpen
      · exact absurd hs.ack hack
      · rw [hs.ackOpen] at hopen
        cases hopen
  have hrested : Rested s → pc.isOwned = false → Rested (u.put (.app p) (next.toList ++ [])) := by
    intro hs howned
    refine ⟨?_, by rw [hhandler]; exact hs.2⟩
    obtain heq | ⟨howned', -⟩ := hpipe
    · exact heq.trans hs.1
    · rw [howned'] at howned
      cases howned
  have hnotowned : ∀ q, q ≠ p → s.history.wins = [.app q] → pc.isOwned = false := by
    intro q hq hwins
    by_contra howned
    have hp := (hown (by simpa using howned)).1
    rw [hp] at hwins
    cases hwins
    exact hq rfl
  exact {
    single := by
      intro q
      by_cases hq : q = p
      · subst hq
        simp only [State.put, Function.update_self, List.append_nil]
        cases next <;> simp
      · rw [hothers q hq]
        exact h.single q
    shape := by
      rw [hhandler]
      exact h.shape
    app := by
      intro q pc' hmem
      by_cases hq : q = p
      · subst hq
        by_contra hmain'
        rw [stepPc_not_main hstep (hmine pc' hmem) (by simpa using hmain')] at hmain
        cases hmain
      · rw [hothers q hq] at hmem
        exact h.app q pc' hmem
    wins := by
      obtain heq | ⟨-, -, hwins, hne, -⟩ := hwins
      · obtain ⟨hnone, hs⟩ | ⟨q, hq, hne⟩ := h.wins
        · refine .inl ⟨heq.trans hnone, hquiet hs ?_⟩
          intro howned
          rw [(hown howned).1] at hnone
          cases hnone
        · refine .inr ⟨q, heq.trans hq, ?_⟩
          obtain heq | ⟨_, -, -, heq⟩ | ⟨-, heq⟩ := stepPc_crashState hstep
          · rw [show (u.put (.app p) (next.toList ++ [])).g.crashState = s.g.crashState from heq]
            exact hne
          · rw [show (u.put (.app p) (next.toList ++ [])).g.crashState = .handling from heq]
            simp
          · rw [show (u.put (.app p) (next.toList ++ [])).g.crashState = .done from heq]
            simp
      · exact .inr ⟨p, hwins, hne⟩
    pipe := by
      rw [hhandler]
      obtain heq | ⟨howned, heq, -⟩ := hpipe
      · rw [show (u.put (.app p) (next.toList ++ [])).g.pipe = s.g.pipe from heq]
        exact h.pipe
      · obtain ⟨-, hs⟩ := hown howned
        refine .inr ⟨?_, hs.handler⟩
        rw [show (u.put (.app p) (next.toList ++ [])).g.pipe = s.g.pipe + 1 from heq, hs.pipe]
    owned := by
      intro q pc' hmem howned
      by_cases hq : q = p
      · subst hq
        have hnext := hmine pc' hmem
        have hnotwait : next ≠ some .waitAck := by
          rintro hwait
          rw [hnext] at hwait
          cases hwait
          cases howned
        obtain howned' | hmain' | ⟨skip, rfl, hidle, hwins'⟩ := stepPc_owned hstep rfl hnext howned
        · obtain ⟨hw, hs⟩ := hown howned'
          exact ⟨hkeep _ hw, hquiet hs (fun _ => hnotwait)⟩
        · rw [hmain'] at hmain
          cases hmain
        · obtain ⟨hnone, hs⟩ | ⟨_, -, hne⟩ := h.wins
          · exact ⟨by rw [show (u.put (.app q) (next.toList ++ [])).history.wins = _ from hwins', hnone],
              hquiet hs (fun _ => hnotwait)⟩
          · exact absurd hidle hne
      · rw [hothers q hq] at hmem
        obtain ⟨hw, hs⟩ := h.owned q pc' hmem howned
        refine ⟨hkeep _ hw, hquiet hs ?_⟩
        intro howned'
        rw [hnotowned q hq hw] at howned'
        cases howned'
    waits := by
      intro q hmem
      by_cases hq : q = p
      · subst hq
        obtain ⟨skip, rfl⟩ := stepPc_waitAck hstep (hmine _ hmem)
        exact hkeep _ (hown rfl).1
      · rw [hothers q hq] at hmem
        exact hkeep _ (h.waits q hmem)
    acked := by
      intro q pc' hmem hacked
      by_cases hq : q = p
      · subst hq
        obtain hacked' | ⟨rfl, hack'⟩ := stepPc_acked hstep (hmine pc' hmem) hacked
        · obtain ⟨hw, hs⟩ := h.acked q pc hpc hacked'
          refine ⟨hkeep _ hw, hrested hs ?_⟩
          cases pc <;> first | rfl | cases hacked' | (rename_i k; cases k <;> first | rfl | cases hacked')
        · exact ⟨hkeep _ (h.waits q hpc), hrested (h.ack hack') rfl⟩
      · rw [hothers q hq] at hmem
        obtain ⟨hw, hs⟩ := h.acked q pc' hmem hacked
        exact ⟨hkeep _ hw, hrested hs (hnotowned q hq hw)⟩
    ack := by
      intro hacks
      obtain ⟨hsame, hopen⟩ | ⟨rfl, hack'⟩ := hack
      · have hold : s.g.ack ≠ 0 ∨ s.g.ackOpen = false := by
          rw [← hsame, ← hopen]
          exact hacks
        apply hrested (h.ack hold)
        by_contra howned
        obtain ⟨-, hs⟩ := hown (by simpa using howned)
        obtain hne | hclosed := hold
        · exact hne hs.ack
        · rw [hs.ackOpen] at hclosed
          cases hclosed
      · exact hrested (h.ack hack') rfl
    writes := by
      intro w hw
      obtain heq | ⟨skip, rfl, heq⟩ := stepPc_writes hstep
      · obtain ⟨hwin, hno⟩ := h.writes w (heq ▸ hw)
        exact ⟨hkeep _ hwin, hno⟩
      · rw [show (u.put (.app p) (next.toList ++ [])).history.writes = _ from heq] at hw
        obtain rfl | hw := List.mem_cons.mp hw
        · obtain ⟨hwin, hs⟩ := hown rfl
          exact ⟨hkeep _ hwin, not_processing hs.handler⟩
        · obtain ⟨hwin, hno⟩ := h.writes w hw
          exact ⟨hkeep _ hwin, hno⟩ }

theorem stepPc_readPipe {opts : Options} {s : State n} {me : Thread n} {outcome : Bool} (hpipe : s.g.pipe = 0) :
    stepPc opts s me .readPipe outcome = none := by
  simp [stepPc, hpipe]

theorem HandInv.run_handler {opts : Options} {s u : State n} (h : HandInv s) (hwait : WaitInv s) {pc : Pc}
    {rest : List Pc} {outcome : Bool} {next : Option Pc} (hstack : s.stack .handler = pc :: rest)
    (hstep : stepPc opts s .handler pc outcome = some (u, next)) : HandInv (u.put .handler (next.toList ++ rest)) := by
  have hkind : pc.isMain = true ∧ rest = [] ∨ pc.isNested = true := by
    obtain ⟨pre, m, hshape, hm, hpre⟩ := h.shape
    rw [hstack] at hshape
    cases pre with
    | nil =>
      rw [List.nil_append, List.cons.injEq] at hshape
      exact .inl ⟨hshape.1 ▸ hm, hshape.2⟩
    | cons k pre =>
      rw [List.cons_append, List.cons.injEq] at hshape
      exact .inr (hshape.1 ▸ hpre k List.mem_cons_self)
  have hoff : pc.isMain = false → pc.isNested = false → False := by
    intro hm hn
    obtain ⟨hm', -⟩ | hn' := hkind
    · rw [hm'] at hm
      cases hm
    · rw [hn'] at hn
      cases hn
  have happ : ∀ p, (u.put .handler (next.toList ++ rest)).stack (.app p) = s.stack (.app p) := by
    intro p
    simp [State.put, stepPc_stack hstep]
  have hwins : u.history.wins = s.history.wins := by
    obtain heq | ⟨skip, rfl, -⟩ := stepPc_wins hstep
    · exact heq
    · exact (hoff rfl rfl).elim
  have hpipe : u.g.pipe = s.g.pipe ∨ u.g.pipe = 0 := by
    obtain heq | ⟨skip, rfl, -⟩ | ⟨rfl, hne, heq, -⟩ := stepPc_pipe hstep
    · exact .inl heq
    · exact (hoff rfl rfl).elim
    · obtain hzero | ⟨hone, -⟩ := h.pipe
      · exact absurd hzero hne
      · right
        omega
  have hnotuntouched : ¬Untouched s := by
    intro hs
    rw [hs.handler, List.cons.injEq] at hstack
    rw [← hstack.1, stepPc_readPipe hs.pipe] at hstep
    cases hstep
  have hrested : Rested s → Rested (u.put .handler (next.toList ++ rest)) := by
    rintro ⟨hzero, hread | hexit | hexited⟩
    · rw [hread, List.cons.injEq] at hstack
      rw [← hstack.1, stepPc_readPipe hzero] at hstep
      cases hstep
    · rw [hexit, List.cons.injEq] at hstack
      obtain ⟨rfl, rfl⟩ := hstack
      simp only [stepPc, Option.some.injEq, Prod.mk.injEq] at hstep
      obtain ⟨rfl, rfl⟩ := hstep
      refine ⟨hzero, ?_⟩
      simp only [State.put, Function.update_self]
      split <;> simp
    · rw [hexited, List.cons.injEq] at hstack
      rw [← hstack.1] at hstep
      cases hstep
  exact {
    single := by
      intro p
      rw [happ]
      exact h.single p
    shape := by
      obtain ⟨pre, m, hshape, hm, hpre⟩ := h.shape
      rw [hstack] at hshape
      simp only [State.put, Function.update_self]
      cases pre with
      | nil =>
        rw [List.nil_append, List.cons.injEq] at hshape
        obtain ⟨rfl, rfl⟩ := hshape
        obtain ⟨pc', rfl, hm'⟩ := stepPc_main hstep hm
        exact ⟨[], pc', rfl, hm', by simp⟩
      | cons k pre =>
        rw [List.cons_append, List.cons.injEq] at hshape
        obtain ⟨rfl, rfl⟩ := hshape
        have hpre' : ∀ pc ∈ pre, pc.isNested = true := fun pc hmem => hpre pc (List.mem_cons_of_mem _ hmem)
        obtain rfl | ⟨pc', rfl, hn⟩ := stepPc_nested hstep rfl hwait.ready (hpre _ List.mem_cons_self)
        · exact ⟨pre, m, rfl, hm, hpre'⟩
        · refine ⟨pc' :: pre, m, rfl, hm, ?_⟩
          intro pc hmem
          obtain rfl | hmem := List.mem_cons.mp hmem
          · exact hn
          · exact hpre' pc hmem
    app := by
      intro p pc' hmem
      rw [happ] at hmem
      exact h.app p pc' hmem
    wins := by
      obtain ⟨-, hs⟩ | ⟨p, hp, hne⟩ := h.wins
      · exact absurd hs hnotuntouched
      · refine .inr ⟨p, hwins.trans hp, ?_⟩
        obtain heq | ⟨_, -, -, heq⟩ | ⟨-, heq⟩ := stepPc_crashState hstep
        · rw [show (u.put .handler (next.toList ++ rest)).g.crashState = s.g.crashState from heq]
          exact hne
        · rw [show (u.put .handler (next.toList ++ rest)).g.crashState = .handling from heq]
          simp
        · rw [show (u.put .handler (next.toList ++ rest)).g.crashState = .done from heq]
          simp
    pipe := by
      left
      obtain heq | hzero := hpipe
      · obtain hzero | ⟨hone, hread⟩ := h.pipe
        · exact heq.trans hzero
        · rw [hread, List.cons.injEq] at hstack
          obtain ⟨rfl, -⟩ := hstack
          obtain heq' | ⟨_, hwake, -⟩ | ⟨-, -, heq', -⟩ := stepPc_pipe hstep
          · simp only [stepPc, hone] at hstep
            simp only [Option.some.injEq, Prod.mk.injEq, ne_eq, Nat.one_ne_zero, not_false_iff, if_true] at hstep
            rw [← hstep.1]
            rfl
          · cases hwake
          · show u.g.pipe = 0
            omega
      · exact hzero
    owned := by
      intro p pc' hmem howned
      rw [happ] at hmem
      exact absurd (h.owned p pc' hmem howned).2 hnotuntouched
    waits := by
      intro p hmem
      rw [happ] at hmem
      exact hwins.trans (h.waits p hmem)
    acked := by
      intro p pc' hmem hacked
      rw [happ] at hmem
      obtain ⟨hw, hs⟩ := h.acked p pc' hmem hacked
      exact ⟨hwins.trans hw, hrested hs⟩
    ack := by
      intro hacks
      obtain ⟨hsame, hopen⟩ | ⟨rfl, -⟩ | ⟨rfl, hnext⟩ := stepPc_ack hstep
      · apply hrested
        apply h.ack
        rw [← hsame, ← hopen]
        exact hacks
      · exact (hoff rfl rfl).elim
      · obtain ⟨-, rfl⟩ | hn := hkind
        · have hzero : s.g.pipe = 0 := by
            obtain hzero | ⟨-, hread⟩ := h.pipe
            · exact hzero
            · rw [hstack] at hread
              cases hread
          refine ⟨?_, ?_⟩
          · obtain heq | heq := hpipe
            · exact heq.trans hzero
            · exact heq
          · simp only [State.put, Function.update_self]
            obtain rfl | rfl := hnext <;> simp
        · cases hn
    writes := by
      intro w hw
      obtain heq | ⟨skip, rfl, -⟩ := stepPc_writes hstep
      · obtain ⟨hwin, hno⟩ := h.writes w (heq ▸ hw)
        exact ⟨hwins.trans hwin, hno⟩
      · exact (hoff rfl rfl).elim }

/-- The handler thread crashes in the work it was woken for. -/
theorem HandInv.crash_handler {s : State n} (h : HandInv s) {pc : Pc} {rest : List Pc} (hstack : s.stack .handler = pc :: rest)
    (hprocess : pc.isProcess = true) : HandInv (s.put .handler (.loadFlag .first :: s.stack .handler)) := by
  have hbusy : ∀ pc', pc'.isProcess = false → s.stack .handler ≠ [pc'] := by
    intro pc' hpc' heq
    rw [hstack, List.cons.injEq] at heq
    rw [heq.1, hpc'] at hprocess
    cases hprocess
  have happ : ∀ p, (s.put .handler (.loadFlag .first :: s.stack .handler)).stack (.app p) = s.stack (.app p) := by
    intro p
    simp [State.put]
  have hnotuntouched : ¬Untouched s := fun hs => hbusy .readPipe rfl hs.handler
  have hnotrested : ¬Rested s := by
    rintro ⟨-, hread | hexit | hexited⟩
    · exact hbusy .readPipe rfl hread
    · exact hbusy .loadExit rfl hexit
    · exact hbusy .exited rfl hexited
  exact {
    single := fun p => (happ p).symm ▸ h.single p
    shape := by
      obtain ⟨pre, m, hshape, hm, hpre⟩ := h.shape
      refine ⟨.loadFlag .first :: pre, m, ?_, hm, ?_⟩
      · simp [State.put, hshape]
      · intro pc' hmem
        obtain rfl | hmem := List.mem_cons.mp hmem
        · rfl
        · exact hpre pc' hmem
    app := fun p pc' hmem => h.app p pc' (happ p ▸ hmem)
    wins := by
      obtain ⟨-, hs⟩ | hwins := h.wins
      · exact absurd hs hnotuntouched
      · exact .inr hwins
    pipe := by
      obtain hzero | ⟨-, hread⟩ := h.pipe
      · exact .inl hzero
      · exact absurd hread (hbusy .readPipe rfl)
    owned := fun p pc' hmem howned => absurd (h.owned p pc' (happ p ▸ hmem) howned).2 hnotuntouched
    waits := fun p hmem => h.waits p (happ p ▸ hmem)
    acked := fun p pc' hmem hacked => absurd (h.acked p pc' (happ p ▸ hmem) hacked).2 hnotrested
    ack := fun hacks => absurd (h.ack hacks) hnotrested
    writes := h.writes }

theorem HandInv.crash_app {s : State n} (h : HandInv s) {p : Fin n} (hstack : s.stack (.app p) = []) :
    HandInv (s.put (.app p) (.loadFlag .first :: s.stack (.app p))) := by
  have hhandler : (s.put (.app p) (.loadFlag .first :: s.stack (.app p))).stack .handler = s.stack .handler := by
    simp [State.put]
  have hmem : ∀ q pc, pc ∈ (s.put (.app p) (.loadFlag .first :: s.stack (.app p))).stack (.app q) →
      pc = .loadFlag .first ∨ pc ∈ s.stack (.app q) := by
    intro q pc hmem
    obtain ⟨hq, hmem⟩ | ⟨-, hmem⟩ := mem_put hmem
    · rw [hstack] at hmem
      exact .inl (List.mem_singleton.mp hmem)
    · exact .inr hmem
  have hquiet : Untouched s → Untouched (s.put (.app p) (.loadFlag .first :: s.stack (.app p))) := fun hs =>
    ⟨hs.pipe, hhandler.trans hs.handler, hs.ack, hs.ackOpen⟩
  have hrested : Rested s → Rested (s.put (.app p) (.loadFlag .first :: s.stack (.app p))) := fun hs =>
    ⟨hs.1, by rw [hhandler]; exact hs.2⟩
  exact {
    single := by
      intro q
      by_cases hq : q = p
      · subst hq
        simp [State.put, hstack]
      · simpa [State.put, hq] using h.single q
    shape := by
      rw [hhandler]
      exact h.shape
    app := by
      intro q pc hpc
      obtain rfl | hpc := hmem q pc hpc
      · rfl
      · exact h.app q pc hpc
    wins := by
      obtain ⟨hnone, hs⟩ | hwins := h.wins
      · exact .inl ⟨hnone, hquiet hs⟩
      · exact .inr hwins
    pipe := by
      rw [hhandler]
      exact h.pipe
    owned := by
      intro q pc hpc howned
      obtain rfl | hpc := hmem q pc hpc
      · cases howned
      · obtain ⟨hw, hs⟩ := h.owned q pc hpc howned
        exact ⟨hw, hquiet hs⟩
    waits := by
      intro q hpc
      obtain heq | hpc := hmem q _ hpc
      · cases heq
      · exact h.waits q hpc
    acked := by
      intro q pc hpc hacked
      obtain rfl | hpc := hmem q pc hpc
      · cases hacked
      · obtain ⟨hw, hs⟩ := h.acked q pc hpc hacked
        exact ⟨hw, hrested hs⟩
    ack := fun hacks => hrested (h.ack hacks)
    writes := h.writes }

/-! ## Runs -/

theorem inv_step {opts : Options} {s t : State n} (h : WaitInv s ∧ HandInv s) (hstep : PlainStep opts s t) :
    WaitInv t ∧ HandInv t := by
  obtain ⟨hwait, hhand⟩ := h
  obtain ⟨l, hplain, hstep⟩ := hstep
  cases l with
  | run me outcome =>
    unfold step runThread at hstep
    simp only at hstep
    split at hstep
    · cases hstep
    · rename_i pc rest hstack
      obtain ⟨⟨u, next⟩, hpc, rfl⟩ := Option.map_eq_some_iff.mp hstep
      refine ⟨hwait.run hstack hpc, ?_⟩
      cases me with
      | app p => exact hhand.run_app hstack hpc
      | handler => exact hhand.run_handler hwait hstack hpc
  | crash me =>
    unfold step at hstep
    simp only at hstep
    split at hstep
    · rename_i hcrash
      cases hstep
      refine ⟨hwait.crash me, ?_⟩
      cases me with
      | app p => exact hhand.crash_app (by simpa [plain] using hplain)
      | handler =>
        simp only [Bool.and_eq_true, crashes] at hcrash
        cases hstack : s.stack .handler with
        | nil =>
          obtain ⟨pre, m, hshape, -⟩ := hhand.shape
          rw [hstack] at hshape
          simp at hshape
        | cons pc rest =>
          rw [hstack] at hcrash
          exact hstack ▸ hhand.crash_handler hstack hcrash.2
    · cases hstep
  | stop => cases hplain
  | wakeForExit => cases hplain
  | stopped => cases hplain

theorem inv_start (preloaded : Bool) : WaitInv (start true preloaded : State n) ∧ HandInv (start true preloaded : State n) := by
  constructor
  · exact {
      ready := rfl
      lost := by
        intro t pc hmem hlost
        cases t with
        | app p => cases hmem
        | handler =>
          rw [List.mem_singleton.mp hmem] at hlost
          cases hlost
      done := fun hdone => by cases hdone
      storing := by
        intro t hmem
        cases t with
        | app p => cases hmem
        | handler => cases List.mem_singleton.mp hmem
      returns := fun _ hr => by cases hr }
  · exact {
      single := fun _ => Nat.zero_le _
      shape := ⟨[], .readPipe, rfl, rfl, by simp⟩
      app := fun _ _ hmem => by cases hmem
      wins := .inl ⟨rfl, rfl, rfl, rfl, rfl⟩
      pipe := .inl rfl
      owned := fun _ _ hmem => by cases hmem
      waits := fun _ hmem => by cases hmem
      acked := fun _ _ hmem => by cases hmem
      ack := by
        rintro (hack | hopen)
        · exact absurd rfl hack
        · cases hopen
      writes := fun _ hw => by cases hw }

theorem isOwned_of_isProcess {pc : Pc} (h : pc.isProcess = true) : pc.isOwned = true := by
  cases pc <;> first | rfl | cases h

/-- One application thread at most takes the crash; it alone writes the hand-over, never while
the handler thread works on it; one thread at a time processes a crash; who lost returns with
the previous handlers back; and the winner goes on after the handler thread when that is done. -/
theorem one_crash_through {opts : Options} {preloaded : Bool} {s : State n}
    (h : Reachable (· = start true preloaded) (PlainStep opts) s) :
    (s.history.wins = [] ∨ ∃ p, s.history.wins = [.app p]) ∧
      (∀ w ∈ s.history.writes, s.history.wins = [w.1] ∧ w.2 = false) ∧
      (∀ t r, s.processing t = true → s.processing r = true → t = r) ∧
      (∀ b ∈ s.history.returns, b = true) ∧
      ∀ p, ∀ pc ∈ s.stack (.app p), pc.isAcked = true → s.history.wins = [.app p] ∧ s.processing .handler = false := by
  obtain ⟨hwait, hhand⟩ : WaitInv s ∧ HandInv s :=
    h.invariant (fun _ hs => hs ▸ inv_start preloaded) (fun _ _ hs hstep => inv_step hs hstep)
  have happ : ∀ p, s.processing (.app p) = true → s.history.wins = [.app p] ∧ Untouched s := by
    intro p hp
    obtain ⟨pc, hmem, hpc⟩ := List.any_eq_true.mp hp
    exact hhand.owned p pc hmem (isOwned_of_isProcess hpc)
  refine ⟨?_, hhand.writes, ?_, hwait.returns, ?_⟩
  · exact hhand.wins.imp (·.1) (fun ⟨p, hp, _⟩ => ⟨p, hp⟩)
  · intro t r ht hr
    cases t with
    | app p =>
      obtain ⟨hp, hs⟩ := happ p ht
      cases r with
      | app q => exact List.head_eq_of_cons_eq (hp.symm.trans (happ q hr).1)
      | handler =>
        rw [not_processing hs.handler] at hr
        cases hr
    | handler =>
      cases r with
      | app q =>
        rw [not_processing (happ q hr).2.handler] at ht
        cases ht
      | handler => rfl
  · intro p pc hmem hacked
    obtain ⟨hw, -, hread | hexit | hexited⟩ := hhand.acked p pc hmem hacked
    · exact ⟨hw, not_processing hread⟩
    · exact ⟨hw, by simp [State.processing, hexit, Pc.isProcess]⟩
    · exact ⟨hw, by simp [State.processing, hexited, Pc.isProcess]⟩

def stepPlain (opts : Options) (s : State n) (l : Label n) : Option (State n) :=
  if plain s l = true then step opts s l else none

theorem stepPlain_cases (opts : Options) (s : State n) (l : Label n) (t : State n) (h : stepPlain opts s l = some t) :
    PlainStep opts s t := by
  unfold stepPlain at h
  split at h
  · exact ⟨l, ‹_›, h⟩
  · cases h

def noHooks : Options := ⟨false, false, false, false, false⟩

/-- Two threads crash, the first hands over, the handler thread crashes in its work and handles
that itself, and the second returns. -/
theorem one_crash_through_two : ∃ s : State 2, (s.history.wins = [.app 0] ∧ s.history.returns = [true] ∧
    s.history.writes = [(.app 0, false)]) ∧ ∀ b ∈ s.history.returns, b = true := by
  have hrun : (run (stepPlain noHooks) (start true false : State 2)
      ([.crash (.app 0), .crash (.app 1)] ++ List.replicate 13 (.run (.app 0) true) ++
        List.replicate 9 (.run (.app 1) true) ++ List.replicate 3 (.run .handler true) ++ [.crash .handler] ++
        List.replicate 14 (.run .handler true) ++ [.run (.app 1) true])).map
      (fun s => (s.history.wins, s.history.returns, s.history.writes)) = some ([.app 0], [true], [(.app 0, false)]) := by
    decide +kernel
  obtain ⟨s, hs, hfacts⟩ := Option.map_eq_some_iff.mp hrun
  simp only [Prod.mk.injEq] at hfacts
  exact ⟨s, hfacts, (one_crash_through (Reachable.of_run (stepPlain_cases noHooks) (.start rfl) hs)).2.2.2.1⟩

end SentryNative.Inproc
