import SentryNative.Inproc.HandlerRuns

/-!
# A crash while a crash is handled

The handler thread that crashes in its work handles that crash itself, without hooks. Here the
handler thread may also be absent or leave.
-/

namespace SentryNative.Inproc

open Machine

variable {n : Nat}

/-- A hook that `skip_hooks` does not hold back is not set or not due. -/
def hookless (opts : Options) (outcome : Bool) : Pc → Bool
  | .process true _ .screenshot => !(opts.attachScreenshot && opts.beforeScreenshot)
  | .process true _ .transaction => !(outcome && opts.beforeTransaction)
  | _ => true

def Step (opts : Options) (s t : State n) : Prop := ∃ l, step opts s l = some t

/-- An activation of an application thread is its first one. -/
def Pc.isFirst : Pc → Bool
  | .addDepth _ => false
  | .loadPreloaded depth | .loadPreloadedReady depth | .handlerCrashed depth => depth = 1
  | .swap skip | .loadReady skip | .writeState skip | .storeWork skip | .wake skip => !skip
  | .process skip inMain _ => !skip && !inMain
  | .clearOwner (.handOver skip) | .clearFlag (.handOver skip) => !skip
  | .loadFlag (.fallback skip) | .loadOwner (.fallback skip) | .exchangeFlag (.fallback skip)
  | .storeOwner (.fallback skip) | .storeDepth (.fallback skip) => !skip
  | .readPipe | .loadWork | .clearWork | .writeAck | .loadExit | .exited => false
  | _ => true

/-- The activation has published its thread as the handling one. -/
def Pc.isInside : Pc → Bool
  | .storeDepth _ | .loadPreloaded _ | .loadPreloadedReady _ | .forwardReset | .forwardConsume | .reset | .storeDone
  | .handlerCrashed _ | .swap _ | .loadReady _ | .writeState _ | .process _ _ _ | .clearOwner _ => true
  | _ => false

/-- What the winner does after the swap. -/
def Pc.isAfterSwap : Pc → Bool
  | .waitAck | .reset | .storeDone | .clearOwner .cleanup | .clearFlag .cleanup | .previous => true
  | pc => pc.isOwned || pc.isAcked

/-- The previous handlers are back. -/
def Pc.isOver : Pc → Bool
  | .storeDone | .clearOwner .cleanup | .clearFlag .cleanup | .previous | .forwardConsume | .clearOwner .forward
  | .clearFlag .forward => true
  | _ => false

section
variable {opts : Options} {s u : State n} {me : Thread n} {pc : Pc} {outcome : Bool} {next : Option Pc}
  (h : stepPc opts s me pc outcome = some (u, next))
include h

theorem stepPc_handlingThread : u.g.handlingThread = s.g.handlingThread ∨ u.g.handlingThread = none ∨
    ∃ k, pc = .storeOwner k ∧ u.g.handlingThread = some me ∧ next = some (.storeDepth k) := by
  cases pc
  case process =>
    obtain ⟨⟨hooks, rfl⟩, -⟩ := stepPc_process h
    exact .inl rfl
  all_goals
    simp only [stepPc] at h
    grind

theorem stepPc_inside (hinside : pc.isInside = true) (hfirst : pc.isFirst = true) :
    u.g.handlingThread = none ∨ ∃ pc', next = some pc' ∧ pc'.isInside = true := by
  cases stepPc_goes h
  case clearOwner hnone => exact .inl hnone
  case worked => simp [Pc.isFirst] at hfirst
  all_goals first
    | exact Bool.noConfusion hinside
    | exact Bool.noConfusion hfirst
    | exact .inr ⟨_, rfl, rfl⟩

theorem stepPc_first {p : Fin n} (hme : me = .app p) (howner : s.g.handlingThread = some me → pc.isInside = true)
    (hfirst : pc.isFirst = true) {pc' : Pc} (hnext : next = some pc') : pc'.isFirst = true := by
  subst hnext
  cases stepPc_goes h
  case again howned => cases howner howned
  case nested hhandler => cases hme.symm.trans hhandler
  case dispatch depth _ =>
    obtain rfl : depth = 1 := by simpa [Pc.isFirst] using hfirst
    rfl
  case worked => simp [Pc.isFirst] at hfirst
  all_goals first
    | exact Bool.noConfusion hfirst
    | rfl
    | exact hfirst
    | (rename_i k; cases k <;> first | exact Bool.noConfusion hfirst | rfl | exact hfirst)
    | (rename_i k _; cases k <;> first | exact Bool.noConfusion hfirst | rfl | exact hfirst)

theorem stepPc_afterSwap (hafter : pc.isAfterSwap = true) (hfirst : pc.isFirst = true) {pc' : Pc} (hnext : next = some pc') :
    pc'.isAfterSwap = true := by
  subst hnext
  cases stepPc_goes h
  case worked => simp [Pc.isFirst] at hfirst
  all_goals first
    | exact Bool.noConfusion hafter
    | exact Bool.noConfusion hfirst
    | rfl
    | (rename_i k; cases k <;> first | exact Bool.noConfusion hafter | rfl)
    | (rename_i k _; cases k <;> first | exact Bool.noConfusion hafter | rfl)

theorem stepPc_over {pc' : Pc} (hnext : next = some pc') (hover : pc'.isOver = true) :
    pc.isOver = true ∨ u.g.installed = false := by
  subst hnext
  cases stepPc_goes h
  all_goals first
    | exact Bool.noConfusion hover
    | exact .inl rfl
    | exact .inr ‹_›
    | (rename_i k _; cases k <;> first | exact Bool.noConfusion hover | exact .inl rfl)

theorem stepPc_return (hafter : pc.isAfterSwap = true) (hnext : next = none) : pc.isOver = true := by
  subst hnext
  cases stepPc_goes h with
  | previous => rfl
  | returns => exact Bool.noConfusion hafter

theorem stepPc_hooks (hhookless : hookless opts outcome pc = true) : u.history.hooks = s.history.hooks ∨
    ∃ hook, u.history.hooks = (hook, false) :: s.history.hooks := by
  cases pc
  case process skip inMain stage =>
    simp only [stepPc, Option.some.injEq, Prod.mk.injEq] at h
    obtain ⟨rfl, -⟩ := h
    cases skip <;> cases stage <;> simp only [processStage, hookless, Bool.not_eq_true'] at hhookless ⊢ <;>
      grind [invoke]
  all_goals
    simp only [stepPc] at h
    grind

end

/-! ## Nesting happens on the handler thread only -/

structure NestInv (s : State n) : Prop where
  single : ∀ p, (s.stack (.app p)).length ≤ 1
  first : ∀ p, ∀ pc ∈ s.stack (.app p), pc.isFirst = true
  owner : ∀ p, s.g.handlingThread = some (.app p) → ∃ pc ∈ s.stack (.app p), pc.isInside = true
  shape : ∃ pre m, s.stack .handler = pre ++ [m] ∧ m.isMain = true ∧ ∀ pc ∈ pre, pc.isNested = true
  ready : s.g.ready = false → s.stack .handler = [.exited]
  won : ∀ p, .app p ∈ s.history.wins →
    (∀ pc ∈ s.stack (.app p), pc.isAfterSwap = true) ∧ (s.stack (.app p) = [] → s.g.installed = false)
  finished : ∀ t, ∀ pc ∈ s.stack t, pc.isOver = true → s.g.installed = false
  hooks : ∀ h ∈ s.history.hooks, h.2 = false

section
variable {opts : Options} {s u : State n} {outcome : Bool} {next : Option Pc} {pc : Pc} {rest : List Pc}

theorem NestInv.over_run (h : NestInv s) {me : Thread n} (hstack : s.stack me = pc :: rest)
    (hstep : stepPc opts s me pc outcome = some (u, next)) :
    ∀ t, ∀ pc' ∈ (u.put me (next.toList ++ rest)).stack t, pc'.isOver = true → u.g.installed = false := by
  intro t pc' hmem hover
  have hgone : s.g.installed = false → u.g.installed = false := by
    intro hfalse
    obtain heq | heq := stepPc_installed hstep
    · rw [heq, hfalse]
    · exact heq
  obtain ⟨-, hnext⟩ | hold := mem_run (stepPc_stack hstep) hstack hmem
  · obtain hover' | hfalse := stepPc_over hstep hnext hover
    · exact hgone (h.finished me pc (by rw [hstack]; exact List.mem_cons_self) hover')
    · exact hfalse
  · exact hgone (h.finished t pc' hold hover)

theorem NestInv.hooks_run (h : NestInv s) {me : Thread n} (hhookless : hookless opts outcome pc = true)
    (hstep : stepPc opts s me pc outcome = some (u, next)) : ∀ k ∈ u.history.hooks, k.2 = false := by
  intro k hk
  obtain heq | ⟨hook, heq⟩ := stepPc_hooks hstep hhookless
  · exact h.hooks k (heq ▸ hk)
  · rw [heq] at hk
    obtain rfl | hk := List.mem_cons.mp hk
    · rfl
    · exact h.hooks k hk

theorem NestInv.run_app (h : NestInv s) {p : Fin n} (hstack : s.stack (.app p) = pc :: rest)
    (hhookless : hookless opts outcome pc = true) (hstep : stepPc opts s (.app p) pc outcome = some (u, next)) :
    NestInv (u.put (.app p) (next.toList ++ rest)) := by
  have hover := h.over_run hstack hstep
  have hhooks := h.hooks_run hhookless hstep
  obtain rfl : rest = [] := by
    have hlength := h.single p
    rw [hstack] at hlength
    simpa using hlength
  have hpc : pc ∈ s.stack (.app p) := by
    rw [hstack]
    exact List.mem_cons_self
  have hfirst := h.first p pc hpc
  have hstay := stepPc_stack hstep
  have hhandler : (u.put (.app p) (next.toList ++ [])).stack .handler = s.stack .handler := by
    simp [State.put, hstay]
  have hothers : ∀ q, q ≠ p → (u.put (.app p) (next.toList ++ [])).stack (.app q) = s.stack (.app q) := by
    intro q hq
    simp [State.put, hq, hstay]
  have hmine : (u.put (.app p) (next.toList ++ [])).stack (.app p) = next.toList := by
    simp [State.put]
  have hinside : s.g.handlingThread = some (.app p) → pc.isInside = true := by
    intro howner
    obtain ⟨pc', hmem, hin⟩ := h.owner p howner
    rw [hstack] at hmem
    rwa [List.mem_singleton.mp hmem] at hin
  have hgone : s.g.installed = false → u.g.installed = false := by
    intro hfalse
    obtain heq | heq := stepPc_installed hstep
    · rw [heq, hfalse]
    · exact heq
  exact {
    single := by
      intro q
      by_cases hq : q = p
      · subst hq
        rw [hmine]
        cases next <;> simp
      · rw [hothers q hq]
        exact h.single q
    first := by
      intro q pc' hmem
      by_cases hq : q = p
      · subst hq
        rw [hmine] at hmem
        exact stepPc_first hstep rfl hinside hfirst (Option.mem_toList.mp hmem)
      · rw [hothers q hq] at hmem
        exact h.first q pc' hmem
    owner := by
      intro q howner
      obtain heq | hnone | ⟨k, rfl, hme, hnext⟩ := stepPc_handlingThread hstep
      · by_cases hq : q = p
        · subst hq
          rw [hmine]
          obtain hnone | ⟨pc', hnext, hin⟩ := stepPc_inside hstep (hinside (heq ▸ howner)) hfirst
          · rw [show u.g.handlingThread = some (.app q) from howner] at hnone
            cases hnone
          · exact ⟨pc', Option.mem_toList.mpr hnext, hin⟩
        · rw [hothers q hq]
          exact h.owner q (heq ▸ howner)
      · rw [show u.g.handlingThread = some (.app q) from howner] at hnone
        cases hnone
      · obtain rfl : q = p := by
          rw [show u.g.handlingThread = some (.app q) from howner] at hme
          cases hme
          rfl
        rw [hmine]
        exact ⟨_, Option.mem_toList.mpr hnext, rfl⟩
    shape := by
      rw [hhandler]
      exact h.shape
    ready := by
      intro hready
      rw [hhandler]
      exact h.ready ((stepPc_ready hstep).symm.trans hready)
    won := by
      intro q hwon
      by_cases hq : q = p
      · subst hq
        rw [hmine]
        obtain heq | ⟨skip, rfl, -, -, -, hnext⟩ := stepPc_wins hstep
        · have hafter := (h.won q (heq ▸ hwon)).1 pc hpc
          constructor
          · intro pc' hmem
            exact stepPc_afterSwap hstep hafter hfirst (Option.mem_toList.mp hmem)
          · intro hempty
            have hnone : next = none := by
              cases next with
              | none => rfl
              | some pc' => cases hempty
            exact hgone (h.finished (.app q) pc hpc (stepPc_return hstep hafter hnone))
        · rw [hnext]
          refine ⟨?_, fun hempty => by cases hempty⟩
          intro pc' hmem
          rw [List.mem_singleton.mp hmem]
          rfl
      · rw [hothers q hq]
        have hold : .app q ∈ s.history.wins := by
          obtain heq | ⟨skip, -, -, -, heq, -⟩ := stepPc_wins hstep
          · exact heq ▸ hwon
          · rw [show (u.put (.app p) (next.toList ++ [])).history.wins = _ from heq] at hwon
            obtain hsame | hwon := List.mem_cons.mp hwon
            · cases hsame
              exact absurd rfl hq
            · exact hwon
        exact ⟨(h.won q hold).1, fun hempty => hgone ((h.won q hold).2 hempty)⟩
    finished := hover
    hooks := hhooks }

theorem NestInv.run_handler (h : NestInv s) (hstack : s.stack .handler = pc :: rest)
    (hhookless : hookless opts outcome pc = true) (hstep : stepPc opts s .handler pc outcome = some (u, next)) :
    NestInv (u.put .handler (next.toList ++ rest)) := by
  have happ : ∀ p, (u.put .handler (next.toList ++ rest)).stack (.app p) = s.stack (.app p) := by
    intro p
    simp [State.put, stepPc_stack hstep]
  have hhooks := h.hooks_run hhookless hstep
  have hsame := stepPc_ready hstep
  have hready : s.g.ready = true := by
    by_contra hno
    have hexited := h.ready (by simpa using hno)
    rw [hstack, List.cons.injEq] at hexited
    rw [hexited.1] at hstep
    cases hstep
  have hshape : ∃ pre m, next.toList ++ rest = pre ++ [m] ∧ m.isMain = true ∧ ∀ pc ∈ pre, pc.isNested = true := by
    obtain ⟨pre, m, hshape, hm, hpre⟩ := h.shape
    rw [hstack] at hshape
    cases pre with
    | nil =>
      rw [List.nil_append, List.cons.injEq] at hshape
      obtain ⟨rfl, rfl⟩ := hshape
      obtain ⟨pc', rfl, hm'⟩ := stepPc_main hstep hm
      exact ⟨[], pc', rfl, hm', by simp⟩
    | cons k pre =>
      rw [List.cons_append, List.cons.injEq] at hshape
      obtain ⟨rfl, rfl⟩ := hshape
      have hpre' : ∀ pc ∈ pre, pc.isNested = true := fun pc hmem => hpre pc (List.mem_cons_of_mem _ hmem)
      obtain rfl | ⟨pc', rfl, hn⟩ := stepPc_nested hstep rfl hready (hpre _ List.mem_cons_self)
      · exact ⟨pre, m, rfl, hm, hpre'⟩
      · refine ⟨pc' :: pre, m, rfl, hm, ?_⟩
        intro pc hmem
        obtain rfl | hmem := List.mem_cons.mp hmem
        · exact hn
        · exact hpre' pc hmem
  have hkind : pc.isMain = true ∨ pc.isNested = true := by
    obtain ⟨pre, m, hshape, hm, hpre⟩ := h.shape
    rw [hstack] at hshape
    cases pre with
    | nil => exact .inl ((List.cons.inj hshape).1 ▸ hm)
    | cons k pre => exact .inr ((List.cons.inj hshape).1 ▸ hpre k List.mem_cons_self)
  have hwins : u.history.wins = s.history.wins := by
    obtain heq | ⟨skip, rfl, -⟩ := stepPc_wins hstep
    · exact heq
    · obtain hm | hn := hkind
      · cases hm
      · cases hn
  have hgone : s.g.installed = false → u.g.installed = false := by
    intro hfalse
    obtain heq | heq := stepPc_installed hstep
    · rw [heq, hfalse]
    · exact heq
  exact {
    single := fun p => (happ p).symm ▸ h.single p
    first := fun p pc' hmem => h.first p pc' (happ p ▸ hmem)
    owner := by
      intro p howner
      rw [happ]
      obtain heq | hnone | ⟨k, -, hme, -⟩ := stepPc_handlingThread hstep
      · exact h.owner p (heq ▸ howner)
      · rw [show u.g.handlingThread = some (.app p) from howner] at hnone
        cases hnone
      · rw [show u.g.handlingThread = some (.app p) from howner] at hme
        cases hme
    shape := by
      simp only [State.put, Function.update_self]
      exact hshape
    ready := by
      intro hno
      rw [show (u.put .handler (next.toList ++ rest)).g.ready = s.g.ready from hsame, hready] at hno
      cases hno
    won := by
      intro p hwon
      rw [happ]
      obtain ⟨hafter, hempty⟩ := h.won p (hwins ▸ hwon)
      exact ⟨hafter, fun he => hgone (hempty he)⟩
    finished := h.over_run hstack hstep
    hooks := hhooks }

theorem NestInv.crash_app (h : NestInv s) {p : Fin n} (hinstalled : s.g.installed = true) (hstack : s.stack (.app p) = []) :
    NestInv (s.put (.app p) (.loadFlag .first :: s.stack (.app p))) := by
  have hhandler : (s.put (.app p) (.loadFlag .first :: s.stack (.app p))).stack .handler = s.stack .handler := by
    simp [State.put]
  have hothers : ∀ q, q ≠ p → (s.put (.app p) (.loadFlag .first :: s.stack (.app p))).stack (.app q) = s.stack (.app q) := by
    intro q hq
    simp [State.put, hq]
  have hmine : (s.put (.app p) (.loadFlag .first :: s.stack (.app p))).stack (.app p) = [.loadFlag .first] := by
    simp [State.put, hstack]
  exact {
    single := by
      intro q
      by_cases hq : q = p
      · subst hq
        rw [hmine]
        exact Nat.le_refl _
      · rw [hothers q hq]
        exact h.single q
    first := by
      intro q pc hmem
      by_cases hq : q = p
      · subst hq
        rw [hmine] at hmem
        rw [List.mem_singleton.mp hmem]
        rfl
      · rw [hothers q hq] at hmem
        exact h.first q pc hmem
    owner := by
      intro q howner
      obtain ⟨pc, hmem, hin⟩ := h.owner q howner
      by_cases hq : q = p
      · subst hq
        rw [hstack] at hmem
        cases hmem
      · rw [hothers q hq]
        exact ⟨pc, hmem, hin⟩
    shape := by
      rw [hhandler]
      exact h.shape
    ready := by
      rw [hhandler]
      exact h.ready
    won := by
      intro q hwon
      by_cases hq : q = p
      · subst hq
        have hgone := (h.won q hwon).2 hstack
        rw [hinstalled] at hgone
        cases hgone
      · rw [hothers q hq]
        exact h.won q hwon
    finished := by
      intro t pc hmem hover
      obtain ⟨-, hnew⟩ | ⟨-, hold⟩ := mem_put hmem
      · rw [hstack] at hnew
        rw [List.mem_singleton.mp hnew] at hover
        cases hover
      · exact h.finished t pc hold hover
    hooks := h.hooks }

theorem NestInv.crash_handler (h : NestInv s) (hstack : s.stack .handler = pc :: rest) (hprocess : pc.isProcess = true) :
    NestInv (s.put .handler (.loadFlag .first :: s.stack .handler)) := by
  have happ : ∀ p, (s.put .handler (.loadFlag .first :: s.stack .handler)).stack (.app p) = s.stack (.app p) := by
    intro p
    simp [State.put]
  exact {
    single := fun p => (happ p).symm ▸ h.single p
    first := fun p pc' hmem => h.first p pc' (happ p ▸ hmem)
    owner := by
      intro p howner
      rw [happ]
      exact h.owner p howner
    shape := by
      obtain ⟨pre, m, hshape, hm, hpre⟩ := h.shape
      refine ⟨.loadFlag .first :: pre, m, ?_, hm, ?_⟩
      · simp [State.put, hshape]
      · intro pc' hmem
        obtain rfl | hmem := List.mem_cons.mp hmem
        · rfl
        · exact hpre pc' hmem
    ready := by
      intro hready
      have hexited := h.ready hready
      rw [hstack, List.cons.injEq] at hexited
      rw [hexited.1] at hprocess
      cases hprocess
    won := by
      intro p hwon
      rw [happ]
      exact h.won p hwon
    finished := by
      intro t pc' hmem hover
      obtain ⟨rfl, hmem⟩ | ⟨-, hmem⟩ := mem_put hmem
      · obtain rfl | hmem := List.mem_cons.mp hmem
        · cases hover
        · exact h.finished .handler pc' hmem hover
      · exact h.finished t pc' hmem hover
    hooks := h.hooks }

end

end SentryNative.Inproc
