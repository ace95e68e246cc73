import SentryNative.Batcher.RingFlush

/-!
# Waiting for a flush

`sentry__batcher_force_flush_wait` and the last flush of `sentry__batcher_shutdown` on top of the
ring. The first spins until it gets a flush through that returns true; the second flushes once and
does not look at the result.

* `Careful`: a step at which no flush gives up on its buffer and the last flush is not turned away;
* `flush_has_flushed`: in a run of such steps a flush that returns true has flushed.
-/

namespace SentryNative.Batcher

open Machine

/-- A thread in one of the two functions, with the flush it has called. -/
inductive Waiter where
  | idle
  | spin
  | flush (call : Nat)
  | waited
  | lastFlush (call : Nat)
  | stopped
  deriving DecidableEq, Repr

structure Waiting where
  ring : State
  waiter : Nat → Waiter

def Waiting.zero : Waiting := ⟨.zero, fun _ => .idle⟩

def Waiting.begin (u : Waiting) (i call : Nat) (w : Waiter) : Waiting :=
  ⟨u.ring.goto call (.lock false), set u.waiter i w⟩

variable (c : Config)

inductive WaitStep : Waiting → Waiting → Prop where
  | ring (u : Waiting) (t : State) : Step c u.ring t → WaitStep u { u with ring := t }
  -- sentry__batcher_force_flush_wait
  | forceFlush (u : Waiting) (i : Nat) : u.waiter i = .idle →
      WaitStep u { u with waiter := set u.waiter i .spin }
  | free (u : Waiting) (i call : Nat) : u.waiter i = .spin → u.ring.flushing = false →
      u.ring.pc call = .idle → WaitStep u (u.begin i call (.flush call))
  | retry (u : Waiting) (i call : Nat) : u.waiter i = .flush call → u.ring.pc call = .flushed false →
      WaitStep u { u with waiter := set u.waiter i .spin }
  | waited (u : Waiting) (i call : Nat) : u.waiter i = .flush call → u.ring.pc call = .flushed true →
      WaitStep u { u with waiter := set u.waiter i .waited }
  -- the end of sentry__batcher_shutdown
  | shutdown (u : Waiting) (i call : Nat) : u.waiter i = .idle → u.ring.pc call = .idle →
      WaitStep u (u.begin i call (.lastFlush call))
  | stopped (u : Waiting) (i call : Nat) (ok : Bool) : u.waiter i = .lastFlush call →
      u.ring.pc call = .flushed ok → WaitStep u { u with waiter := set u.waiter i .stopped }

/-- The last flush of a shutdown is about to find another flush in progress. -/
def TurnedAway (u : Waiting) (call : Nat) : Prop :=
  (∃ i, u.waiter i = .lastFlush call) ∧ u.ring.pc call = .lock false ∧ u.ring.flushing = true

/-- A step at which no flush gives up on its buffer and no last flush is turned away. -/
def Careful (u v : Waiting) : Prop :=
  WaitStep c u v ∧ (∀ x, GivesUp u.ring x → v.ring.pc x = u.ring.pc x) ∧
    ∀ x, TurnedAway u x → v.ring.pc x = u.ring.pc x

/-- An item that was passed to `process_batch` and is in no buffer that the last release drains. -/
structure Gone (s : State) (w : Nat) : Prop where
  handed : some w ∈ s.batches.flatten
  left : ∀ b, some w ∉ held c s b

variable {c} {s t : State} {u v : Waiting} {W : Nat → Prop} {B x : Nat}

/-! ## Items of generations that were handed out -/

theorem Inv.gone (h : Inv c s) {w g i : Nat} (hi : (s.claims g)[i]? = some w) (hg : g < s.taken) :
    Gone c s w := by
  have m := h.memory
  refine ⟨?_, fun b hb => ?_⟩
  · rw [m.batches]
    have hmem := List.mem_of_getElem? hi
    refine List.mem_flatten.mpr ⟨(s.claims g).map some, ?_, List.mem_map_of_mem hmem⟩
    refine List.mem_filter.mpr ⟨List.mem_map_of_mem (List.mem_range.mpr hg), ?_⟩
    simp [List.ne_nil_of_mem hmem]
  · obtain ⟨j, hj, hjw⟩ := List.mem_map.mp hb
    have hlive := h.live_of_index (b := b) (by have := List.mem_range.mp hj; omega)
    have hsame := m.unique _ _ _ _ w hi (slotItem_claimed hjw)
    have := hlive.taken_le
    omega

theorem Handed.gone (hd : Handed W s) (ha : Accepted W B s) (h : Inv c s) {w : Nat} (hw : W w) :
    Gone c s w := by
  obtain ⟨g, i, hi⟩ := h.placed w (by rw [ha.returned w hw]; rfl)
  exact h.gone hi (hd w hw g i hi)

/-- What is accepted in a state is in generations up to the active one. -/
theorem Inv.accepted (h : Inv c s) : Accepted (fun w => s.pc w = .returned true) s.gen s where
  returned := fun _ hw => hw
  bound := fun w _ g i hi => by
    by_contra hn
    rw [h.memory.claims_future g (by omega)] at hi
    simp at hi
  gen := Nat.le_refl _

/-! ## The last flush is not turned away -/

/-- A flush that has the lock or is about to ask for it, or has flushed. -/
def Pc.onWay : Pc → Bool
  | .lock false | .flushed true => true
  | p => p.critical

theorem onWay_rotate (fi : Nat) (stage : RotateStage) (a : Nat) :
    ((rotateStep c s x (.flush fi) a stage).pc x).onWay = true := by
  have hafter (r : Bool) : (afterRotate (.flush fi) a r).onWay = true := by cases r <;> rfl
  cases stage with
  | sealOld => simp only [rotateStep, State.goto, set_same]; rfl
  | failed => simp only [rotateStep, State.goto, set_same]; exact hafter _
  | swap =>
    simp only [rotateStep]
    split
    · simp only [State.goto, set_same]; exact hafter true
    · simp only [State.goto, set_same]; rfl
  | sealedNew | indexNew | addingNew =>
    simp only [rotateStep, State.goto, set_same]
    split <;> rfl

theorem onWay_next (hn : next c s x = some t) (hp : (s.pc x).onWay = true)
    (hlock : ¬ (s.pc x = .lock false ∧ s.flushing = true)) : (t.pc x).onWay = true := by
  unfold Batcher.next at hn
  cases hx : s.pc x <;>
    simp only [hx, Option.some.injEq, reduceCtorEq, Pc.onWay, Pc.critical, Bool.false_eq_true] at hn hp
  case lock b =>
    cases b with
    | true => simp [Pc.onWay, Pc.critical] at hp
    | false =>
      have hfree : s.flushing = false := by simpa [hx] using hlock
      rw [if_pos hfree] at hn
      cases hn
      simp only [State.goto, set_same]
      rfl
  case rotate k stage a =>
    cases k with
    | flush fi => exact hn ▸ onWay_rotate fi stage a
    | last => simp at hp
    | full => simp at hp
  case waitAdding fi d =>
    split at hn
    · cases hn
      simp only [State.goto, set_same]
      rfl
    · cases hn
  case readSealed fi d =>
    subst hn
    simp only [State.goto, set_same]
    split <;> rfl
  case readIndex fi d a =>
    subst hn
    simp only [State.goto, set_same]
    split
    · rfl
    · split <;> rfl
  all_goals
    subst hn
    first
    | rfl
    | (simp only [State.goto, takeStep, set_same]; rfl)

/-! ## Runs -/

/-- What the flush of a waiter knows, and what the waiter knows once it has returned. -/
def WaiterOk (c : Config) (W : Nat → Prop) (B : Nat) (s : State) : Waiter → Prop
  | .flush call => Through c W B s (s.pc call)
  | .lastFlush call => Through c W B s (s.pc call) ∧ (s.pc call).onWay = true
  | .waited | .stopped => Handed W s
  | _ => True

/-- What a run of careful steps keeps, from the state on in which the items of `W` were accepted, for
the flushes of `X` and the waiters of `I`, which have not begun there. -/
structure WaitInv (c : Config) (W : Nat → Prop) (B : Nat) (X I : Nat → Prop) (u : Waiting) : Prop where
  inv : Inv c u.ring
  accepted : Accepted W B u.ring
  through : ∀ x, X x → Through c W B u.ring (u.ring.pc x)
  waiter : ∀ i, I i → WaiterOk c W B u.ring (u.waiter i)
  lastFlush : ∀ j call, u.waiter j = .lastFlush call → (u.ring.pc call).onWay = true

variable {X I : Nat → Prop}

/-- The ring moves, and the waiters do not. -/
theorem WaitInv.ring (h : WaitInv c W B X I u) (hs : Served c u.ring t)
    (hturned : ∀ y, TurnedAway u y → t.pc y = u.ring.pc y) :
    WaitInv c W B X I { u with ring := t } := by
  have hway : ∀ j call, u.waiter j = .lastFlush call → (t.pc call).onWay = true := by
    intro j call hj
    have hold := h.lastFlush j call hj
    obtain ⟨y, adv, hmove⟩ := advances_step hs.1
    by_cases hy : call = y
    · subst hy
      by_cases hlock : u.ring.pc call = .lock false ∧ u.ring.flushing = true
      · rw [hturned call ⟨⟨j, hj⟩, hlock⟩]
        exact hold
      · rcases hmove with hn | ⟨-, hn | hn⟩
        · exact onWay_next hn hold hlock
        · rw [hn] at hold; cases hold
        · rw [hn] at hold; cases hold
    · rw [adv.others call hy]
      exact hold
  refine ⟨h.inv.step hs.1, h.accepted.step h.inv hs.1,
    fun x hx => (h.through x hx).step h.inv h.accepted hs, fun i hi => ?_, hway⟩
  have hw := h.waiter i hi
  dsimp only
  cases hwi : u.waiter i with
  | flush call =>
    rw [hwi] at hw
    exact Through.step hw h.inv h.accepted hs
  | lastFlush call =>
    rw [hwi] at hw
    exact ⟨Through.step hw.1 h.inv h.accepted hs, hway i call hwi⟩
  | waited =>
    rw [hwi] at hw
    exact Handed.step hw h.accepted h.inv hs.1
  | stopped =>
    rw [hwi] at hw
    exact Handed.step hw h.accepted h.inv hs.1
  | idle => trivial
  | spin => trivial

/-- A waiter changes, and the ring does not. -/
theorem WaitInv.waits (h : WaitInv c W B X I u) (j : Nat) (w : Waiter)
    (hw : I j → WaiterOk c W B u.ring w) (hlast : ∀ call, w ≠ .lastFlush call) :
    WaitInv c W B X I { u with waiter := set u.waiter j w } := by
  refine ⟨h.inv, h.accepted, h.through, fun i hi => ?_, fun k call hk => ?_⟩
  · by_cases hij : i = j
    · subst hij; simp only [set_same]; exact hw hi
    · simp only [set_ne _ hij]; exact h.waiter i hi
  · by_cases hkj : k = j
    · subst hkj
      simp only [set_same] at hk
      exact absurd hk (hlast call)
    · simp only [set_ne _ hkj] at hk
      exact h.lastFlush k call hk

/-- A waiter calls a flush. -/
theorem WaitInv.begin (h : WaitInv c W B X I u) (j call : Nat) (w : Waiter)
    (hidle : u.ring.pc call = .idle) (hw : w = .flush call ∨ w = .lastFlush call) :
    WaitInv c W B X I (u.begin j call w) := by
  have hkept (y : Nat) (hy : u.ring.pc y ≠ .idle) :
      (u.ring.goto call (.lock false)).pc y = u.ring.pc y := by
    refine set_ne _ ?_ _
    rintro rfl
    exact hy hidle
  have hr := h.ring (t := u.ring.goto call (.lock false))
    ⟨.flush u.ring call false hidle, fun y ⟨fi, hpc, _⟩ => hkept y (by rw [hpc]; simp)⟩
    fun y ⟨_, hpc, _⟩ => hkept y (by rw [hpc]; simp)
  refine ⟨hr.inv, hr.accepted, hr.through, fun i hi => ?_, fun k called hk => ?_⟩
  · by_cases hij : i = j
    · subst hij
      simp only [Waiting.begin, set_same]
      rcases hw with rfl | rfl
      · simp only [WaiterOk, State.goto, set_same]; trivial
      · simp only [WaiterOk, State.goto, set_same]; exact ⟨trivial, rfl⟩
    · simp only [Waiting.begin, set_ne _ hij]; exact hr.waiter i hi
  · by_cases hkj : k = j
    · subst hkj
      simp only [Waiting.begin, set_same] at hk
      rcases hw with rfl | rfl
      · cases hk
      · cases hk
        simp only [Waiting.begin, State.goto, set_same]
        rfl
    · simp only [Waiting.begin, set_ne _ hkj] at hk
      exact hr.lastFlush k called hk

theorem WaitInv.step (h : WaitInv c W B X I u) (hs : Careful c u v) : WaitInv c W B X I v := by
  obtain ⟨hstep, hgive, hturned⟩ := hs
  cases hstep with
  | ring t ht => exact h.ring ⟨ht, hgive⟩ hturned
  | forceFlush j hj => exact h.waits j .spin (fun _ => trivial) (by simp)
  | free j call hj hf hidle => exact h.begin j call _ hidle (.inl rfl)
  | retry j call hj hf => exact h.waits j .spin (fun _ => trivial) (by simp)
  | waited j call hj hf =>
    refine h.waits j .waited (fun hi => ?_) (by simp)
    have hw := h.waiter j hi
    simp only [hj, WaiterOk, hf] at hw
    exact hw
  | shutdown j call hj hidle => exact h.begin j call _ hidle (.inr rfl)
  | stopped j call ok hj hf =>
    refine h.waits j .stopped (fun hi => ?_) (by simp)
    have hw := h.waiter j hi
    simp only [hj, WaiterOk, hf] at hw
    cases ok with
    | true => exact hw.1
    | false => exact absurd hw.2 (by simp [Pc.onWay, Pc.critical])

def CarefullyReachable (c : Config) : Waiting → Prop := Machine.Reachable (· = Waiting.zero) (Careful c)

/-- Nothing is known of the calls that have begun. -/
theorem waitInv_zero : WaitInv c (fun _ => False) 0 (fun _ => False) (fun _ => False) Waiting.zero where
  inv := inv_zero
  accepted := ⟨fun _ hw => hw.elim, fun _ hw => hw.elim, Nat.zero_le _⟩
  through := fun _ hx => hx.elim
  waiter := fun _ hi => hi.elim
  lastFlush := fun j call hj => by cases hj

/-- From any state of a run on, about the calls that have not begun there. -/
theorem CarefullyReachable.waitInv (h : CarefullyReachable c u) :
    WaitInv c (fun w => u.ring.pc w = .returned true) u.ring.gen (fun x => u.ring.pc x = .idle)
      (fun i => u.waiter i = .idle) u := by
  have hall := Machine.Reachable.invariant (by rintro _ rfl; exact waitInv_zero)
    (fun _ _ hi hs => WaitInv.step hi hs) h
  refine ⟨hall.inv, hall.inv.accepted, fun x hx => ?_, fun i hi => ?_, hall.lastFlush⟩
  · rw [hx]; trivial
  · rw [hi]; trivial

/-- In a run whose flushes neither give up on their buffer nor are turned away at the end, every item
accepted before a flush that returns true, before a wait for a flush or before the last flush of a
shutdown has been handed out when that ends, and none of them is left in a buffer. -/
theorem flush_has_flushed (h : CarefullyReachable c u)
    (run : Relation.ReflTransGen (Careful c) u v) (w : Nat) (hw : u.ring.pc w = .returned true) :
    (∀ x, u.ring.pc x = .idle → v.ring.pc x = .flushed true → Gone c v.ring w) ∧
      ∀ i, u.waiter i = .idle → v.waiter i = .waited ∨ v.waiter i = .stopped → Gone c v.ring w := by
  have hv : WaitInv c (fun w => u.ring.pc w = .returned true) u.ring.gen (fun x => u.ring.pc x = .idle)
      (fun i => u.waiter i = .idle) v := by
    induction run with
    | refl => exact h.waitInv
    | tail _ hs ih => exact ih.step hs
  refine ⟨fun x hx hend => ?_, fun i hi hend => ?_⟩
  · have ht := hv.through x hx
    rw [hend] at ht
    exact Handed.gone ht hv.accepted hv.inv hw
  · have hwait := hv.waiter i hi
    rcases hend with hend | hend
    · rw [hend] at hwait
      exact Handed.gone hwait hv.accepted hv.inv hw
    · rw [hend] at hwait
      exact Handed.gone hwait hv.accepted hv.inv hw

/-! ## Two runs -/

deriving instance DecidableEq for Caller, RotateStage, Pc

/-- Three buffers of a hundred items. -/
def production : Config := ⟨100, 3, by decide, by decide⟩

theorem run_drive (c : Config) (s : State) (calls : List Nat) :
    Relation.ReflTransGen (Step c) s (drive c s calls) := by
  induction calls generalizing s with
  | nil => exact .refl
  | cons x calls ih =>
    refine .trans (b := (next c s x).getD s) ?_ (ih _)
    cases hn : next c s x with
    | none => exact .refl
    | some t => exact .single (.access s t x hn)

/-- A producer that read the first buffer before two flushes stays about to enter it; then a third item
is accepted into the last buffer. -/
def staleProducer : State :=
  let s := drive production (State.zero.goto 9 .load) [9, 9]
  let s := drive production (s.goto 0 .load) (List.replicate 8 0)
  let s := drive production (s.goto 1 (.lock false)) (List.replicate 20 1)
  let s := drive production (s.goto 2 .load) (List.replicate 8 2)
  let s := drive production (s.goto 3 (.lock false)) (List.replicate 20 3)
  drive production (s.goto 4 .load) (List.replicate 8 4)

/-- The stale producer enters the first buffer just before a flush looks whether it may rotate to it. -/
def gaveUp : State :=
  drive production ((drive production staleProducer [9]).goto 5 (.lock false)) (List.replicate 12 5)

/-- The flush returns true and has handed out none of the buffer it was to flush through. -/
theorem flush_gave_up :
    ∃ u v, Reachable production u ∧ u.pc 4 = .returned true ∧ u.pc 5 = .idle ∧
      Relation.ReflTransGen (Step production) u v ∧ v.pc 5 = .flushed true ∧
      some 4 ∉ v.batches.flatten := by
  have stale : Reachable production staleProducer := by
    refine Reachable.drive (.next (Reachable.drive (.next (Reachable.drive (.next (Reachable.drive
      (.next (Reachable.drive (.next (Reachable.drive (.next (.start rfl) (.enqueue _ 9 rfl)) _)
        (.enqueue _ 0 ?enqueue0)) _) (.flush _ 1 false ?flush1)) _) (.enqueue _ 2 ?enqueue2)) _)
        (.flush _ 3 false ?flush3)) _) (.enqueue _ 4 ?enqueue4)) _
    all_goals decide +kernel
  refine ⟨staleProducer, gaveUp, stale, by decide +kernel, by decide +kernel, ?_, by decide +kernel,
    by decide +kernel⟩
  refine .trans (run_drive _ _ [9]) (.head (.flush _ 5 false ?_) (run_drive _ _ _))
  decide +kernel

/-- A call that may be about to give up or to be turned away. -/
def hasty (s : State) (x : Nat) : Bool :=
  match s.pc x with
  | .rotate _ .failed _ => true
  | .lock _ => s.flushing
  | _ => false

def attentive (c : Config) (s : State) : List Nat → Bool
  | [] => true
  | x :: xs => !hasty s x && attentive c ((next c s x).getD s) xs

theorem Careful.drive (u : Waiting) (calls : List Nat) (h : attentive c u.ring calls = true) :
    Relation.ReflTransGen (Careful c) u { u with ring := Batcher.drive c u.ring calls } := by
  induction calls generalizing u with
  | nil => exact .refl
  | cons x calls ih =>
    simp only [attentive, Bool.and_eq_true, Bool.not_eq_true'] at h
    obtain ⟨hx, hrest⟩ := h
    refine .trans ?_ (ih { u with ring := (Batcher.next c u.ring x).getD u.ring } hrest)
    cases hn : Batcher.next c u.ring x with
    | none => exact .refl
    | some t =>
      have hothers := (advances_next hn).others
      refine .single ⟨.ring u t (.access _ _ _ hn), fun y hy => hothers y ?_, fun y hy => hothers y ?_⟩
      · rintro rfl
        obtain ⟨fi, hpc, _⟩ := hy
        simp [hasty, hpc] at hx
      · rintro rfl
        obtain ⟨_, hpc, hflushing⟩ := hy
        simp [hasty, hpc, hflushing] at hx

/-- A step that begins a call is careful. -/
theorem Careful.of_idle (hs : WaitStep c u v) (call : Nat) (hidle : u.ring.pc call = .idle)
    (hothers : ∀ y, y ≠ call → v.ring.pc y = u.ring.pc y) : Careful c u v := by
  refine ⟨hs, fun y hy => hothers y ?_, fun y hy => hothers y ?_⟩
  · rintro rfl
    obtain ⟨fi, hpc, _⟩ := hy
    rw [hidle] at hpc
    cases hpc
  · rintro rfl
    obtain ⟨_, hpc, _⟩ := hy
    rw [hidle] at hpc
    cases hpc

def enqueuedOne : Waiting :=
  ⟨drive production (State.zero.goto 0 .load) (List.replicate 8 0), fun _ => .idle⟩

/-- One wait for a flush, whose flush is call 1. -/
def waitedOne : Waiting :=
  let u : Waiting := { enqueuedOne with waiter := set enqueuedOne.waiter 0 .spin }
  let u := u.begin 0 1 (.flush 1)
  let u : Waiting := { u with ring := drive production u.ring (List.replicate 20 1) }
  { u with waiter := set u.waiter 0 .waited }

theorem flush_has_flushed_waited :
    waitedOne.waiter 0 = .waited ∧ Gone production waitedOne.ring 0 := by
  have reached : CarefullyReachable production enqueuedOne := by
    have begun : CarefullyReachable production ⟨State.zero.goto 0 .load, fun _ => .idle⟩ :=
      .next (.start rfl) (Careful.of_idle (.ring _ _ (.enqueue _ 0 rfl)) 0 rfl fun y hy => set_ne _ hy _)
    exact begun.trans (Careful.drive _ (List.replicate 8 0) (by decide +kernel))
  have run : Relation.ReflTransGen (Careful production) enqueuedOne waitedOne := by
    refine .head ⟨.forceFlush _ 0 rfl, fun _ _ => rfl, fun _ _ => rfl⟩ ?_
    refine .head (Careful.of_idle (.free _ 0 1 rfl ?free ?idle) 1 ?idle' fun y hy => set_ne _ hy _) ?_
    · decide +kernel
    · decide +kernel
    · decide +kernel
    refine .trans (Careful.drive _ (List.replicate 20 1) (by decide +kernel)) (.single ?_)
    exact ⟨.waited _ 0 1 rfl (by decide +kernel), fun _ _ => rfl, fun _ _ => rfl⟩
  exact ⟨rfl, (flush_has_flushed reached run 0 (by decide +kernel)).2 0 rfl (.inl rfl)⟩

end SentryNative.Batcher
