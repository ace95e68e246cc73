import SentryNative.Batcher.Ring

/-!
# The invariant of the ring

Buffers are reused, so an index says little; generations do not repeat. The
active generation is `gen`, generations below `taken` have been handed out and
those below `freed` have also been reset. A producer that saw its buffer active
after it entered keeps the generation of that buffer from being taken, and a
rotation that found the next buffer free finds it free until it publishes it.
-/

namespace SentryNative.Batcher

open Machine

variable (c : Config)

/-! ## What a program counter means -/

/-- The buffer whose `adding` the call has raised. -/
def Pc.inside : Pc → Option Nat
  | .recheckActive a | .recheckSealed a _ | .leave a | .claim a | .write a _ | .exitTrue a
  | .exitFull a _ | .rotate .last _ a | .rotate .full _ a => some a
  | _ => none

/-- The buffer that a producer saw active after it entered. -/
def Pc.holds : Pc → Option Nat
  | .recheckSealed a true | .claim a | .write a _ | .exitTrue a | .exitFull a _
  | .rotate .last _ a | .rotate .full _ a => some a
  | _ => none

/-- Between taking and releasing the flush lock. -/
def Pc.critical : Pc → Bool
  | .readFlushIdx | .readDrain _ | .readSealed _ _ | .readActive _ _ | .readIndex _ _ _
  | .waitAdding _ _ | .take _ _ | .unsealOld _ _ | .advance _ _ | .unlock
  | .rotate (.flush _) _ _ => true
  | _ => false

/-- Past the check that the next buffer is not sealed. -/
def RotateStage.checked : RotateStage → Bool
  | .indexNew | .addingNew | .sealOld | .swap => true
  | _ => false

/-- What became of the slot a call claimed. -/
inductive Slot where
  | none
  | writing (active itemIdx : Nat)
  | written

def Pc.slot : Pc → Slot
  | .write a i => .writing a i
  | .exitTrue _ | .rotate .last _ _ | .returned true => .written
  | _ => .none

/-- The call is about to publish the buffer after `a`. -/
def Pc.swapping : Pc → Option Nat
  | .rotate _ .swap a => some a
  | _ => none

/-! ## The memory -/

structure Memory (s : State) : Prop where
  active : s.activeIdx = s.gen % c.bufferCount
  freed_le : s.freed ≤ s.taken
  taken_le : s.taken ≤ s.freed + 1
  taken_gen : s.taken ≤ s.gen
  gen_lt : s.gen < s.freed + c.bufferCount
  sealed_old : ∀ g, s.freed ≤ g → g < s.gen → s.sealed (g % c.bufferCount) = true
  unsealed_free : ∀ b, (∀ g, s.freed ≤ g → g ≤ s.gen → g % c.bufferCount ≠ b) → s.sealed b = false
  bufGen : ∀ g, s.freed ≤ g → g ≤ s.gen → s.bufGen (g % c.bufferCount) = g
  index_free : ∀ b, (∀ g, s.taken ≤ g → g ≤ s.gen → g % c.bufferCount ≠ b) → s.index b = 0
  claims_length : ∀ g, s.taken ≤ g → g ≤ s.gen →
    (s.claims g).length = min (s.index (g % c.bufferCount)) c.queueLength
  claims_future : ∀ g, s.gen < g → s.claims g = []
  unique : ∀ g i g' i' x : Nat, (s.claims g)[i]? = some x → (s.claims g')[i']? = some x →
    g = g' ∧ i = i'
  batches : s.batches =
    ((List.range s.taken).map fun g => (s.claims g).map some).filter (· ≠ [])

/-! ## The calls -/

/-- What the flush at a program counter knows of the buffer it drains. -/
def FlushOk (s : State) : Pc → Prop
  | .readFlushIdx | .readDrain _ | .unlock =>
    s.taken = s.freed ∧ s.drainIdx = s.freed % c.bufferCount
  | .readSealed _ d | .readActive _ d | .rotate (.flush _) _ d =>
    s.taken = s.freed ∧ s.drainIdx = d ∧ d = s.freed % c.bufferCount
  | .readIndex _ d a =>
    s.taken = s.freed ∧ s.drainIdx = d ∧ d = s.freed % c.bufferCount ∧ (a ≠ d → s.taken < s.gen)
  | .waitAdding _ d =>
    s.taken = s.freed ∧ s.drainIdx = d ∧ d = s.freed % c.bufferCount ∧
      (s.taken < s.gen ∨ s.sealed d = true)
  | .take _ d =>
    s.taken = s.freed ∧ s.drainIdx = d ∧ d = s.freed % c.bufferCount ∧ s.taken < s.gen
  | .unsealOld _ d => s.taken = s.freed + 1 ∧ s.drainIdx = d ∧ d = s.freed % c.bufferCount
  | .advance _ d =>
    s.taken = s.freed ∧ s.drainIdx = d ∧ (d + 1) % c.bufferCount = s.freed % c.bufferCount
  | _ => True

/-- The generation of buffer `a` is still there. -/
structure Live (s : State) (a : Nat) : Prop where
  taken_le : s.taken ≤ s.bufGen a
  le_gen : s.bufGen a ≤ s.gen
  mod : s.bufGen a % c.bufferCount = a

structure PcOk (s : State) (p : Pc) : Prop where
  hold : ∀ a, p.holds = some a → Live c s a
  free : ∀ k stage a, p = .rotate k stage a → stage.checked = true →
    s.bufGen a + 1 < s.freed + c.bufferCount
  swap : ∀ a, p.swapping = some a → s.sealed a = true
  flush : FlushOk c s p

/-- The calls among each other: who is inside a buffer, who flushes, who is
alone with a buffer and who is about to publish one. -/
structure Roles (s : State) : Prop where
  adding : ∀ b, Counted (fun x => (s.pc x).inside = some b) (s.adding b)
  lock : ∀ x, (s.pc x).critical = true → s.flushing = true
  lock_unique : ∀ x y, (s.pc x).critical = true → (s.pc y).critical = true → x = y
  lock_free : (∀ x, (s.pc x).critical = false) →
    s.taken = s.freed ∧ s.drainIdx = s.freed % c.bufferCount
  take_alone : ∀ x fi d, s.pc x = .take fi d → ∀ y, (s.pc y).holds ≠ some d
  sealed_active : s.sealed s.activeIdx = true → ∃ x, (s.pc x).swapping = some s.activeIdx

/-- The calls and the slots they claimed. -/
structure Slots (s : State) : Prop where
  claimed : ∀ g i x : Nat, (s.claims g)[i]? = some x →
    (s.pc x).slot = .written ∨ ∃ a, (s.pc x).slot = .writing a i ∧ s.bufGen a = g
  written : ∀ g i x : Nat, s.taken ≤ g → (s.claims g)[i]? = some x → (s.pc x).slot = .written →
    s.items (g % c.bufferCount) i = some x
  writing : ∀ x a i : Nat, (s.pc x).slot = .writing a i → (s.claims (s.bufGen a))[i]? = some x
  placed : ∀ x, (s.pc x).slot = .written → ∃ g i : Nat, (s.claims g)[i]? = some x

structure Inv (s : State) : Prop extends Roles c s, Slots c s where
  memory : Memory c s
  pcs : ∀ x, PcOk c s (s.pc x)

variable {c} {s : State}

theorem set_same {α : Type} (f : Nat → α) (i : Nat) (v : α) : set f i v i = v := by simp [set]

theorem set_ne {α : Type} (f : Nat → α) {i j : Nat} (h : j ≠ i) (v : α) : set f i v j = f j := by
  simp [set, h]

theorem inv_zero : Inv c State.zero where
  memory :=
    { active := by simp [State.zero]
      freed_le := Nat.le_refl _
      taken_le := Nat.le_succ _
      taken_gen := Nat.le_refl _
      gen_lt := by have := c.two_buffers; simp only [State.zero]; omega
      sealed_old := by intro g _ h; simp [State.zero] at h
      unsealed_free := by intro b _; rfl
      bufGen := by
        intro g _ h
        have : g = 0 := by simpa [State.zero] using h
        subst this
        simp [State.zero]
      index_free := by intro b _; rfl
      claims_length := by intro g _ _; simp [State.zero]
      claims_future := by intro g _; rfl
      unique := by intro g i g' i' x h; simp [State.zero] at h
      batches := by simp [State.zero] }
  pcs := by
    intro x
    constructor
    · intro a h; simp [State.zero, Pc.holds] at h
    · intro k st a h; simp [State.zero] at h
    · intro a h; simp [State.zero, Pc.swapping] at h
    · trivial
  adding := by intro b; exact Counted.empty (by simp [State.zero, Pc.inside])
  lock := by intro x h; simp [State.zero, Pc.critical] at h
  lock_unique := by intro x y h; simp [State.zero, Pc.critical] at h
  lock_free := by intro _; simp [State.zero]
  take_alone := by intro x fi d h; simp [State.zero] at h
  sealed_active := by intro h; simp [State.zero] at h
  claimed := by intro g i x h; simp [State.zero] at h
  written := by intro g i x _ h; simp [State.zero] at h
  writing := by intro x a i h; simp [State.zero, Pc.slot] at h
  placed := by intro x h; simp [State.zero, Pc.slot] at h

/-! ## Calls that only move on -/

theorem flushOk_of_not_critical {p : Pc} (h : p.critical = false) : FlushOk c s p := by
  cases p with
  | rotate k stage a => cases k <;> simp_all [Pc.critical, FlushOk]
  | _ => trivial

/-- Neither a producer nor a flush in a buffer. -/
theorem pcOk_of_outside {p : Pc} (hh : p.holds = none) (hr : ∀ k st a, p ≠ .rotate k st a)
    (hf : FlushOk c s p) : PcOk c s p := by
  constructor
  · intro a ha; rw [hh] at ha; cases ha
  · intro k st a ha; exact absurd ha (hr k st a)
  · intro a ha
    cases p with
    | rotate k st a => exact absurd rfl (hr k st a)
    | _ => simp [Pc.swapping] at ha
  · exact hf

theorem pcOk_of_live {p : Pc} {a : Nat} (hh : p.holds = some a) (hl : Live c s a)
    (hr : ∀ k st a, p ≠ .rotate k st a) (hf : FlushOk c s p) : PcOk c s p := by
  constructor
  · intro b hb
    rw [hh, Option.some.injEq] at hb
    rw [← hb]
    exact hl
  · intro k st a ha; exact absurd ha (hr k st a)
  · intro b hb
    cases p with
    | rotate k st a => exact absurd rfl (hr k st a)
    | _ => simp [Pc.swapping] at hb
  · exact hf

/-- The call moves from one program counter to another and may leave or enter a
buffer; no other memory changes. -/
theorem Inv.move (h : Inv c s) (x : Nat) (p : Pc) (f : Nat → Nat) (hp : PcOk c s p)
    (hadd : ∀ b, Counted (fun y => (set s.pc x p y).inside = some b) (f b))
    (hcrit : p.critical = (s.pc x).critical)
    (hswap : (s.pc x).swapping = some s.activeIdx → p.swapping = some s.activeIdx)
    (htake : ∀ fi d, p = .take fi d → ∀ y, (s.pc y).holds ≠ some d)
    (hhold : ∀ d, p.holds = some d → (s.pc x).holds = some d ∨ ∀ y fi, s.pc y ≠ .take fi d)
    (hslot : p.slot = (s.pc x).slot) :
    Inv c ({ s with adding := f }.goto x p) := by
  have crit : ∀ y, (set s.pc x p y).critical = (s.pc y).critical := by
    intro y
    by_cases hy : y = x
    · subst hy; rw [set_same, hcrit]
    · rw [set_ne _ hy]
  have slot : ∀ y, (set s.pc x p y).slot = (s.pc y).slot := by
    intro y
    by_cases hy : y = x
    · subst hy; rw [set_same, hslot]
    · rw [set_ne _ hy]
  have m := h.memory
  refine
    { memory := ⟨m.active, m.freed_le, m.taken_le, m.taken_gen, m.gen_lt, m.sealed_old,
        m.unsealed_free, m.bufGen, m.index_free, m.claims_length, m.claims_future, m.unique,
        m.batches⟩
      adding := hadd
      lock := fun y hy => h.lock y (by rw [← crit y]; exact hy)
      lock_unique := fun y z hy hz => h.lock_unique y z (by rw [← crit y]; exact hy)
        (by rw [← crit z]; exact hz)
      lock_free := fun hn => h.lock_free fun y => by rw [← crit y]; exact hn y
      claimed := fun g i y hy => by simpa only [State.goto, slot] using h.claimed g i y hy
      written := fun g i y hg hy hs => h.written g i y hg hy (by rw [← slot y]; exact hs)
      writing := fun y a i hs => h.writing y a i (by rw [← slot y]; exact hs)
      placed := fun y hs => h.placed y (by rw [← slot y]; exact hs)
      pcs := ?pcs
      take_alone := ?take
      sealed_active := ?sealed }
  case pcs =>
    intro y
    have q : PcOk c s (set s.pc x p y) := by
      by_cases hy : y = x
      · subst hy; rw [set_same]; exact hp
      · rw [set_ne _ hy]; exact h.pcs y
    exact ⟨fun a ha => ⟨(q.hold a ha).taken_le, (q.hold a ha).le_gen, (q.hold a ha).mod⟩, q.free,
      q.swap, q.flush⟩
  case take =>
    intro y fi d hy z hz
    simp only [State.goto] at hy hz
    have old : s.pc y = .take fi d → ∀ w, (s.pc w).holds ≠ some d := h.take_alone y fi d
    by_cases hzx : z = x
    · subst hzx
      rw [set_same] at hz
      by_cases hyz : y = z
      · subst hyz
        rw [set_same] at hy
        rw [hy] at hz
        simp [Pc.holds] at hz
      · rw [set_ne _ hyz] at hy
        rcases hhold d hz with hz' | hz'
        · exact old hy z hz'
        · exact hz' y fi hy
    · rw [set_ne _ hzx] at hz
      by_cases hyx : y = x
      · subst hyx
        rw [set_same] at hy
        exact htake fi d hy z hz
      · rw [set_ne _ hyx] at hy
        exact old hy z hz
  case sealed =>
    intro hs
    obtain ⟨y, hy⟩ := h.sealed_active hs
    refine ⟨y, ?_⟩
    simp only [State.goto]
    by_cases hyx : y = x
    · subst hyx
      rw [set_same]
      exact hswap hy
    · rw [set_ne _ hyx]
      exact hy

theorem Inv.goto (h : Inv c s) (x : Nat) (p : Pc) (hp : PcOk c s p)
    (hin : p.inside = (s.pc x).inside) (hcrit : p.critical = (s.pc x).critical)
    (hswap : (s.pc x).swapping = some s.activeIdx → p.swapping = some s.activeIdx)
    (htake : ∀ fi d, p = .take fi d → ∀ y, (s.pc y).holds ≠ some d)
    (hhold : ∀ d, p.holds = some d → (s.pc x).holds = some d ∨ ∀ y fi, s.pc y ≠ .take fi d)
    (hslot : p.slot = (s.pc x).slot) : Inv c (s.goto x p) := by
  refine h.move x p s.adding hp ?_ hcrit hswap htake hhold hslot
  intro b
  apply (h.adding b).congr
  intro y
  by_cases hy : y = x
  · subst hy; rw [set_same, hin]
  · rw [set_ne _ hy]

/-- A call that was in no buffer enters one. -/
theorem counted_enter (h : Inv c s) {x a : Nat} {p : Pc} (hold : (s.pc x).inside = none)
    (hnew : p.inside = some a) (b : Nat) :
    Counted (fun y => (set s.pc x p y).inside = some b) (set s.adding a (s.adding a + 1) b) := by
  by_cases hb : b = a
  · subst hb
    rw [set_same]
    apply (h.adding b).add (i := x)
    · rw [hold]; simp
    · intro y
      by_cases hy : y = x
      · subst hy; simp [set_same, hnew]
      · simp [set_ne _ hy, hy]
  · rw [set_ne _ hb]
    apply (h.adding b).congr
    intro y
    by_cases hy : y = x
    · subst hy
      rw [set_same, hnew, hold]
      simp [Ne.symm hb]
    · rw [set_ne _ hy]

/-- A call leaves the buffer it was in. -/
theorem counted_leave (h : Inv c s) {x a : Nat} {p : Pc} (hold : (s.pc x).inside = some a)
    (hnew : p.inside = none) (b : Nat) :
    Counted (fun y => (set s.pc x p y).inside = some b) (set s.adding a (s.adding a - 1) b) := by
  by_cases hb : b = a
  · subst hb
    rw [set_same]
    apply (h.adding b).remove (i := x) hold
    intro y
    by_cases hy : y = x
    · subst hy; simp [set_same, hnew]
    · simp [set_ne _ hy, hy]
  · rw [set_ne _ hb]
    apply (h.adding b).congr
    intro y
    by_cases hy : y = x
    · subst hy
      rw [set_same, hnew, hold]
      simp [Ne.symm hb]
    · rw [set_ne _ hy]

end SentryNative.Batcher
