import SentryNative.Lib.Machine

/-!
# The ring of buffers

`sentry__batcher_enqueue`, `rotate_buffer` and `sentry__batcher_flush` over
their shared memory, one step for every atomic access and every write of a
slot. A call is a thread of its own: it starts idle, runs one of the two
functions and ends in its result. The item of an enqueue is the call itself.

What a flush does between two atomic accesses belongs to the access before it,
so it reads the slots and hands the batch out when it takes the buffer's index.
A thread that spins takes no step.
-/

namespace SentryNative.Batcher

/-- `SENTRY_BATCHER_QUEUE_LENGTH` and `SENTRY_BATCHER_BUFFER_COUNT`. -/
structure Config where
  queueLength : Nat
  bufferCount : Nat
  length_pos : 1 ≤ queueLength
  two_buffers : 2 ≤ bufferCount

/-- Who called `rotate_buffer`: the writer of the last slot, a producer that
found the buffer full, or a flush, with the buffer it flushes through. -/
inductive Caller where
  | last
  | full
  | flush (flushIdx : Nat)

/-- The accesses of `rotate_buffer`, in order; `failed` is its last load. -/
inductive RotateStage where
  | sealedNew
  | indexNew
  | addingNew
  | sealOld
  | swap
  | failed

/-- Where a call is, with its local variables. -/
inductive Pc where
  | idle
  | load
  | checkSealed (active : Nat)
  | enter (active : Nat)
  | recheckActive (active : Nat)
  | recheckSealed (active : Nat) (same : Bool)
  | leave (active : Nat)
  | claim (active : Nat)
  | write (active itemIdx : Nat)
  | exitTrue (active : Nat)
  | exitFull (active : Nat) (rotated : Bool)
  | recheckFull (active : Nat)
  | returned (accepted : Bool)
  | rotate (caller : Caller) (stage : RotateStage) (oldIdx : Nat)
  | lock (crashSafe : Bool)
  | readFlushIdx
  | readDrain (flushIdx : Nat)
  | readSealed (flushIdx old : Nat)
  | readActive (flushIdx old : Nat)
  | readIndex (flushIdx old active : Nat)
  | waitAdding (flushIdx old : Nat)
  | take (flushIdx old : Nat)
  | unsealOld (flushIdx old : Nat)
  | advance (flushIdx old : Nat)
  | unlock
  | flushed (ok : Bool)

/-- The shared memory, the calls and the batches handed to `process_batch`.
The last five fields are history that no step reads: how often the active
buffer was rotated, how many buffers were taken and reset, which calls claimed
a slot in each generation, and the generation each buffer serves. -/
structure State where
  items : Nat → Nat → Option Nat
  index : Nat → Nat
  adding : Nat → Nat
  sealed : Nat → Bool
  activeIdx : Nat
  drainIdx : Nat
  flushing : Bool
  pc : Nat → Pc
  batches : List (List (Option Nat))
  gen : Nat
  taken : Nat
  freed : Nat
  claims : Nat → List Nat
  bufGen : Nat → Nat

/-- The zeroed batcher. -/
def State.zero : State where
  items := fun _ _ => none
  index := fun _ => 0
  adding := fun _ => 0
  sealed := fun _ => false
  activeIdx := 0
  drainIdx := 0
  flushing := false
  pc := fun _ => .idle
  batches := []
  gen := 0
  taken := 0
  freed := 0
  claims := fun _ => []
  bufGen := fun b => b

def set {α : Type} (f : Nat → α) (i : Nat) (v : α) : Nat → α := fun j => if j = i then v else f j

def State.goto (s : State) (x : Nat) (p : Pc) : State := { s with pc := set s.pc x p }

/-- Where the caller of `rotate_buffer` continues. -/
def afterRotate : Caller → Nat → Bool → Pc
  | .last, a, _ => .exitTrue a
  | .full, a, rotated => .exitFull a rotated
  | .flush fi, a, true => .waitAdding fi a
  | .flush _, _, false => .unlock

variable (c : Config)

/-- One access of `rotate_buffer`. -/
def rotateStep (s : State) (x : Nat) (k : Caller) (a : Nat) : RotateStage → State
  | .sealedNew => s.goto x
      (if s.sealed ((a + 1) % c.bufferCount) then .rotate k .failed a else .rotate k .indexNew a)
  | .indexNew => s.goto x
      (if s.index ((a + 1) % c.bufferCount) ≠ 0 then .rotate k .failed a
        else .rotate k .addingNew a)
  | .addingNew => s.goto x
      (if s.adding ((a + 1) % c.bufferCount) ≠ 0 then .rotate k .failed a else .rotate k .sealOld a)
  | .sealOld => { s with sealed := set s.sealed a true }.goto x (.rotate k .swap a)
  | .swap =>
    if s.activeIdx = a then
      { s with
        activeIdx := (a + 1) % c.bufferCount
        gen := s.gen + 1
        bufGen := set s.bufGen ((a + 1) % c.bufferCount) (s.gen + 1) }.goto x (afterRotate k a true)
    else s.goto x (.rotate k .failed a)
  | .failed => s.goto x (afterRotate k a (decide (s.activeIdx ≠ a)))

/-- The exchange of a buffer's index with zero, and the batch read from its slots. -/
def takeStep (s : State) (x fi d : Nat) : State :=
  let n := min (s.index d) c.queueLength
  let batch := (List.range n).map (s.items d)
  { s with
    index := set s.index d 0
    taken := s.taken + 1
    batches := if batch = [] then s.batches else s.batches ++ [batch] }.goto x (.unsealOld fi d)

/-- The request for a slot. -/
def claimStep (s : State) (x a : Nat) : State :=
  if s.index a < c.queueLength then
    { s with
      index := set s.index a (s.index a + 1)
      claims := set s.claims (s.bufGen a) (s.claims (s.bufGen a) ++ [x]) }.goto x
        (.write a (s.index a))
  else
    { s with index := set s.index a (s.index a + 1) }.goto x (.rotate .full .sealedNew a)

/-- The next access of a call, if it has one to make. -/
def next (s : State) (x : Nat) : Option State :=
  match s.pc x with
  | .idle | .returned _ | .flushed _ => none
  -- sentry__batcher_enqueue
  | .load => some (s.goto x (.checkSealed s.activeIdx))
  | .checkSealed a => some (s.goto x (if s.sealed a then .load else .enter a))
  | .enter a => some ({ s with adding := set s.adding a (s.adding a + 1) }.goto x (.recheckActive a))
  | .recheckActive a => some (s.goto x (.recheckSealed a (decide (s.activeIdx = a))))
  | .recheckSealed a same =>
    some (s.goto x (if same = false then .leave a else if s.sealed a then .leave a else .claim a))
  | .leave a => some ({ s with adding := set s.adding a (s.adding a - 1) }.goto x .load)
  | .claim a => some (claimStep c s x a)
  | .write a i =>
    some ({ s with items := set s.items a (set (s.items a) i (some x)) }.goto x
      (if i = c.queueLength - 1 then .rotate .last .sealedNew a else .exitTrue a))
  | .exitTrue a =>
    some ({ s with adding := set s.adding a (s.adding a - 1) }.goto x (.returned true))
  | .exitFull a rotated =>
    some ({ s with adding := set s.adding a (s.adding a - 1) }.goto x
      (if rotated then .load else .recheckFull a))
  | .recheckFull a => some (s.goto x (if s.activeIdx ≠ a then .load else .returned false))
  | .rotate k stage a => some (rotateStep c s x k a stage)
  -- sentry__batcher_flush
  | .lock crashSafe =>
    if s.flushing = false then some ({ s with flushing := true }.goto x .readFlushIdx)
    else if crashSafe then none
    else some (s.goto x (.flushed false))
  | .readFlushIdx => some (s.goto x (.readDrain s.activeIdx))
  | .readDrain fi => some (s.goto x (.readSealed fi s.drainIdx))
  | .readSealed fi d => some (s.goto x (if s.sealed d then .waitAdding fi d else .readActive fi d))
  | .readActive fi d => some (s.goto x (.readIndex fi d s.activeIdx))
  | .readIndex fi d a =>
    some (s.goto x
      (if a = d ∧ (s.index d = 0 ∨ d ≠ fi ∧ s.index d < c.queueLength) then .unlock
        else if a = d then .rotate (.flush fi) .sealedNew a
        else .waitAdding fi d))
  | .waitAdding fi d => if s.adding d = 0 then some (s.goto x (.take fi d)) else none
  | .take fi d => some (takeStep c s x fi d)
  | .unsealOld fi d =>
    some ({ s with sealed := set s.sealed d false, freed := s.freed + 1 }.goto x (.advance fi d))
  | .advance fi d =>
    some ({ s with drainIdx := (d + 1) % c.bufferCount }.goto x (.readDrain fi))
  | .unlock => some ({ s with flushing := false }.goto x (.flushed true))

/-- A call begins, makes its next access, or gives up on the flush lock. -/
inductive Step : State → State → Prop where
  | enqueue (s : State) (x : Nat) : s.pc x = .idle → Step s (s.goto x .load)
  | flush (s : State) (x : Nat) (crashSafe : Bool) : s.pc x = .idle →
      Step s (s.goto x (.lock crashSafe))
  | access (s t : State) (x : Nat) : next c s x = some t → Step s t
  | timeout (s : State) (x : Nat) : s.pc x = .lock true → s.flushing = true →
      Step s (s.goto x (.flushed false))

def Reachable : State → Prop := Machine.Reachable (· = State.zero) (Step c)

/-! ## What the state holds -/

/-- The item in a claimed slot, if the call that claimed it has written it. -/
def slotItem (s : State) (b i : Nat) : Option Nat :=
  if s.items b i = (s.claims (s.bufGen b))[i]? then s.items b i else none

/-- The items of a buffer's claimed slots. -/
def held (s : State) (b : Nat) : List (Option Nat) :=
  (List.range (min (s.index b) c.queueLength)).map (slotItem s b)

/-- Every occurrence of an item in the buffers and in the batches handed out. -/
def contents (s : State) : List Nat :=
  ((List.range c.bufferCount).flatMap (held c s) ++ s.batches.flatten).filterMap id

end SentryNative.Batcher
