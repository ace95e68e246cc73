import SentryNative.Lib.Shared

/-!
# The reference to the global batcher

`sentry__batcher_acquire`, `_release`, `_pin`, `_unpin` and `_swap` over the reference of a telemetry
kind, one step for every atomic access. A thread of the model is one use of the reference, from its
first access to its last; a program thread with several references at once is several of them.
Start-up makes a batcher and swaps it in, shutdown swaps in nothing, and both release what they get.

Batchers are addresses, and an address that was freed may be given out again.
-/

namespace SentryNative.Batcher.Reference

/-- Where a use is, with its local variables. -/
inductive Pc where
  | idle
  | lockAcquire
  | loadAcquire
  | countAcquire (batcher : Nat)
  | unlockAcquire (batcher : Option Nat)
  | holding (batcher : Nat)
  | freeing (batcher : Nat)
  | loadPin
  | pinned (batcher : Nat)
  | unpin
  | lockSwap (batcher : Option Nat)
  | exchange (batcher : Option Nat)
  | unlockSwap (old : Option Nat)
  | waiting (old : Nat)
  deriving DecidableEq, Repr

/-- The reference, the refcounts of the batchers and the uses. `alive`, `created`, `freed` and `fault`
are history that no step reads: whether an address holds a batcher, how often it was given out and
freed, and whether a refcount or a free touched an address that held none. -/
structure State where
  ptr : Option Nat
  lock : Bool
  pins : Int
  refcount : Nat → Int
  pc : Nat → Pc
  alive : Nat → Bool
  created : Nat → Nat
  freed : Nat → Nat
  fault : Bool

/-- `SENTRY_BATCHER_REF_INIT` -/
def State.init : State where
  ptr := none
  lock := false
  pins := 0
  refcount := fun _ => 0
  pc := fun _ => .idle
  alive := fun _ => false
  created := fun _ => 0
  freed := fun _ => 0
  fault := false

def State.goto (s : State) (x : Nat) (p : Pc) : State := { s with pc := Function.update s.pc x p }

def State.addRefcount (s : State) (b : Nat) (d : Int) : State :=
  { s with refcount := Function.update s.refcount b (s.refcount b + d), fault := s.fault || !s.alive b }

/-- The next access of a use; there is none while it spins. -/
def next (s : State) (x : Nat) : Option State :=
  match s.pc x with
  | .idle => none
  -- sentry__batcher_acquire
  | .lockAcquire => if s.lock = false then some ({ s with lock := true }.goto x .loadAcquire) else none
  | .loadAcquire =>
    some (s.goto x (match s.ptr with | some b => .countAcquire b | none => .unlockAcquire none))
  | .countAcquire b => some ((s.addRefcount b 1).goto x (.unlockAcquire (some b)))
  | .unlockAcquire r =>
    some ({ s with lock := false }.goto x (match r with | some b => .holding b | none => .idle))
  -- sentry__batcher_release
  | .holding b =>
    some ((s.addRefcount b (-1)).goto x (if s.refcount b ≠ 1 then .idle else .freeing b))
  | .freeing b =>
    some ({ s with
      alive := Function.update s.alive b false
      freed := Function.update s.freed b (s.freed b + 1)
      fault := s.fault || !s.alive b }.goto x .idle)
  -- sentry__batcher_pin and sentry__batcher_unpin
  | .loadPin => some (s.goto x (match s.ptr with | some b => .pinned b | none => .unpin))
  | .pinned _ | .unpin => some ({ s with pins := s.pins - 1 }.goto x .idle)
  -- sentry__batcher_swap
  | .lockSwap b => if s.lock = false then some ({ s with lock := true }.goto x (.exchange b)) else none
  | .exchange b => some ({ s with ptr := b }.goto x (.unlockSwap s.ptr))
  | .unlockSwap old =>
    some ({ s with lock := false }.goto x (match old with | some b => .waiting b | none => .idle))
  | .waiting b => if s.pins > 0 then none else some (s.goto x (.holding b))

/-- What a thread does next: begin a use or go on with one. -/
inductive Action where
  | acquire
  | pin
  | startup (batcher : Nat)
  | shutdown
  | next

def act (s : State) (x : Nat) : Action → Option State
  | .acquire => if s.pc x = .idle then some (s.goto x .lockAcquire) else none
  | .pin => if s.pc x = .idle then some ({ s with pins := s.pins + 1 }.goto x .loadPin) else none
  -- sentry__batcher_new
  | .startup b =>
    if s.pc x = .idle ∧ s.alive b = false then
      some ({ s with
        refcount := Function.update s.refcount b 1
        alive := Function.update s.alive b true
        created := Function.update s.created b (s.created b + 1) }.goto x (.lockSwap (some b)))
    else none
  | .shutdown => if s.pc x = .idle then some (s.goto x (.lockSwap none)) else none
  | .next => next s x

def Step (s t : State) : Prop := ∃ x a, act s x a = some t

def Reachable : State → Prop := Machine.Reachable (· = State.init) Step

/-! ## Who refers to what -/

/-- The counted reference that a use owns. -/
def Pc.owned : Pc → Option Nat
  | .unlockAcquire r | .lockSwap r | .exchange r | .unlockSwap r => r
  | .holding b | .waiting b => some b
  | _ => none

/-- Every reference: that of `ref->ptr` and those of the uses. -/
def owner (s : State) : Option Nat → Option Nat
  | none => s.ptr
  | some x => (s.pc x).owned

/-- A pin that is being taken, is in effect or is being given back. -/
def Pc.pinning : Pc → Bool
  | .loadPin | .pinned _ | .unpin => true
  | _ => false

/-- The use is between `lock_ref` and `unlock_ref`. -/
def Pc.locked : Pc → Bool
  | .loadAcquire | .countAcquire _ | .unlockAcquire _ | .exchange _ | .unlockSwap _ => true
  | _ => false

/-- The swap has taken this batcher out and may not have returned it yet. -/
def Pc.retires : Pc → Option Nat
  | .unlockSwap r => r
  | .waiting b => some b
  | _ => none

/-- The batcher that a local variable names. -/
def Pc.names : Pc → Option Nat
  | .countAcquire b | .holding b | .freeing b | .pinned b | .waiting b => some b
  | .unlockAcquire r | .lockSwap r | .exchange r | .unlockSwap r => r
  | _ => none

/-- Somebody refers to this batcher: the reference or a use. -/
def Refers (s : State) (b : Nat) : Prop := s.ptr = some b ∨ ∃ x, (s.pc x).names = some b

end SentryNative.Batcher.Reference
