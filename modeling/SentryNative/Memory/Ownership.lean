import SentryNative.Memory.Builders

/-!
# Callers

The public functions on values, called one after the other by a caller that keeps to
the rules of ownership: it passes on only what it owns, and uses only what it owns or
what can be read from there. A value that is passed to a setter is no longer owned,
whether the setter succeeds or not.
-/

namespace SentryNative.Memory

open CLib ObjectMap

/-! ## Calls -/

/-- The store, with the handles of the caller and the iterations that run. -/
structure Caller where
  store : Store
  owned : Nat → Nat
  iters : Nat → Nat

inductive Call where
  | newLeaf (v : Value)
  | newContainer (kind : Kind)
  | incref (v : Val)
  | decref (v : Val)
  | getByKey (value : Val) (k : Option Bytes)
  | getByKeyOwned (value : Val) (k : Option Bytes)
  | getByIndex (value : Val) (i : Nat)
  | isFrozen (value : Val)
  | change (value : Val) (ch : Change)
  /-- A `sentry_value_foreach_…` before its first and after its last callback. -/
  | foreachBegin (value : Val) (kind : Kind)
  | foreachEnd (p : Nat)
  | freeze (v : Val)
  | clone (fuel : Nat) (v : Val)
  | mergeObjects (deep : Bool) (fuel : Nat) (dst src : Val)
  | eventAddException (event exception : Val)
  | eventAddThread (event thread : Val)
  | setStacktrace (value : Val) (ips : List UInt64)
  | transactionSetTag (tx : Option Val) (tag value : Option Bytes)
  | transactionSetData (tx : Option Val) (key : Option Bytes) (v : Val)
  | transactionSetDataN (tx : Option Val) (key : Option Bytes) (v : Val)

/-- The calls that go down a value, as deep as their fuel. -/
def Call.Recurses : Call → Prop
  | .clone _ _ => True
  | .mergeObjects _ _ _ _ => True
  | _ => False

/-- The calls that are not for changing a value. -/
def Call.Calm : Call → Prop
  | .change _ _ => False
  | .mergeObjects _ _ _ _ => False
  | .eventAddException _ _ => False
  | .eventAddThread _ _ => False
  | .setStacktrace _ _ => False
  | .transactionSetTag _ _ _ => False
  | .transactionSetData _ _ _ => False
  | .transactionSetDataN _ _ _ => False
  | _ => True

namespace Caller

def start (fails : Nat → Bool) : Caller := ⟨.empty fails, 0, 0⟩

def goes (c : Caller) (s : Store) : Caller := { c with store := s }

/-- The caller has one more handle. -/
def gets (c : Caller) (v : Val) (s : Store) : Caller := { c with store := s, owned := c.owned + refOf v }

/-- The caller has given a handle away. -/
def gives (c : Caller) (v : Val) (s : Store) : Caller := { c with store := s, owned := c.owned - refOf v }

def begins (c : Caller) (p : Option Nat) (s : Store) : Caller :=
  match p with
  | some p => { c with store := s, iters := c.iters + one p }
  | none => c.goes s

def ends (c : Caller) (p : Nat) (s : Store) : Caller := { c with store := s, iters := c.iters - one p }

/-- The call, with what it does to the handles by the rules of ownership. -/
def call (c : Caller) : Call → Except Fault Caller
  | .newLeaf v =>
    let (v, s) := c.store.newLeaf v
    return c.gets v s
  | .newContainer kind =>
    let (v, s) := c.store.newContainer kind
    return c.gets v s
  | .incref v => do
    let s ← c.store.incref v
    return c.gets v s
  | .decref v => do
    let s ← c.store.decref v
    return c.gives v s
  | .getByKey value k => do
    let _ ← c.store.getByKey value k
    return c
  | .getByKeyOwned value k => do
    let (v, s) ← c.store.getByKeyOwned value k
    return c.gets v s
  | .getByIndex value i => do
    let _ ← c.store.getByIndex value i
    return c
  | .isFrozen value => do
    let _ ← c.store.isFrozen value
    return c
  | .change value ch => do
    let (_, s) ← ch.run c.store value
    return c.gives ch.given s
  | .foreachBegin value kind => do
    let (p, s) ← c.store.foreachBegin value kind
    return c.begins p s
  | .foreachEnd p => do
    let s ← c.store.payloadFree p
    return c.ends p s
  | .freeze v => do
    let s ← c.store.freeze v
    return c.goes s
  | .clone fuel v => do
    let (v, s) ← Store.clone fuel c.store v
    return c.gets v s
  | .mergeObjects deep fuel dst src => do
    let (_, s) ← Store.mergeObjects deep fuel c.store dst src
    return c.goes s
  | .eventAddException event exception => do
    let s ← c.store.eventAddException event exception
    return c.gives exception s
  | .eventAddThread event thread => do
    let s ← c.store.eventAddThread event thread
    return c.gives thread s
  | .setStacktrace value ips => do
    let s ← c.store.setStacktrace value ips
    return c.goes s
  | .transactionSetTag tx tag value => do
    let s ← c.store.transactionSetTag tx tag value
    return c.goes s
  | .transactionSetData tx key v => do
    let s ← c.store.transactionSetData tx key v
    return c.gives v s
  | .transactionSetDataN tx key v => do
    let s ← c.store.transactionSetDataN tx key v
    return c.gives v s

/-! ## Rules -/

def Owns (c : Caller) (v : Val) : Prop := ∀ a, v = .thing a → 0 < c.owned a

def MayUse (c : Caller) (v : Val) : Prop := c.store.Borrowed c.owned c.iters v

/-- The rules of ownership. They say nothing of the types or the bits of the values. -/
def Follows (c : Caller) : Call → Prop
  | .newLeaf _ => True
  | .newContainer _ => True
  | .incref v => c.MayUse v
  | .decref v => c.Owns v
  | .getByKey value _ => c.MayUse value
  | .getByKeyOwned value _ => c.MayUse value
  | .getByIndex value _ => c.MayUse value
  | .isFrozen value => c.MayUse value
  | .change value ch => c.MayUse value ∧ c.Owns ch.given
  | .foreachBegin value _ => c.MayUse value
  | .foreachEnd p => 0 < c.iters p
  | .freeze v => c.MayUse v
  | .clone _ v => c.MayUse v
  | .mergeObjects _ _ dst src => c.MayUse dst ∧ c.MayUse src
  | .eventAddException event exception => c.MayUse event ∧ c.Owns exception
  | .eventAddThread event thread => c.MayUse event ∧ c.Owns thread
  | .setStacktrace value _ => c.MayUse value
  | .transactionSetTag tx _ _ => ∀ inner, tx = some inner → c.MayUse inner
  | .transactionSetData tx _ v => (∀ inner, tx = some inner → c.MayUse inner) ∧ c.Owns v
  | .transactionSetDataN tx _ v => (∀ inner, tx = some inner → c.MayUse inner) ∧ c.Owns v

/-- What the functions do not check for: a child that the builders make has to be taken
by its parent, a value passed with no transaction or key is not released, and an index
may be too large for `reserve`. -/
def Meets (s : Store) : Call → Prop
  | .change value ch => ch.Fits s value
  | .eventAddException event _ => s.AcceptsValue event (ascii "exception")
  | .eventAddThread event _ => s.AcceptsValue event (ascii "threads")
  | .transactionSetTag tx _ _ => ∀ inner, tx = some inner → s.Accepts inner (ascii "tags")
  | .transactionSetData tx key v =>
    ((tx = none ∨ key = none) → refOf v = 0) ∧
      (key ≠ none → ∀ inner, tx = some inner → s.Accepts inner (ascii "data"))
  | .transactionSetDataN tx _ v =>
    (tx = none → refOf v = 0) ∧ ∀ inner, tx = some inner → s.Accepts inner (ascii "data")
  | _ => True

variable {c c' : Caller} {lost : Nat → Nat} {v value : Val} {s' : Store} {meets recurses : Prop}

/-! ## One call -/

/-- The counts are exact up to references that were lost, and a frozen container holds
frozen things only. -/
structure Sound (c : Caller) (lost : Nat → Nat) : Prop where
  inv : c.store.Inv (c.owned + lost) c.iters
  closed : c.store.FrozenClosed

/-- What a call may come to. It goes wrong, or loses references, only if the condition
is not met, and only a call that recurses runs out of fuel. -/
inductive Outcome (c : Caller) (lost : Nat → Nat) (meets recurses : Prop) : Except Fault Caller → Prop
  | done {c' : Caller} {lost' : Nat → Nat} : Sound c' lost' →
    Store.Keeps (fun a => ¬ c.store.Frozen a) c.store c'.store → (meets → lost' = lost) →
    Outcome c lost meets recurses (.ok c')
  | fuel : recurses → Outcome c lost meets recurses (.error .fuel)
  | fault {f : Fault} : ¬ meets → Outcome c lost meets recurses (.error f)

/-- What a call may come to that is not for changing a value: nothing looks different. -/
inductive Calm (c : Caller) (lost : Nat → Nat) (recurses : Prop) : Except Fault Caller → Prop
  | done {c' : Caller} : Sound c' lost → c.store.KeepsAll c'.store →
    Store.Iterating c'.iters c.store c'.store → Calm c lost recurses (.ok c')
  | fuel : recurses → Calm c lost recurses (.error .fuel)

theorem Calm.outcome {r : Except Fault Caller} (h : Calm c lost recurses r) : Outcome c lost meets recurses r := by
  cases h with
  | done hs hk _ => exact .done hs (hk.mono fun _ _ hw => hw.elim) fun _ => rfl
  | fuel hrec => exact .fuel hrec

theorem Sound.borrowed (h : Sound c lost) (hv : c.MayUse v) : c.store.Borrowed (c.owned + lost) c.iters v :=
  fun a ha => (hv a ha).mono fun _ => Nat.le_add_right _ _

theorem Sound.live (h : Sound c lost) (hv : c.MayUse v) : ∀ a, v = .thing a → c.store.Live a :=
  (h.borrowed hv).live h.inv

/-- The handles without one of them. -/
theorem Owns.split (h : c.Owns v) : c.owned - refOf v + lost + refOf v = c.owned + lost := by
  funext b
  cases v with
  | thing a =>
    have ha := h a rfl
    by_cases hba : b = a
    · subst b
      simp only [Pi.add_apply, Pi.sub_apply, refOf_thing, one_self]
      omega
    · simp [one_of_ne hba]
  | null => simp [refOf]
  | bool _ => simp [refOf]
  | int32 _ => simp [refOf]

theorem Sound.split (h : Sound c lost) (hv : c.Owns v) :
    c.store.Inv (c.owned - refOf v + lost + refOf v) c.iters := by
  rw [hv.split]
  exact h.inv

theorem Sound.splitBorrowed (h : Sound c lost) (hv : c.Owns v) (hval : c.MayUse value) :
    c.store.Borrowed (c.owned - refOf v + lost + refOf v) c.iters value := by
  rw [hv.split]
  exact h.borrowed hval

/-- A call that leaves frozen things alone and keeps the counts exact. -/
theorem Outcome.evolves (h : Sound c lost) (hi : c'.store.Inv (c'.owned + lost) c'.iters)
    (he : c.store.Evolves c'.store) : Outcome c lost meets recurses (.ok c') :=
  .done ⟨hi, h.closed.evolves he hi⟩ he.keeps fun _ => rfl

theorem Calm.keepsAll (h : Sound c lost) (hi : c'.store.Inv (c'.owned + lost) c'.iters)
    (hk : c.store.KeepsAll c'.store) (hn : c.store.NoFreeze c'.store)
    (hit : Store.Iterating c'.iters c.store c'.store) : Calm c lost recurses (.ok c') :=
  .done ⟨hi, h.closed.evolves (.of_keepsAll hk hn) hi⟩ hk hit

theorem Calm.quiet (h : Sound c lost) (hi : c'.store.Inv (c'.owned + lost) c'.iters)
    (hq : c.store.Quiet c'.store) : Calm c lost recurses (.ok c') :=
  .keepsAll h hi hq.keeps hq.noFreeze hq.iterating

theorem Calm.shrinks (h : Sound c lost) (hi : c'.store.Inv (c'.owned + lost) c'.iters)
    (hshr : c.store.Shrinks c'.store) : Calm c lost recurses (.ok c') :=
  .keepsAll h hi (hshr.keeps hi) hshr.noFreeze (hshr.iterating hi)

/-- A builder, as its lemma says it. -/
theorem Outcome.built {r : Except Fault Store} (h : Sound c lost)
    (hr : Store.Built c.store (c.owned - refOf v + lost) c.iters r) (hnot : meets → r ≠ .error .freed) :
    Outcome c lost meets recurses (r >>= fun s => .ok (c.gives v s)) := by
  rcases hr with rfl | ⟨s', rfl, hi, he⟩
  · exact .fault fun hm => hnot hm rfl
  · exact .evolves h hi he

theorem Calm.created (h : Sound c lost) (hc : Store.Created c.store (c.owned + lost) c.iters v s') :
    Calm c lost recurses (.ok (c.gets v s')) := by
  have hi := hc.inv
  rw [add_right_comm] at hi
  exact .keepsAll h hi hc.grows.keeps hc.grows.noFreeze hc.grows.iterating

theorem Calm.recounted (h : Sound c lost) (hi : s'.Inv (c.owned + lost + refOf v) c.iters)
    (hsame : c.store.Recounted s') : Calm c lost recurses (.ok (c.gets v s')) := by
  have hquiet := hsame.quiet hi
  rw [add_right_comm] at hi
  exact .quiet h hi hquiet

theorem Sound.incref (h : Sound c lost) (hv : c.MayUse v) : Calm c lost recurses (c.call (.incref v)) := by
  obtain ⟨s', hrun, hi, hsame⟩ := h.inv.incref (h.live hv)
  simp only [call, hrun, bind, Except.bind]
  exact .recounted h hi hsame

theorem Sound.decref (h : Sound c lost) (hv : c.Owns v) : Calm c lost recurses (c.call (.decref v)) := by
  obtain ⟨s', hrun, hi, hshr⟩ := (h.split hv).decref
  simp only [call, hrun, bind, Except.bind]
  exact .shrinks h hi hshr

theorem Sound.getByKeyOwned {k : Option Bytes} (h : Sound c lost) (hv : c.MayUse value) :
    Calm c lost recurses (c.call (.getByKeyOwned value k)) := by
  obtain ⟨s', hrun, hi, hsame⟩ := h.inv.getByKeyOwned (h.borrowed hv) k
  simp only [call, hrun, bind, Except.bind]
  exact .recounted h hi hsame

theorem Sound.same (h : Sound c lost) : Calm c lost recurses (.ok c) := .done h (.refl _) (.refl _)

theorem Sound.getByIndex {i : Nat} (h : Sound c lost) (hv : c.MayUse value) :
    Calm c lost recurses (c.call (.getByIndex value i)) := by
  obtain ⟨r, hr, hnone, hsome⟩ := h.inv.payloadOf .list (h.live hv)
  cases hs : c.store.shown value .list with
  | none =>
    simp only [call, Store.getByIndex, Store.slotsOf, hr, hnone hs, bind, Except.bind]
    exact h.same
  | some slots =>
    obtain ⟨a, t, p, pl, rfl, _, _, _, hp, _⟩ := hsome slots hs
    simp only [call, Store.getByIndex, Store.slotsOf, hr, Store.readPayload_eq hp, bind, Except.bind]
    exact h.same

theorem Sound.foreachBegin {kind : Kind} (h : Sound c lost) (hval : c.MayUse value) :
    Calm c lost recurses (c.call (.foreachBegin value kind)) := by
  obtain ⟨r, s', hrun, hquiet, hnone, hsome⟩ := h.inv.foreachBegin kind (h.borrowed hval)
  simp only [call, hrun, bind, Except.bind]
  cases r with
  | none => exact .quiet h (hnone rfl) hquiet
  | some p => exact .quiet h (hsome p rfl).1 hquiet

theorem Sound.foreachEnd {p : Nat} (h : Sound c lost) (hp : 0 < c.iters p) :
    Calm c lost recurses (c.call (.foreachEnd p)) := by
  have hsplit : c.iters - one p + one p = c.iters := by
    funext q
    by_cases hqp : q = p
    · subst q
      simp only [Pi.add_apply, Pi.sub_apply, one_self]
      omega
    · simp [one_of_ne hqp]
  have hi := h.inv
  rw [← hsplit] at hi
  obtain ⟨s', hrun, hi', hshr⟩ := hi.payloadFree
  simp only [call, hrun, bind, Except.bind]
  exact .shrinks h hi' hshr

theorem Sound.freeze (h : Sound c lost) (hv : c.MayUse v) : Calm c lost recurses (c.call (.freeze v)) := by
  obtain ⟨s', hrun, hi, hclosed, hfr, _⟩ := h.inv.freeze h.closed (h.live hv)
  simp only [call, hrun, bind, Except.bind]
  exact .done ⟨hi, hclosed⟩ hfr.keeps fun p pl _ hp => ⟨pl, (congrFun hfr.payloads p).trans hp, rfl⟩

theorem Sound.clone {fuel : Nat} (h : Sound c lost) (hv : c.MayUse v) :
    Calm c lost True (c.call (.clone fuel v)) := by
  rcases (Store.cloneOk fuel).1 _ _ _ v h.inv (h.live hv) with hrun | ⟨w, s', hrun, hcl⟩
  · simp only [call, hrun, bind, Except.bind]
    exact .fuel trivial
  · simp only [call, hrun, bind, Except.bind]
    have hi := hcl.inv
    rw [add_right_comm] at hi
    exact .keepsAll h hi hcl.keeps hcl.noFreeze hcl.iterating

theorem Sound.mergeObjects {deep : Bool} {fuel : Nat} {dst src : Val} (h : Sound c lost) (hdst : c.MayUse dst)
    (hsrc : c.MayUse src) : Outcome c lost meets True (c.call (.mergeObjects deep fuel dst src)) := by
  rcases (Store.mergeOk deep fuel).1 _ _ _ dst src h.inv (h.live hdst) (h.live hsrc) with
    hrun | ⟨rv, s', hrun, hm⟩
  · simp only [call, hrun, bind, Except.bind]
    exact .fuel trivial
  · simp only [call, hrun, bind, Except.bind]
    exact .evolves h hm.inv hm.evolves

theorem Sound.change {ch : Change} (h : Sound c lost) (hval : c.MayUse value) (hv : c.Owns ch.given) :
    Outcome c lost (ch.Fits c.store value) recurses (c.call (.change value ch)) := by
  rcases Change.mutated (h.split hv) (h.splitBorrowed hv hval) with ⟨hrun, hnot⟩ | ⟨rv, s', hrun, hm⟩
  · simp only [call, hrun, bind, Except.bind]
    exact .fault hnot
  · simp only [call, hrun, bind, Except.bind]
    exact .evolves h hm.inv hm.evolves

theorem Sound.addValue {event : Val} {key : Bytes} (h : Sound c lost) (hev : c.MayUse event) (hv : c.Owns v) :
    Outcome c lost (c.store.AcceptsValue event key) recurses
      (c.store.addValue event key v >>= fun s => .ok (c.gives v s)) := by
  obtain ⟨hbuilt, hnot⟩ := (h.split hv).addValue (h.splitBorrowed hv hev) key
  exact .built h hbuilt hnot

theorem Sound.setStacktrace {ips : List UInt64} (h : Sound c lost) (hval : c.MayUse value) :
    Outcome c lost meets recurses (c.call (.setStacktrace value ips)) := by
  obtain ⟨s', hrun, hi, he⟩ := h.inv.setStacktrace ips (h.borrowed hval)
  simp only [call, hrun, bind, Except.bind]
  exact .evolves h hi he

theorem Sound.transactionSetTag {tx : Option Val} {tag value : Option Bytes} (h : Sound c lost)
    (htx : ∀ inner, tx = some inner → c.MayUse inner) :
    Outcome c lost (Meets c.store (.transactionSetTag tx tag value)) recurses
      (c.call (.transactionSetTag tx tag value)) := by
  cases tx with
  | none => exact h.same.outcome
  | some inner =>
    obtain ⟨hbuilt, hnot⟩ := h.inv.setTag (h.borrowed (htx inner rfl)) tag value
    simp only [call, Store.transactionSetTag]
    rcases hbuilt with herr | ⟨s', hrun, hi, he⟩
    · rw [herr]
      exact .fault fun hm => hnot (hm inner rfl) herr
    · rw [hrun]
      exact .evolves h hi he

/-- A value that is neither taken nor released is lost, if it is a thing. -/
theorem Sound.loses (h : Sound c lost) (hv : c.Owns v) (hm : meets → refOf v = 0) :
    Outcome c lost meets recurses (.ok (c.gives v c.store)) := by
  have hlost : c.owned - refOf v + (lost + refOf v) = c.owned + lost := by
    rw [← add_assoc]
    exact hv.split
  have hsound : Sound (c.gives v c.store) (lost + refOf v) := by
    constructor
    · change c.store.Inv (c.owned - refOf v + (lost + refOf v)) c.iters
      rw [hlost]
      exact h.inv
    · exact h.closed
  apply Outcome.done hsound (.refl c.store)
  intro hmeets
  rw [hm hmeets, add_zero]

theorem Sound.transactionSetDataN {tx : Option Val} {key : Option Bytes} (h : Sound c lost)
    (htx : ∀ inner, tx = some inner → c.MayUse inner) (hv : c.Owns v) :
    Outcome c lost (Meets c.store (.transactionSetDataN tx key v)) recurses
      (c.call (.transactionSetDataN tx key v)) := by
  cases tx with
  | none => exact h.loses hv fun hm => hm.1 rfl
  | some inner =>
    obtain ⟨hbuilt, hnot⟩ := (h.split hv).setData (k := key) (h.splitBorrowed hv (htx inner rfl)) (ascii "data")
    exact .built h hbuilt fun hm => hnot (hm.2 inner rfl)

theorem Sound.transactionSetData {tx : Option Val} {key : Option Bytes} (h : Sound c lost)
    (htx : ∀ inner, tx = some inner → c.MayUse inner) (hv : c.Owns v) :
    Outcome c lost (Meets c.store (.transactionSetData tx key v)) recurses
      (c.call (.transactionSetData tx key v)) := by
  cases key with
  | none => exact h.loses hv fun hm => hm.1 (.inr rfl)
  | some key =>
    cases tx with
    | none => exact h.loses hv fun hm => hm.1 (.inl rfl)
    | some inner =>
      obtain ⟨hbuilt, hnot⟩ := (h.split hv).setData (k := some key) (h.splitBorrowed hv (htx inner rfl))
        (ascii "data")
      exact .built h hbuilt fun hm => hnot (hm.2 nofun inner rfl)

theorem Sound.calm {k : Call} (h : Sound c lost) (hk : k.Calm) (hf : c.Follows k) :
    Calm c lost k.Recurses (c.call k) := by
  cases k with
  | newLeaf v => exact .created h (h.inv.newLeaf v)
  | newContainer kind => exact .created h (h.inv.newContainerIn kind 2)
  | incref v => exact h.incref hf
  | decref v => exact h.decref hf
  | getByKey value k =>
    simp only [Caller.call, h.inv.getByKey (h.live hf) k, bind, Except.bind]
    exact h.same
  | getByKeyOwned value k => exact h.getByKeyOwned hf
  | getByIndex value i => exact h.getByIndex hf
  | isFrozen value =>
    obtain ⟨b, hrun⟩ := Store.isFrozen_ok (h.live hf)
    simp only [Caller.call, hrun, bind, Except.bind]
    exact h.same
  | foreachBegin value kind => exact h.foreachBegin hf
  | foreachEnd p => exact h.foreachEnd hf
  | freeze v => exact h.freeze hf
  | clone fuel v => exact h.clone hf
  | change => exact hk.elim
  | mergeObjects => exact hk.elim
  | eventAddException => exact hk.elim
  | eventAddThread => exact hk.elim
  | setStacktrace => exact hk.elim
  | transactionSetTag => exact hk.elim
  | transactionSetData => exact hk.elim
  | transactionSetDataN => exact hk.elim

/-- Every call of a caller that follows the rules. -/
theorem Sound.call {k : Call} (h : Sound c lost) (hf : c.Follows k) :
    Outcome c lost (Meets c.store k) k.Recurses (c.call k) := by
  by_cases hk : k.Calm
  · exact (h.calm hk hf).outcome
  cases k with
  | change value ch => exact h.change hf.1 hf.2
  | mergeObjects deep fuel dst src => exact h.mergeObjects hf.1 hf.2
  | eventAddException event exception => exact h.addValue hf.1 hf.2
  | eventAddThread event thread => exact h.addValue hf.1 hf.2
  | setStacktrace value ips => exact h.setStacktrace hf
  | transactionSetTag tx tag value => exact h.transactionSetTag hf
  | transactionSetData tx key v => exact h.transactionSetData hf.1 hf.2
  | transactionSetDataN tx key v => exact h.transactionSetDataN hf.1 hf.2
  | _ => exact absurd trivial hk

/-! ## Runs -/

theorem Sound.start (fails : Nat → Bool) : Sound (start fails) 0 := by
  constructor
  · constructor
    · exact fun _ _ => rfl
    · exact fun _ _ => rfl
    · exact nofun
    · exact nofun
    · exact fun _ => rfl
    · exact fun _ => rfl
  · rintro a kind slots ⟨t, ht, _⟩
    cases ht

/-- The states of a caller that follows the rules. -/
inductive Run (fails : Nat → Bool) : Caller → Prop
  | start : Run fails (start fails)
  | step {c c' : Caller} {k : Call} : Run fails c → c.Follows k → c.call k = .ok c' → Run fails c'

/-- The same with calls that meet the condition. -/
inductive Meeting (fails : Nat → Bool) : Caller → Prop
  | start : Meeting fails (start fails)
  | step {c c' : Caller} {k : Call} : Meeting fails c → c.Follows k → Meets c.store k → c.call k = .ok c' →
    Meeting fails c'

theorem Meeting.sound {fails : Nat → Bool} (h : Meeting fails c) : Sound c 0 := by
  induction h with
  | start => exact .start fails
  | step _ hf hm hrun ih =>
    have hout := ih.call hf
    rw [hrun] at hout
    cases hout with
    | done hs _ hlost => exact hlost hm ▸ hs

/-- In every run whose calls meet the condition the reference counts are exact, and no
call that meets it touches a cell that is freed or outside of its block. -/
theorem ownership_exact (fails : Nat → Bool) (c : Caller) (h : Meeting fails c) :
    c.store.Inv c.owned c.iters ∧ ∀ k, c.Follows k → Meets c.store k →
      (∃ c', c.call k = .ok c' ∧ c'.store.Inv c'.owned c'.iters) ∨
        k.Recurses ∧ c.call k = .error .fuel := by
  have hsound := h.sound
  refine ⟨hsound.inv, ?_⟩
  intro k hf hm
  have hout := hsound.call hf
  cases hrun : c.call k with
  | error f =>
    rw [hrun] at hout
    cases hout with
    | fuel hrec => exact .inr ⟨hrec, rfl⟩
    | fault hnot => exact absurd hm hnot
  | ok c' =>
    rw [hrun] at hout
    cases hout with
    | done hs _ hlost =>
      have heq := hlost hm
      subst heq
      exact .inl ⟨c', rfl, hs.inv⟩

/-- A number in a list. -/
theorem ownership_exact_append : ∃ c, Meeting (fun _ => false) c ∧ c.store.rc 0 = 1 ∧ c.store.rc 1 = 1 ∧
    c.owned 0 = 1 ∧ c.owned 1 = 0 ∧ c.store.Inv c.owned c.iters := by
  have hlist : Meeting (fun _ => false) ((start fun _ => false).gets (.thing 0) _) :=
    .step (k := .newContainer .list) .start trivial trivial rfl
  have hleaf : Meeting (fun _ => false) (((start fun _ => false).gets (.thing 0) _).gets (.thing 1) _) :=
    .step (k := .newLeaf (.int64 7)) hlist trivial trivial rfl
  have happ := Meeting.step (k := .change (.thing 0) (.append (.thing 1))) hleaf
    (by
      constructor
      · rintro a ⟨⟩
        exact .owned (by decide)
      · rintro a ⟨⟩
        decide)
    trivial rfl
  exact ⟨_, happ, rfl, rfl, rfl, rfl, (ownership_exact _ _ happ).1⟩

/-- The exception goes to no event: the new object for it is freed, and its type is read. -/
theorem eventAddException_null : ¬ ∀ (fails : Nat → Bool) (c : Caller), Run fails c →
    c.store.Inv c.owned c.iters ∧ ∀ k, c.Follows k → c.call k ≠ .error .freed := by
  intro h
  have hnot := (h (fun _ => false) _ .start).2 (.eventAddException .null .null)
  apply hnot
  · exact ⟨nofun, nofun⟩
  · rfl

end Caller

end SentryNative.Memory
