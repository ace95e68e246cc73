import Mathlib.Algebra.BigOperators.Intervals
import Mathlib.Logic.Function.Basic
import SentryNative.Value.ObjectMap

/-!
# The value store

`sentry_value.c` with its two kinds of cells: a `thing_t` with its type, its frozen
bit and its reference count, and the payload of a list or object with a reference
count of its own. A cell that was freed is gone, and to touch it is a fault; no
address is used twice. Every call of `malloc` may fail: an oracle says which.
-/

namespace SentryNative.Memory

open CLib ObjectMap

/-! ## Cells -/

/-- `sentry_value_t`. -/
inductive Val where
  | null
  | bool (b : Bool)
  | int32 (i : Int32)
  | thing (a : Nat)
  deriving DecidableEq, Repr

inductive Kind where
  | list
  | object
  deriving DecidableEq, Repr

/-- What a thing has besides its count and its bit. A leaf is a string or a number. -/
inductive Body where
  | leaf (v : Value)
  | container (kind : Kind) (payload : Nat)

structure Thing where
  body : Body
  frozen : Bool
  refcount : Nat

/-- `list_t` and `obj_t`. A slot has a key; that of a list is not used. -/
structure Payload where
  slots : List (Bytes × Val)
  refcount : Nat

structure Store where
  things : Nat → Option Thing
  payloads : Nat → Option Payload
  nextThing : Nat
  nextPayload : Nat
  /-- Whether the n-th call of `malloc` fails. -/
  fails : Nat → Bool
  mallocs : Nat

inductive Fault where
  /-- A cell was touched that is freed. -/
  | freed
  /-- An index outside of its block was written. -/
  | wild
  /-- The recursion is deeper than the fuel. -/
  | fuel
  deriving DecidableEq, Repr

def Store.empty (fails : Nat → Bool) : Store := ⟨fun _ => none, fun _ => none, 0, 0, fails, 0⟩

/-- The things in some slots. -/
def children (slots : List (Bytes × Val)) : List Nat :=
  slots.filterMap fun p => match p.2 with
    | .thing a => some a
    | _ => none

namespace Store

def putThing (s : Store) (a : Nat) (t : Option Thing) : Store :=
  { s with things := Function.update s.things a t }

def putPayload (s : Store) (p : Nat) (pl : Option Payload) : Store :=
  { s with payloads := Function.update s.payloads p pl }

def newThing (s : Store) (t : Thing) : Store :=
  { s.putThing s.nextThing (some t) with nextThing := s.nextThing + 1 }

def newPayload (s : Store) (pl : Payload) : Store :=
  { s.putPayload s.nextPayload (some pl) with nextPayload := s.nextPayload + 1 }

def readThing (s : Store) (a : Nat) : Except Fault Thing :=
  match s.things a with
  | some t => .ok t
  | none => .error .freed

def readPayload (s : Store) (p : Nat) : Except Fault Payload :=
  match s.payloads p with
  | some pl => .ok pl
  | none => .error .freed

/-! ## Allocation -/

def malloc (s : Store) : Bool × Store := (!s.fails s.mallocs, { s with mallocs := s.mallocs + 1 })

/-- So many calls, up to the first that fails. -/
def mallocN : Nat → Store → Bool × Store
  | 0, s => (true, s)
  | n + 1, s => if s.fails s.mallocs then (false, s.malloc.2) else mallocN n s.malloc.2

/-! ## Reference counts -/

def rc (s : Store) (a : Nat) : Nat :=
  match s.things a with
  | some t => t.refcount
  | none => 0

/-- All references together: more than any release takes. -/
def refs (s : Store) : Nat := ∑ a ∈ Finset.range s.nextThing, s.rc a

/-- `sentry_value_incref`. -/
def incref (s : Store) (v : Val) : Except Fault Store :=
  match v with
  | .thing a => do
    let t ← s.readThing a
    return s.putThing a (some { t with refcount := t.refcount + 1 })
  | _ => return s

def increfAll (s : Store) : List (Bytes × Val) → Except Fault Store
  | [] => return s
  | (_, v) :: slots => do
    let s ← s.incref v
    s.increfAll slots

/-- `sentry_value_decref` on one thing after the other; the children of a freed
payload come next, as in the recursion of `thing_free`, `list_free` and `obj_free`. -/
def release : Nat → List Nat → Store → Except Fault Store
  | _, [], s => .ok s
  | 0, _ :: _, _ => .error .fuel
  | fuel + 1, a :: work, s =>
    match s.things a with
    | none => .error .freed
    | some t =>
      if t.refcount ≠ 1 then
        release fuel work (s.putThing a (some { t with refcount := t.refcount - 1 }))
      else match t.body with
        | .leaf _ => release fuel work (s.putThing a none)
        | .container _ p =>
          match s.payloads p with
          | none => .error .freed
          | some pl =>
            if pl.refcount ≠ 1 then
              release fuel work
                ((s.putThing a none).putPayload p (some { pl with refcount := pl.refcount - 1 }))
            else
              release fuel (children pl.slots ++ work) ((s.putThing a none).putPayload p none)

/-- `sentry_value_decref`. -/
def decref (s : Store) (v : Val) : Except Fault Store :=
  match v with
  | .thing a => release s.refs [a] s
  | _ => .ok s

/-- `list_free` and `obj_free`. -/
def payloadFree (s : Store) (p : Nat) : Except Fault Store := do
  let pl ← s.readPayload p
  if pl.refcount ≠ 1 then
    return s.putPayload p (some { pl with refcount := pl.refcount - 1 })
  else release s.refs (children pl.slots) (s.putPayload p none)

/-! ## Constructors -/

/-- `new_thing_value` with a reference of its own. -/
def newThingValue (s : Store) (body : Body) (frozen : Bool) : Val × Store :=
  match s.malloc with
  | (true, s) => (.thing s.nextThing, s.newThing ⟨body, frozen, 1⟩)
  | (false, s) => (.null, s)

/-- A string, double, int64 or uint64: frozen from the start. A string has a blob
besides its thing. -/
def newLeaf (s : Store) (v : Value) : Val × Store :=
  match v with
  | .string _ =>
    match s.malloc with
    | (true, s) => s.newThingValue (.leaf v) true
    | (false, s) => (.null, s)
  | v => s.newThingValue (.leaf v) true

/-- An empty container, with so many calls of `malloc`. -/
def newContainerIn (s : Store) (kind : Kind) (calls : Nat) : Val × Store :=
  match mallocN calls s with
  | (true, s) =>
    (.thing s.nextThing, (s.newPayload ⟨[], 1⟩).newThing ⟨.container kind s.nextPayload, false, 1⟩)
  | (false, s) => (.null, s)

/-- `sentry_value_new_list` and `sentry_value_new_object`. -/
def newContainer (s : Store) (kind : Kind) : Val × Store := s.newContainerIn kind 2

/-- `sentry__value_new_list_with_size`. -/
def newListWithSize (s : Store) (size : Nat) : Val × Store :=
  s.newContainerIn .list (if size = 0 then 2 else 3)

/-! ## Detach -/

/-- The calls of `malloc` in `list_clone` and `obj_clone`. -/
def cloneMallocs (kind : Kind) (len : Nat) : Nat :=
  if len = 0 then 1
  else match kind with
    | .list => 2
    | .object => 2 + len

/-- The copied slots; the key of a pair goes through `sentry__string_clone`. -/
def cloneSlots (kind : Kind) (slots : List (Bytes × Val)) : List (Bytes × Val) :=
  match kind with
  | .list => slots
  | .object => clonePairs slots

/-- `thing_detach`. When a copy fails, the references it took are given back. -/
def detach (s : Store) (a : Nat) : Except Fault (Bool × Store) := do
  let t ← s.readThing a
  match t.body with
  | .leaf _ => return (true, s)
  | .container kind p =>
    let pl ← s.readPayload p
    if pl.refcount ≤ 1 then return (true, s)
    else
      match mallocN (cloneMallocs kind pl.slots.length) s with
      | (false, s) => return (false, s)
      | (true, s) =>
        let s ← s.increfAll pl.slots
        let s ← s.payloadFree p
        let p' := s.nextPayload
        let s := s.newPayload ⟨cloneSlots kind pl.slots, 1⟩
        let t ← s.readThing a
        return (true, s.putThing a (some { t with body := .container kind p' }))

/-! ## Mutators -/

/-- `value_as_unfrozen_thing`, the check of the type and `thing_detach`: the payload
that may be written, or nothing. -/
def writable (s : Store) (value : Val) (kind : Kind) : Except Fault (Option Nat × Store) :=
  match value with
  | .thing a => do
    let t ← s.readThing a
    match t.body with
    | .leaf _ => return (none, s)
    | .container k _ =>
      if t.frozen || k ≠ kind then return (none, s)
      else
        let (ok, s) ← s.detach a
        if !ok then return (none, s)
        else
          let t ← s.readThing a
          match t.body with
          | .leaf _ => return (none, s)
          | .container _ p => return (some p, s)
  | _ => return (none, s)

/-- The slots of a payload are written. -/
def write (s : Store) (p : Nat) (slots : List (Bytes × Val)) : Except Fault Store := do
  let pl ← s.readPayload p
  return s.putPayload p (some { pl with slots := slots })

/-- The value of the pair that `sentry__slice_eqs` finds. -/
def findPair (k : Bytes) : List (Bytes × Val) → Option Val
  | [] => none
  | (stored, v) :: ps => if sliceEqs k stored then some v else findPair k ps

/-- The way out of a setter that fails: the value is released. -/
def fail (s : Store) (v : Val) : Except Fault (Nat × Store) := do
  let s ← s.decref v
  return (1, s)

/-- `sentry__value_set_by_key_owned`, once the key is there. -/
def setByKeyOwned (s : Store) (value : Val) (k : Bytes) (v : Val) : Except Fault (Nat × Store) := do
  match ← s.writable value .object with
  | (none, s) => s.fail v
  | (some p, s) =>
    let pl ← s.readPayload p
    match findPair k pl.slots with
    | some old =>
      let s ← s.decref old
      let s ← s.write p (setPairs k v pl.slots)
      return (0, s)
    | none =>
      -- reserve: whether there is room is left open
      let (ok, s) := s.malloc
      if !ok then s.fail v
      else
        let s ← s.write p (setPairs k v pl.slots)
        return (0, s)

/-- `sentry_value_set_by_key_n`, which clones the key first. Without a key it fails. -/
def setByKey (s : Store) (value : Val) (k : Option Bytes) (v : Val) : Except Fault (Nat × Store) :=
  match k with
  | none => s.fail v
  | some k =>
    match s.malloc with
    | (false, s) => s.fail v
    | (true, s) => s.setByKeyOwned value k v

/-- `sentry_value_remove_by_key_n`. -/
def removeByKey (s : Store) (value : Val) (k : Option Bytes) : Except Fault (Nat × Store) :=
  match k with
  | none => return (1, s)
  | some k => do
    match ← s.writable value .object with
    | (none, s) => return (1, s)
    | (some p, s) =>
      let pl ← s.readPayload p
      match findPair k pl.slots, removePairs k pl.slots with
      | some old, some slots =>
        let s ← s.decref old
        let s ← s.write p slots
        return (0, s)
      | _, _ => return (1, s)

/-- `sentry_value_append`. -/
def append (s : Store) (value v : Val) : Except Fault (Nat × Store) := do
  match ← s.writable value .list with
  | (none, s) => s.fail v
  | (some p, s) =>
    let pl ← s.readPayload p
    let (ok, s) := s.malloc
    if !ok then s.fail v
    else
      let s ← s.write p (pl.slots ++ [([], v)])
      return (0, s)

/-- The slots of a list up to an index, with null in the new ones. -/
def padTo (n : Nat) (slots : List (Bytes × Val)) : List (Bytes × Val) :=
  slots ++ List.replicate (n - slots.length) ([], .null)

/-- The indices up to which `reserve` computes the size of a block of values without
a wrap of its `size_t`. -/
def maxIndex : Nat := 2 ^ 60

/-- `sentry_value_set_by_index`. -/
def setByIndex (s : Store) (value : Val) (i : Nat) (v : Val) : Except Fault (Nat × Store) := do
  match ← s.writable value .list with
  | (none, s) => s.fail v
  | (some p, s) =>
    let pl ← s.readPayload p
    let (ok, s) := s.malloc
    if i + 1 = 2 ^ 64 then .error .wild
    else if !ok then s.fail v
    else if maxIndex ≤ i then .error .wild
    else
      let slots := padTo (i + 1) pl.slots
      let s ← s.decref ((slots[i]?.map Prod.snd).getD .null)
      let s ← s.write p (slots.set i ([], v))
      return (0, s)

/-- `sentry_value_remove_by_index`. -/
def removeByIndex (s : Store) (value : Val) (i : Nat) : Except Fault (Nat × Store) := do
  match ← s.writable value .list with
  | (none, s) => return (1, s)
  | (some p, s) =>
    let pl ← s.readPayload p
    match pl.slots[i]? with
    | none => return (0, s)
    | some slot =>
      let s ← s.decref slot.2
      let s ← s.write p (pl.slots.eraseIdx i)
      return (0, s)

/-! ## Reading -/

/-- The payload of a container of the kind, if the value is one. -/
def payloadOf (s : Store) (value : Val) (kind : Kind) : Except Fault (Option Nat) :=
  match value with
  | .thing a => do
    let t ← s.readThing a
    match t.body with
    | .leaf _ => return none
    | .container k p => return if k = kind then some p else none
  | _ => return none

/-- The slots of a container of the kind, if the value is one. -/
def slotsOf (s : Store) (value : Val) (kind : Kind) : Except Fault (Option (List (Bytes × Val))) := do
  match ← s.payloadOf value kind with
  | none => return none
  | some p =>
    let pl ← s.readPayload p
    return some pl.slots

/-- `sentry_value_get_by_key_n`; the value is borrowed. -/
def getByKey (s : Store) (value : Val) (k : Option Bytes) : Except Fault Val :=
  match k with
  | none => return .null
  | some k => do
    match ← s.slotsOf value .object with
    | some slots => return getPairs .null k slots
    | none => return .null

/-- `sentry_value_get_by_index`; the value is borrowed. -/
def getByIndex (s : Store) (value : Val) (i : Nat) : Except Fault Val := do
  match ← s.slotsOf value .list with
  | some slots => return (slots[i]?.map Prod.snd).getD .null
  | none => return .null

/-- `sentry_value_get_by_key_owned_n`. -/
def getByKeyOwned (s : Store) (value : Val) (k : Option Bytes) : Except Fault (Val × Store) := do
  let rv ← s.getByKey value k
  let s ← s.incref rv
  return (rv, s)

/-- `sentry_value_is_frozen`. -/
def isFrozen (s : Store) (value : Val) : Except Fault Bool :=
  match value with
  | .thing a => do
    let t ← s.readThing a
    return t.frozen
  | _ => return true

/-! ## Iteration -/

/-- `sentry_value_foreach_key_value` and `sentry_value_foreach_value` up to the first
call of the callback: the payload is kept. They end with `payloadFree`. -/
def foreachBegin (s : Store) (value : Val) (kind : Kind) : Except Fault (Option Nat × Store) := do
  match ← s.payloadOf value kind with
  | none => return (none, s)
  | some p =>
    let pl ← s.readPayload p
    return (some p, s.putPayload p (some { pl with refcount := pl.refcount + 1 }))

/-! ## Freeze -/

/-- `thing_freeze` on one thing after the other. -/
def freezeAll : Nat → List Nat → Store → Except Fault Store
  | _, [], s => .ok s
  | 0, _ :: _, _ => .error .fuel
  | fuel + 1, a :: work, s =>
    match s.things a with
    | none => .error .freed
    | some t =>
      if t.frozen then freezeAll fuel work s
      else
        match t.body with
        | .leaf _ => freezeAll fuel work (s.putThing a (some { t with frozen := true }))
        | .container _ p =>
          match s.payloads p with
          | none => .error .freed
          | some pl =>
            freezeAll fuel (children pl.slots ++ work) (s.putThing a (some { t with frozen := true }))

/-- What `thing_freeze` has before it on a thing: its children, unless it is frozen. -/
def unfrozenSlots (s : Store) (t : Option Thing) : Nat :=
  match t with
  | some ⟨.container _ p, false, _⟩ =>
    match s.payloads p with
    | some pl => (children pl.slots).length
    | none => 0
  | _ => 0

/-- Every thing is frozen once, so that this is enough for any freeze. -/
def freezeFuel (s : Store) : Nat := ∑ a ∈ Finset.range s.nextThing, s.unfrozenSlots (s.things a)

/-- `sentry_value_freeze`. -/
def freeze (s : Store) (v : Val) : Except Fault Store :=
  match v with
  | .thing a => freezeAll (s.freezeFuel + 1) [a] s
  | _ => .ok s

/-! ## Clone -/

/-- `value_is_container`. -/
def isContainer (s : Store) (v : Val) : Except Fault Bool :=
  match v with
  | .thing a => do
    let t ← s.readThing a
    match t.body with
    | .leaf _ => return false
    | .container _ _ => return true
  | _ => return false

/-- `thing_get_child`. -/
def getChild (s : Store) (a i : Nat) : Except Fault (Option (Nat × List (Bytes × Val) × Val)) := do
  let t ← s.readThing a
  match t.body with
  | .leaf _ => return none
  | .container _ p =>
    let pl ← s.readPayload p
    return pl.slots[i]?.map fun slot => (p, pl.slots, slot.2)

/-- The first container that `thing_clone_children` finds detaches the thing. -/
def detachOnce (s : Store) (b : Nat) (detached : Bool) : Except Fault (Bool × Store) :=
  if detached then .ok (true, s) else s.detach b

mutual

/-- `sentry__value_clone`. -/
def clone : Nat → Store → Val → Except Fault (Val × Store)
  | 0, _, _ => .error .fuel
  | fuel + 1, s, .thing a => do
    let t ← s.readThing a
    match t.body with
    | .leaf _ =>
      let s ← s.incref (.thing a)
      return (.thing a, s)
    | .container kind p =>
      let pl ← s.readPayload p
      let s := s.putPayload p (some { pl with refcount := pl.refcount + 1 })
      match s.newThingValue (.container kind p) false with
      | (.thing b, s) =>
        let (ok, s) ← cloneChildren fuel s b 0 pl.slots.length false
        if ok then return (.thing b, s)
        else
          let s ← s.decref (.thing b)
          return (.null, s)
      | (rv, s) =>
        let s ← s.payloadFree p
        return (rv, s)
  | _ + 1, s, v => .ok (v, s)

/-- `thing_clone_children` from an index on. -/
def cloneChildren : Nat → Store → Nat → Nat → Nat → Bool → Except Fault (Bool × Store)
  | 0, _, _, _, _, _ => .error .fuel
  | _ + 1, s, _, _, 0, _ => .ok (true, s)
  | fuel + 1, s, b, i, len + 1, detached => do
    match ← s.getChild b i with
    | none => return (true, s)
    | some (_, _, child) =>
      if !(← s.isContainer child) then cloneChildren fuel s b (i + 1) len detached
      else
        let (ok, s) ← s.detachOnce b detached
        if !ok then return (false, s)
        else
          let (cloned, s) ← clone fuel s child
          if cloned = .null then return (false, s)
          else
            let s ← s.decref child
            match ← s.getChild b i with
            | none => return (true, s)
            | some (p, slots, _) =>
              let s ← s.write p (slots.modify i fun slot => (slot.1, cloned))
              cloneChildren fuel s b (i + 1) len true

end

end Store

end SentryNative.Memory
