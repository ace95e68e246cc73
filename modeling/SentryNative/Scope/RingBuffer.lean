import Mathlib.Logic.Function.Basic
import SentryNative.Lib.Machine
import SentryNative.Memory.ListIndex

/-!
# Ring buffers

`sentry_ringbuffer.c`. A ring buffer has a list of its own, but the payload of the list
may be that of its clones too until one of them changes it. Every allocation succeeds.
-/

namespace SentryNative.RingBuffer

open ListIndex (padded)

/-- What the lists hold: null, which of the values are containers, and the clone of one. -/
structure Values (α : Type) where
  null : α
  isContainer : α → Bool
  clone : α → α

/-- `list_t`. -/
structure Payload (α : Type) where
  items : List α
  refcount : Nat

/-- `sentry_ringbuffer_t`, with the payload that its list refers to. -/
structure Ring where
  list : Nat
  maxSize : Nat
  startIdx : Nat
  deriving DecidableEq, Repr

/-- The ring buffers there are, and the payloads of their lists. -/
structure World (α : Type) where
  payloads : Nat → Payload α
  next : Nat
  rings : List Ring

variable {α : Type}

namespace World

def empty (α : Type) : World α := ⟨fun _ => ⟨[], 0⟩, 0, []⟩

def put (w : World α) (p : Nat) (l : Payload α) : World α :=
  { w with payloads := Function.update w.payloads p l }

/-- A payload of its own. -/
def newPayload (w : World α) (items : List α) : Nat × World α :=
  (w.next, { w.put w.next ⟨items, 1⟩ with next := w.next + 1 })

/-- `thing_detach` of a list. -/
def detach (w : World α) (p : Nat) : Nat × World α :=
  let l := w.payloads p
  if l.refcount ≤ 1 then (p, w)
  else (w.put p { l with refcount := l.refcount - 1 }).newPayload l.items

/-- A ring buffer whose list has other items now, in a payload that is its own. -/
def store (w : World α) (b : Nat) (rb : Ring) (items : List α) (startIdx : Nat) : World α :=
  let (p, w) := w.detach rb.list
  { w.put p { w.payloads p with items } with rings := w.rings.set b { rb with list := p, startIdx } }

/-- `sentry__ringbuffer_new`. -/
def new (w : World α) (maxSize : Nat) : World α :=
  let (p, w) := w.newPayload []
  { w with rings := w.rings ++ [⟨p, maxSize, 0⟩] }

/-- `sentry__ringbuffer_clone`. A list with containers in it is detached and gets their
clones. -/
def clone (vs : Values α) (w : World α) (b : Nat) : World α :=
  match w.rings[b]? with
  | none => w
  | some rb =>
    let l := w.payloads rb.list
    let shared := w.put rb.list { l with refcount := l.refcount + 1 }
    if l.items.any vs.isContainer then
      let (p, detached) := shared.detach rb.list
      let items := l.items.map fun v => if vs.isContainer v then vs.clone v else v
      { detached.put p { detached.payloads p with items } with
        rings := detached.rings ++ [{ rb with list := p }] }
    else { shared with rings := shared.rings ++ [rb] }

/-- `sentry__ringbuffer_append`, with what it returns. An index is less than the length of
a list, so nothing here wraps around. -/
def append (vs : Values α) (w : World α) (b : Nat) (v : α) : Int × World α :=
  match w.rings[b]? with
  | none => (-1, w)
  | some rb =>
    if rb.maxSize = 0 then (-1, w)
    else
      let items := (w.payloads rb.list).items
      if items.length < rb.maxSize then (0, w.store b rb (items ++ [v]) rb.startIdx)
      else if items.length = rb.maxSize then
        (0, w.store b rb ((padded vs.null items rb.startIdx).set rb.startIdx v)
          ((rb.startIdx + 1) % rb.maxSize))
      else (-1, w)

/-- `sentry__ringbuffer_set_max_size`. -/
def setMaxSize (w : World α) (b maxSize : Nat) : World α :=
  match w.rings[b]? with
  | none => w
  | some rb =>
    if 0 < (w.payloads rb.list).items.length then w
    else { w with rings := w.rings.set b { rb with maxSize } }

/-- The items of `sentry__ringbuffer_to_list`. -/
def ordered (null : α) (items : List α) (startIdx : Nat) : List α :=
  (List.range items.length).map fun i => items.getD ((startIdx + i) % items.length) null

/-- `sentry__ringbuffer_to_list`. -/
def toList (vs : Values α) (w : World α) (b : Nat) : Option (List α) :=
  (w.rings[b]?).map fun rb => ordered vs.null (w.payloads rb.list).items rb.startIdx

end World

inductive Op (α : Type) where
  | new (maxSize : Nat)
  | clone (b : Nat)
  | append (b : Nat) (v : α)
  | setMaxSize (b maxSize : Nat)

def Op.run (vs : Values α) (w : World α) : Op α → World α
  | .new maxSize => w.new maxSize
  | .clone b => w.clone vs b
  | .append b v => (w.append vs b v).2
  | .setMaxSize b maxSize => w.setMaxSize b maxSize

/-! ## What a ring buffer is for -/

/-- All that was appended, and the size that was set while there was nothing. -/
structure Log (α : Type) where
  maxSize : Nat
  appended : List α

/-- The newest entries. -/
def Log.newest (l : Log α) : List α := l.appended.drop (l.appended.length - l.maxSize)

def Op.log (vs : Values α) (logs : List (Log α)) : Op α → List (Log α)
  | .new maxSize => logs ++ [⟨maxSize, []⟩]
  | .clone b =>
    match logs[b]? with
    | none => logs
    | some l =>
      logs ++ [{ l with appended := l.appended.map fun v => if vs.isContainer v then vs.clone v else v }]
  | .append b v => logs.modify b fun l => if l.maxSize = 0 then l else { l with appended := l.appended ++ [v] }
  | .setMaxSize b maxSize => logs.modify b fun l => if l.appended = [] then { l with maxSize } else l

/-- The list of a ring buffer holds the end of the log, each entry where its number says. -/
structure Holds (items : List α) (startIdx : Nat) (l : Log α) : Prop where
  length : items.length = min l.appended.length l.maxSize
  start : startIdx = if l.appended.length < l.maxSize then 0 else l.appended.length % l.maxSize
  items : ∀ j, l.appended.length - l.maxSize ≤ j → j < l.appended.length →
    items[j % l.maxSize]? = l.appended[j]?
  /-- Nothing is appended to a ring buffer without room. -/
  room : l.maxSize = 0 → l.appended = []

theorem Holds.new (maxSize : Nat) : Holds ([] : List α) 0 ⟨maxSize, []⟩ where
  length := by simp
  start := by simp
  items j _ h := absurd h (Nat.not_lt_zero j)
  room _ := rfl

theorem Holds.resize {l : Log α} (h : l.appended = []) (maxSize : Nat) :
    Holds ([] : List α) 0 { l with maxSize } := by
  obtain ⟨m, appended⟩ := l
  subst h
  exact Holds.new maxSize

theorem Holds.map {items : List α} {startIdx : Nat} {l : Log α} (h : Holds items startIdx l) (f : α → α) :
    Holds (items.map f) startIdx { l with appended := l.appended.map f } where
  length := by simpa using h.length
  start := by simpa using h.start
  items j hlo hhi := by
    rw [List.length_map] at hlo hhi
    rw [List.getElem?_map, List.getElem?_map, h.items j hlo hhi]
  room h0 := by simp [h.room h0]

/-- Before the list is full the entry goes behind the others. -/
theorem Holds.push {items : List α} {startIdx : Nat} {l : Log α} (h : Holds items startIdx l)
    (hlt : items.length < l.maxSize) (v : α) :
    Holds (items ++ [v]) startIdx { l with appended := l.appended ++ [v] } := by
  have hlen := h.length
  have hn : l.appended.length < l.maxSize := by omega
  have hstart := h.start
  rw [if_pos hn] at hstart
  refine ⟨by simp; omega, ?_, fun j hlo hhi => ?_, fun h0 => absurd h0 (by dsimp only; omega)⟩
  · simp only [List.length_append, List.length_singleton, hstart]
    split
    · rfl
    · rw [show l.appended.length + 1 = l.maxSize by omega, Nat.mod_self]
  · simp only [List.length_append, List.length_singleton] at hlo hhi
    dsimp only
    rw [Nat.mod_eq_of_lt (by omega)]
    rcases Nat.lt_or_ge j l.appended.length with hj | hj
    · have hold := h.items j (by omega) hj
      rw [Nat.mod_eq_of_lt (by omega)] at hold
      rw [List.getElem?_append_left (by omega), List.getElem?_append_left hj, hold]
    · rw [List.getElem?_append_right (by omega), List.getElem?_append_right hj,
        show items.length = l.appended.length by omega]

/-- Then it takes the place of the oldest. -/
theorem Holds.overwrite {items : List α} {startIdx : Nat} {l : Log α} (h : Holds items startIdx l)
    (hfull : items.length = l.maxSize) (hpos : l.maxSize ≠ 0) (v : α) :
    Holds (items.set startIdx v) ((startIdx + 1) % l.maxSize) { l with appended := l.appended ++ [v] } := by
  have hlen := h.length
  have hn : ¬ l.appended.length < l.maxSize := by omega
  have hstart := h.start
  rw [if_neg hn] at hstart
  have hlt : l.appended.length % l.maxSize < l.maxSize := Nat.mod_lt _ (by omega)
  refine ⟨by simp; omega, ?_, fun j hlo hhi => ?_, fun h0 => absurd h0 hpos⟩
  · rw [hstart, if_neg (by simp; omega), List.length_append, List.length_singleton]
    exact Nat.mod_add_mod _ _ _
  · simp only [List.length_append, List.length_singleton] at hlo hhi
    rw [hstart]
    rcases Nat.lt_or_ge j l.appended.length with hj | hj
    · have hne : l.appended.length % l.maxSize ≠ j % l.maxSize := by
        intro heq
        have := Machine.eq_of_mod_eq (show j ≤ l.appended.length by omega) (by omega) (Nat.le_refl j) (by omega) heq
        omega
      rw [List.getElem?_set_ne hne, List.getElem?_append_left hj, h.items j (by omega) hj]
    · obtain rfl : j = l.appended.length := by omega
      rw [List.getElem?_set_self (by omega), List.getElem?_append_right (Nat.le_refl _), Nat.sub_self]
      rfl

/-- What is read from the start index on are the newest entries in their order. -/
theorem Holds.ordered {items : List α} {startIdx : Nat} {l : Log α} (h : Holds items startIdx l) (null : α) :
    World.ordered null items startIdx = l.newest := by
  have hlen := h.length
  refine List.ext_getElem? fun i => ?_
  rw [World.ordered, Log.newest, List.getElem?_map, List.getElem?_drop]
  rcases Nat.lt_or_ge i items.length with hi | hi
  · rw [List.getElem?_range hi, Option.map_some]
    have hpos : 0 < l.maxSize := by omega
    have hold := h.items (l.appended.length - l.maxSize + i) (by omega) (by omega)
    have hidx : (startIdx + i) % items.length = (l.appended.length - l.maxSize + i) % l.maxSize := by
      rw [h.start]
      split
      · rw [hlen, Nat.mod_eq_of_lt (by omega), Nat.mod_eq_of_lt (by omega)]
        omega
      · rw [show items.length = l.maxSize by omega, Nat.mod_add_mod,
          show l.appended.length + i = l.appended.length - l.maxSize + i + l.maxSize by omega,
          Nat.add_mod_right]
    have hsome : l.appended[l.appended.length - l.maxSize + i]? =
        some (items.getD ((startIdx + i) % items.length) null) := by
      have hin : (l.appended.length - l.maxSize + i) % l.maxSize < items.length := by
        rcases Nat.lt_or_ge l.appended.length l.maxSize with hlt | hge
        · rw [Nat.mod_eq_of_lt (by omega)]
          omega
        · exact lt_of_lt_of_le (Nat.mod_lt _ hpos) (by omega)
      rw [hidx, ← hold, List.getD_eq_getElem?_getD, List.getElem?_eq_getElem hin, Option.getD_some]
    exact hsome.symm
  · rw [List.getElem?_eq_none (by simpa using hi), List.getElem?_eq_none (by omega)]
    rfl

/-! ## Shared payloads -/

namespace World

variable {w : World α} {b : Nat} {rb : Ring}

/-- The items, the size and the start index of a ring buffer. -/
def view (w : World α) (b : Nat) : Option (List α × Nat × Nat) :=
  (w.rings[b]?).map fun rb => ((w.payloads rb.list).items, rb.maxSize, rb.startIdx)

/-- A payload counts the lists that it is of. -/
structure Counted (w : World α) : Prop where
  bound : ∀ rb ∈ w.rings, rb.list < w.next
  count : ∀ p, (w.payloads p).refcount = w.rings.countP (·.list = p)

theorem empty_counted : (World.empty α).Counted := ⟨nofun, fun _ => rfl⟩

theorem Counted.unused (h : w.Counted) {p : Nat} (hp : w.next ≤ p) :
    w.rings.countP (·.list = p) = 0 := by
  refine List.countP_eq_zero.mpr fun rb hrb => ?_
  have := h.bound rb hrb
  simp only [decide_eq_true_eq]
  omega

theorem countP_set_list {rings : List Ring} (hb : rings[b]? = some rb) (p : Nat) (rb' : Ring) :
    (rings.set b rb').countP (·.list = p) =
      rings.countP (·.list = p) - (if rb.list = p then 1 else 0) + if rb'.list = p then 1 else 0 := by
  obtain ⟨hlt, heq⟩ := List.getElem?_eq_some_iff.mp hb
  rw [List.countP_set hlt, heq]
  simp only [decide_eq_true_eq]

theorem one_le_countP {rings : List Ring} (hb : rings[b]? = some rb) :
    1 ≤ rings.countP (·.list = rb.list) :=
  List.countP_pos_iff.mpr ⟨rb, List.mem_of_getElem? hb, by simp⟩

/-- Another ring buffer with the payload counts too. -/
theorem two_le_countP {rings : List Ring} {b' : Nat} {rb' : Ring} (hb : rings[b]? = some rb)
    (hb' : rings[b']? = some rb') (hne : b ≠ b') (hlist : rb'.list = rb.list) :
    2 ≤ rings.countP (·.list = rb.list) := by
  have hset := countP_set_list hb rb.list { rb with list := rb.list + 1 }
  have hkept : (rings.set b { rb with list := rb.list + 1 })[b']? = some rb' := by
    rw [List.getElem?_set_ne hne, hb']
  have hone := one_le_countP hkept
  rw [hlist] at hone
  simp only [if_true, Nat.succ_ne_self, if_false, add_zero] at hset
  omega

/-- After `detach` the payload is used by one list at most, and no other list sees a
change. -/
theorem store_spec (h : w.Counted) (hb : w.rings[b]? = some rb) (items : List α) (startIdx : Nat) :
    (w.store b rb items startIdx).Counted ∧ ∀ b', (w.store b rb items startIdx).view b' =
      if b' = b then some (items, rb.maxSize, startIdx) else w.view b' := by
  have hlt : b < w.rings.length := (List.getElem?_eq_some_iff.mp hb).1
  have hbound := h.bound rb (List.mem_of_getElem? hb)
  unfold store detach
  dsimp only
  split
  · rename_i hone
    refine ⟨⟨fun rb' hrb' => ?_, fun p => ?_⟩, fun b' => ?_⟩
    · rcases List.mem_or_eq_of_mem_set hrb' with hmem | rfl
      · exact h.bound rb' hmem
      · exact hbound
    · dsimp only [put]
      rw [countP_set_list hb, ← h.count p]
      by_cases hp : p = rb.list
      · subst hp
        have := one_le_countP hb
        rw [← h.count] at this
        simp only [Function.update_self, if_true]
        omega
      · rw [Function.update_of_ne hp, if_neg (Ne.symm hp)]
        omega
    · dsimp only [view, put]
      by_cases hbb : b' = b
      · subst hbb
        rw [if_pos rfl, List.getElem?_set_self hlt]
        simp
      · rw [if_neg hbb, List.getElem?_set_ne (Ne.symm hbb)]
        cases hb' : w.rings[b']? with
        | none => rfl
        | some rb' =>
          have hother : rb'.list ≠ rb.list := fun heq => by
            have := two_le_countP hb hb' (Ne.symm hbb) heq
            rw [← h.count] at this
            omega
          simp only [Option.map_some, Function.update_of_ne hother]
  · rename_i hmany
    dsimp only [newPayload, put]
    refine ⟨⟨fun rb' hrb' => ?_, fun p => ?_⟩, fun b' => ?_⟩
    · rcases List.mem_or_eq_of_mem_set hrb' with hmem | rfl
      · exact Nat.lt_succ_of_lt (h.bound rb' hmem)
      · exact Nat.lt_succ_self _
    · dsimp only
      rw [countP_set_list hb, ← h.count p]
      by_cases hnext : p = w.next
      · subst hnext
        have hzero := h.unused (Nat.le_refl w.next)
        rw [← h.count] at hzero
        simp only [Function.update_self, if_true, hzero]
        omega
      · rw [Function.update_of_ne hnext, Function.update_of_ne hnext, if_neg (Ne.symm hnext)]
        by_cases hp : p = rb.list
        · subst hp
          simp
        · rw [Function.update_of_ne hp, if_neg (Ne.symm hp)]
          omega
    · dsimp only [view]
      by_cases hbb : b' = b
      · subst hbb
        rw [if_pos rfl, List.getElem?_set_self hlt]
        simp
      · rw [if_neg hbb, List.getElem?_set_ne (Ne.symm hbb)]
        cases hb' : w.rings[b']? with
        | none => rfl
        | some rb' =>
          have hold : rb'.list ≠ w.next := (h.bound rb' (List.mem_of_getElem? hb')).ne
          simp only [Option.map_some, Function.update_of_ne hold]
          by_cases hp : rb'.list = rb.list
          · rw [hp, Function.update_self]
          · rw [Function.update_of_ne hp]

theorem store_length (w : World α) (b : Nat) (rb : Ring) (items : List α) (startIdx : Nat) :
    (w.store b rb items startIdx).rings.length = w.rings.length := by
  unfold store detach
  dsimp only
  split <;> simp [newPayload, put]

theorem clone_length (vs : Values α) (hb : w.rings[b]? = some rb) :
    (w.clone vs b).rings.length = w.rings.length + 1 := by
  unfold clone detach
  rw [hb]
  dsimp only
  split
  · split <;> simp [newPayload, put]
  · simp [put]

theorem view_eq_some {items : List α} {maxSize startIdx : Nat}
    (h : w.view b = some (items, maxSize, startIdx)) :
    ∃ rb, w.rings[b]? = some rb ∧ (w.payloads rb.list).items = items ∧ rb.maxSize = maxSize ∧
      rb.startIdx = startIdx := by
  obtain ⟨rb, hb, heq⟩ := Option.map_eq_some_iff.mp h
  cases heq
  exact ⟨rb, hb, rfl, rfl, rfl⟩

/-- A new ring buffer with a payload of its own. -/
theorem push_new_spec (h : w.Counted) (items : List α) (maxSize startIdx : Nat) :
    let w' : World α := { (w.newPayload items).2 with
      rings := w.rings ++ [⟨w.next, maxSize, startIdx⟩] }
    w'.Counted ∧ ∀ b', w'.view b' =
      if b' = w.rings.length then some (items, maxSize, startIdx) else w.view b' := by
  intro w'
  refine ⟨⟨fun rb' hrb' => ?_, fun p => ?_⟩, fun b' => ?_⟩
  · rcases List.mem_append.mp hrb' with hmem | hmem
    · exact Nat.lt_succ_of_lt (h.bound rb' hmem)
    · rw [List.mem_singleton.mp hmem]
      exact Nat.lt_succ_self _
  · dsimp only [w', newPayload, put]
    rw [List.countP_append, ← h.count]
    by_cases hp : p = w.next
    · subst hp
      have hzero := h.unused (Nat.le_refl w.next)
      rw [← h.count] at hzero
      simp [hzero]
    · rw [Function.update_of_ne hp]
      simp [Ne.symm hp]
  · dsimp only [w', view, newPayload, put]
    by_cases hbb : b' = w.rings.length
    · subst hbb
      rw [if_pos rfl, List.getElem?_append_right (Nat.le_refl _), Nat.sub_self]
      simp
    · rw [if_neg hbb]
      rcases Nat.lt_or_ge b' w.rings.length with hlt | hge
      · rw [List.getElem?_append_left hlt]
        cases hb' : w.rings[b']? with
        | none => rfl
        | some rb' =>
          have hold : rb'.list ≠ w.next := (h.bound rb' (List.mem_of_getElem? hb')).ne
          simp only [Option.map_some, Function.update_of_ne hold]
      · rw [List.getElem?_eq_none hge, List.getElem?_eq_none (by simp; omega)]
        rfl

/-- A clone has the same items, but for its containers, in the same places. -/
theorem clone_spec (vs : Values α) (h : w.Counted) (hb : w.rings[b]? = some rb) :
    (w.clone vs b).Counted ∧ ∀ b', (w.clone vs b).view b' =
      if b' = w.rings.length then some ((w.payloads rb.list).items.map
        fun v => if vs.isContainer v then vs.clone v else v, rb.maxSize, rb.startIdx)
      else w.view b' := by
  have hone := one_le_countP hb
  rw [← h.count] at hone
  unfold clone
  rw [hb]
  dsimp only
  split
  · -- the payload has two users now, so it is copied and has one again
    have hdetach : (w.put rb.list { w.payloads rb.list with
        refcount := (w.payloads rb.list).refcount + 1 }).detach rb.list =
        w.newPayload (w.payloads rb.list).items := by
      simp only [detach, put, newPayload, Function.update_self, Function.update_idem,
        Nat.add_sub_cancel, Function.update_eq_self]
      rw [if_neg (by omega)]
    rw [hdetach]
    have hpush := push_new_spec h ((w.payloads rb.list).items.map
      fun v => if vs.isContainer v then vs.clone v else v) rb.maxSize rb.startIdx
    simpa only [newPayload, put, Function.update_self, Function.update_idem] using hpush
  · rename_i hnone
    have hsame : ((w.payloads rb.list).items.map
        fun v => if vs.isContainer v then vs.clone v else v) = (w.payloads rb.list).items := by
      conv_rhs => rw [← List.map_id (w.payloads rb.list).items]
      refine List.map_congr_left fun v hv => if_neg fun hc => hnone ?_
      exact List.any_eq_true.mpr ⟨v, hv, hc⟩
    rw [hsame]
    refine ⟨⟨fun rb' hrb' => ?_, fun p => ?_⟩, fun b' => ?_⟩
    · rcases List.mem_append.mp hrb' with hmem | hmem
      · exact h.bound rb' hmem
      · rw [List.mem_singleton.mp hmem]
        exact h.bound rb (List.mem_of_getElem? hb)
    · dsimp only [put]
      rw [List.countP_append, ← h.count]
      by_cases hp : p = rb.list
      · subst hp
        simp
      · rw [Function.update_of_ne hp]
        simp [Ne.symm hp]
    · have hitems : ∀ p, (Function.update w.payloads rb.list
          { w.payloads rb.list with refcount := (w.payloads rb.list).refcount + 1 } p).items =
          (w.payloads p).items := by
        intro p
        by_cases hp : p = rb.list
        · rw [hp, Function.update_self]
        · rw [Function.update_of_ne hp]
      dsimp only [view, put]
      simp only [hitems]
      by_cases hbb : b' = w.rings.length
      · subst hbb
        rw [if_pos rfl, List.getElem?_append_right (Nat.le_refl _), Nat.sub_self]
        rfl
      · rw [if_neg hbb]
        rcases Nat.lt_or_ge b' w.rings.length with hlt | hge
        · rw [List.getElem?_append_left hlt]
        · rw [List.getElem?_eq_none hge, List.getElem?_eq_none (by simp; omega)]

theorem resize_spec (h : w.Counted) (hb : w.rings[b]? = some rb) (maxSize : Nat) :
    let w' : World α := { w with rings := w.rings.set b { rb with maxSize } }
    w'.Counted ∧ ∀ b', w'.view b' =
      if b' = b then some ((w.payloads rb.list).items, maxSize, rb.startIdx) else w.view b' := by
  intro w'
  have hlt : b < w.rings.length := (List.getElem?_eq_some_iff.mp hb).1
  refine ⟨⟨fun rb' hrb' => ?_, fun p => ?_⟩, fun b' => ?_⟩
  · rcases List.mem_or_eq_of_mem_set hrb' with hmem | rfl
    · exact h.bound rb' hmem
    · exact h.bound rb (List.mem_of_getElem? hb)
  · dsimp only [w']
    rw [countP_set_list hb, ← h.count p]
    by_cases hp : rb.list = p
    · have := one_le_countP hb
      rw [← h.count, hp] at this
      simp only [hp, if_true]
      omega
    · simp only [if_neg hp]
      omega
  · dsimp only [w', view]
    by_cases hbb : b' = b
    · subst hbb
      rw [if_pos rfl, List.getElem?_set_self hlt]
      rfl
    · rw [if_neg hbb, List.getElem?_set_ne (Ne.symm hbb)]

end World

/-! ## Runs -/

/-- Every ring buffer holds its log. -/
structure Follows (w : World α) (logs : List (Log α)) : Prop where
  counted : w.Counted
  length : w.rings.length = logs.length
  holds : ∀ b l, logs[b]? = some l →
    ∃ items startIdx, w.view b = some (items, l.maxSize, startIdx) ∧ Holds items startIdx l

theorem Follows.empty : Follows (World.empty α) [] := ⟨World.empty_counted, rfl, nofun⟩

/-- One ring buffer and its log change. -/
theorem Follows.modify {w w' : World α} {logs : List (Log α)} {b : Nat} {l : Log α} {f : Log α → Log α}
    {items : List α} {startIdx : Nat} (h : Follows w logs) (hl : logs[b]? = some l)
    (hspec : w'.Counted ∧ ∀ b', w'.view b' =
      if b' = b then some (items, (f l).maxSize, startIdx) else w.view b')
    (hlen : w'.rings.length = w.rings.length) (hholds : Holds items startIdx (f l)) :
    Follows w' (logs.modify b f) := by
  refine ⟨hspec.1, by rw [hlen, h.length, List.length_modify], fun b' l' hl' => ?_⟩
  rw [hspec.2]
  by_cases hbb : b' = b
  · subst hbb
    rw [List.getElem?_modify_eq, hl] at hl'
    cases hl'
    exact ⟨items, startIdx, if_pos rfl, hholds⟩
  · rw [List.getElem?_modify_ne _ _ (Ne.symm hbb)] at hl'
    rw [if_neg hbb]
    exact h.holds b' l' hl'

/-- A ring buffer and its log are added. -/
theorem Follows.push {w w' : World α} {logs : List (Log α)} {l : Log α} {items : List α} {startIdx : Nat}
    (h : Follows w logs) (hspec : w'.Counted ∧ ∀ b', w'.view b' =
      if b' = w.rings.length then some (items, l.maxSize, startIdx) else w.view b')
    (hlen : w'.rings.length = w.rings.length + 1) (hholds : Holds items startIdx l) :
    Follows w' (logs ++ [l]) := by
  refine ⟨hspec.1, by simp [hlen, h.length], fun b' l' hl' => ?_⟩
  rw [hspec.2]
  rcases Nat.lt_trichotomy b' logs.length with hlt | rfl | hgt
  · rw [List.getElem?_append_left hlt] at hl'
    rw [if_neg (by rw [h.length]; omega)]
    exact h.holds b' l' hl'
  · rw [List.getElem?_append_right (Nat.le_refl _), Nat.sub_self] at hl'
    cases hl'
    exact ⟨items, startIdx, if_pos h.length.symm, hholds⟩
  · rw [List.getElem?_eq_none (by simp; omega)] at hl'
    cases hl'

theorem Follows.modify_none {w : World α} {logs : List (Log α)} {b : Nat} {f : Log α → Log α}
    (h : Follows w logs) (hl : logs[b]? = none) : Follows w (logs.modify b f) := by
  rwa [List.modify_eq_self (List.getElem?_eq_none_iff.mp hl)]

theorem Follows.modify_same {w : World α} {logs : List (Log α)} {b : Nat} {l : Log α} {f : Log α → Log α}
    (h : Follows w logs) (hl : logs[b]? = some l) (hf : f l = l) : Follows w (logs.modify b f) := by
  have heq : logs.modify b f = logs := by
    refine List.ext_getElem? fun i => ?_
    by_cases hi : b = i
    · subst hi
      rw [List.getElem?_modify_eq, hl]
      exact congrArg some hf
    · exact List.getElem?_modify_ne _ _ hi
  rwa [heq]

section Steps

variable {vs : Values α} {w : World α} {logs : List (Log α)}

/-- There is no ring buffer without a log. -/
theorem Follows.none (h : Follows w logs) {b : Nat} (hl : logs[b]? = none) : w.rings[b]? = none := by
  rw [List.getElem?_eq_none_iff] at hl ⊢
  rw [h.length]
  exact hl

theorem padded_of_lt {null : α} {items : List α} {i : Nat} (h : i < items.length) :
    padded null items i = items := by
  rw [padded, show i + 1 - items.length = 0 by omega, List.replicate_zero, List.append_nil]

/-- What `append` returns and leaves. -/
theorem Follows.append (h : Follows w logs) (b : Nat) (v : α) :
    Follows (w.append vs b v).2 ((Op.append b v).log vs logs) ∧
      ∀ l, logs[b]? = some l → ((w.append vs b v).1 = 0 ↔ l.maxSize ≠ 0) := by
  cases hl : logs[b]? with
  | none =>
    have hb := h.none hl
    unfold World.append
    rw [hb]
    exact ⟨h.modify_none hl, fun l hsome => by cases hsome⟩
  | some l =>
    obtain ⟨items, startIdx, hview, hholds⟩ := h.holds b l hl
    obtain ⟨rb, hb, rfl, hmax, rfl⟩ := World.view_eq_some hview
    simp only [Option.some.injEq, forall_eq']
    unfold World.append
    rw [hb]
    dsimp only
    by_cases h0 : rb.maxSize = 0
    · rw [if_pos h0]
      refine ⟨h.modify_same hl (if_pos (hmax ▸ h0)), ?_⟩
      rw [← hmax]
      simp [h0]
    rw [if_neg h0]
    have hlog : (if l.maxSize = 0 then l else { l with appended := l.appended ++ [v] }) =
        { l with appended := l.appended ++ [v] } := if_neg (hmax ▸ h0)
    have hlen := hholds.length
    have hadd : ∀ items startIdx, Holds items startIdx { l with appended := l.appended ++ [v] } →
        Follows (w.store b rb items startIdx) ((Op.append b v).log vs logs) := by
      intro items startIdx hnew
      refine h.modify hl ?_ (World.store_length ..) (by rw [hlog]; exact hnew)
      rw [hlog]
      have hspec := World.store_spec h.counted hb items startIdx
      rw [hmax] at hspec
      exact hspec
    split
    · rename_i hlt
      exact ⟨hadd _ _ (hholds.push (hmax ▸ hlt) v), by simp [← hmax, h0]⟩
    · rename_i hge
      rw [hmax] at hge h0
      have hfull : (w.payloads rb.list).items.length = l.maxSize := by omega
      rw [if_pos (hfull.trans hmax.symm)]
      have hstart : rb.startIdx < (w.payloads rb.list).items.length := by
        rw [hholds.start, if_neg (by omega), hfull]
        exact Nat.mod_lt _ (by omega)
      rw [padded_of_lt hstart, hmax]
      exact ⟨hadd _ _ (hholds.overwrite hfull h0 v), by simp [h0]⟩

theorem Follows.step (h : Follows w logs) (op : Op α) : Follows (op.run vs w) (op.log vs logs) := by
  cases op with
  | new maxSize =>
    refine h.push (World.push_new_spec h.counted [] maxSize 0) ?_ (Holds.new maxSize)
    exact List.length_append
  | clone b =>
    cases hl : logs[b]? with
    | none =>
      simp only [Op.run, Op.log, hl, World.clone, h.none hl]
      exact h
    | some l =>
      obtain ⟨items, startIdx, hview, hholds⟩ := h.holds b l hl
      obtain ⟨rb, hb, rfl, hmax, rfl⟩ := World.view_eq_some hview
      simp only [Op.run, Op.log, hl]
      have hspec := World.clone_spec vs h.counted hb
      rw [hmax] at hspec
      exact h.push hspec (World.clone_length vs hb)
        (hholds.map fun v => if vs.isContainer v then vs.clone v else v)
  | append b v => exact (h.append b v).1
  | setMaxSize b maxSize =>
    cases hl : logs[b]? with
    | none =>
      simp only [Op.run, Op.log, World.setMaxSize, h.none hl]
      exact h.modify_none hl
    | some l =>
      obtain ⟨items, startIdx, hview, hholds⟩ := h.holds b l hl
      obtain ⟨rb, hb, rfl, hmax, rfl⟩ := World.view_eq_some hview
      have hlen := hholds.length
      simp only [Op.run, Op.log, World.setMaxSize, hb]
      by_cases hnil : l.appended = []
      · rw [if_neg (by simp [hlen, hnil])]
        have hitems : (w.payloads rb.list).items = [] :=
          List.length_eq_zero_iff.mp (by simp [hlen, hnil])
        have hstart : rb.startIdx = 0 := by
          rw [hholds.start]
          simp [hnil]
        have hlog : (if l.appended = [] then { l with maxSize } else l) = { l with maxSize } := if_pos hnil
        refine h.modify hl ?_ (List.length_set) (hlog ▸ Holds.resize hnil maxSize)
        rw [hlog]
        obtain ⟨hcounted, hview⟩ := World.resize_spec h.counted hb maxSize
        refine ⟨hcounted, fun b' => ?_⟩
        rw [hview, hitems, hstart]
      · have hpos : 0 < (w.payloads rb.list).items.length := by
          rw [hlen]
          have hm : l.maxSize ≠ 0 := fun h0 => hnil (hholds.room h0)
          have := List.length_pos_of_ne_nil hnil
          omega
        rw [if_pos hpos]
        exact h.modify_same hl (if_neg hnil)

theorem Follows.run (h : Follows w logs) (ops : List (Op α)) :
    Follows (ops.foldl (Op.run vs) w) (ops.foldl (Op.log vs) logs) := by
  induction ops generalizing w logs with
  | nil => exact h
  | cons op ops ih => exact ih (h.step op)

end Steps

/-- After any operations a ring buffer lists the newest entries of its log, and what is
appended to one is not seen in another. -/
theorem ringbuffer_newest (vs : Values α) (ops : List (Op α)) :
    let w := ops.foldl (Op.run vs) (World.empty α)
    let logs := ops.foldl (Op.log vs) []
    w.rings.length = logs.length ∧
      (∀ b l, logs[b]? = some l →
        w.toList vs b = some l.newest ∧ l.newest.length = min l.appended.length l.maxSize ∧
        ∃ rb, w.rings[b]? = some rb ∧ rb.maxSize = l.maxSize ∧
          (l.appended.length < l.maxSize → rb.startIdx = 0) ∧ rb.startIdx < max rb.maxSize 1 ∧
          ∀ v, (w.append vs b v).1 = 0 ↔ l.maxSize ≠ 0) ∧
      ∀ b b' v, b ≠ b' → (w.append vs b v).2.toList vs b' = w.toList vs b' := by
  intro w logs
  have h : Follows w logs := Follows.empty.run ops
  have hlist : ∀ {w : World α} {logs : List (Log α)}, Follows w logs → ∀ b,
      w.toList vs b = (logs[b]?).map Log.newest := by
    intro w logs h b
    cases hl : logs[b]? with
    | none =>
      rw [World.toList, h.none hl]
      rfl
    | some l =>
      obtain ⟨items, startIdx, hview, hholds⟩ := h.holds b l hl
      obtain ⟨rb, hb, rfl, hmax, rfl⟩ := World.view_eq_some hview
      rw [World.toList, hb, Option.map_some, hholds.ordered, Option.map_some]
  refine ⟨h.length, fun b l hl => ?_, fun b b' v hne => ?_⟩
  · obtain ⟨items, startIdx, hview, hholds⟩ := h.holds b l hl
    obtain ⟨rb, hb, rfl, hmax, rfl⟩ := World.view_eq_some hview
    refine ⟨by rw [hlist h, hl]; rfl, by simp [Log.newest]; omega, rb, hb, hmax, fun hlt => ?_, ?_,
      fun v => (h.append b v).2 l hl⟩
    · rw [hholds.start, if_pos hlt]
    · rw [hholds.start, hmax]
      split
      · omega
      · by_cases h0 : l.maxSize = 0
        · simp [h0, hholds.room h0]
        · exact lt_of_lt_of_le (Nat.mod_lt _ (by omega)) (Nat.le_max_left _ _)
  · rw [hlist (h.append b v).1, hlist h]
    rw [Op.log, List.getElem?_modify_ne _ _ hne]

end SentryNative.RingBuffer
