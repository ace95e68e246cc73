import Mathlib.Data.List.Basic
import Mathlib.Data.List.InsertIdx
import Mathlib.Data.List.Nodup

/-!
# Scope observers

`sentry_scope.c`: observers are registered in an array and notified in its order. A callback may
add and remove observers and notify again, so notifications are frames of a stack; all of it runs
under the scope lock.

* `FrameAt`: what a running notification has called and still has to call;
* `step_inv`: what one event preserves;
* `scope_observers`: what every run of nested events comes to.
-/

namespace SentryNative.Observers

/-- The function pointers of `sentry_scope_observer_t`. -/
inductive Callback
  | clear | setRelease | setEnvironment | setTransaction | setFingerprint | setLevel | setUser | addBreadcrumb
  | setTag | removeTag | setExtra | removeExtra | setContext | removeContext | addAttachment | removeAttachment
  deriving DecidableEq, Repr

/-- `sentry_scope_observer_t`: its address and the callbacks that are set. A new observer can have
the address of one that was freed, so registrations are told apart by a number. -/
structure Observer where
  registration : Nat
  pointer : Nat
  callbacks : List Callback
  deriving DecidableEq, Repr

/-- The part of `sentry_scope_t` that observers use. -/
structure Scope where
  observers : List (Option Observer)
  isNotifying : Nat
  deriving DecidableEq, Repr

/-- `init_scope` -/
def initScope : Scope := ⟨[], 0⟩

/-- `sentry__scope_add_observer`; `newArray` says whether the array was allocated. -/
def addObserver (scope : Scope) (observer : Option Observer) (newArray : Bool) : Bool × Scope :=
  match observer with
  | none => (false, scope)
  | some o =>
    if newArray then (true, { scope with observers := scope.observers ++ [some o] }) else (false, scope)

/-- `sentry__scope_remove_observer` -/
def removeObserver (scope : Scope) (observer : Option Nat) : Scope :=
  match observer with
  | none => scope
  | some pointer =>
    match scope.observers.findIdx? (fun slot => slot.any (·.pointer = pointer)) with
    | none => scope
    | some i =>
      -- the array is not shifted while it is iterated
      if scope.isNotifying ≠ 0 then { scope with observers := scope.observers.set i none }
      else { scope with observers := scope.observers.eraseIdx i }

/-- `sentry__scope_begin_notify` -/
def beginNotify (scope : Scope) : Nat × Scope :=
  (scope.observers.length, { scope with isNotifying := scope.isNotifying + 1 })

/-- `sentry__scope_end_notify` -/
def endNotify (scope : Scope) : Scope :=
  if 0 < scope.isNotifying - 1 then { scope with isNotifying := scope.isNotifying - 1 }
  else { observers := scope.observers.filter (·.isSome), isNotifying := scope.isNotifying - 1 }

/-- The second half of `sentry_scope_clear`: the scope is reset but for its observers. -/
def clearRest (scope : Scope) : Scope :=
  { initScope with observers := scope.observers, isNotifying := scope.isNotifying }

/-- The loop of `SENTRY_SCOPE_NOTIFY`, up to the next callback. -/
def turn (scope : Scope) (callback : Callback) : Nat → Nat → Option (Nat × Observer)
  | 0, _ => none
  | n + 1, i =>
    match scope.observers[i]? with
    | none => none
    | some none => turn scope callback n (i + 1)
    | some (some o) => if callback ∈ o.callbacks then some (i, o) else turn scope callback n (i + 1)

/-! ## Runs -/

/-- A notification: the callback of the observer at `index` runs. The lists are its history: who
was registered when it began, who was called, and who was removed without having been called. -/
structure Frame where
  callback : Callback
  index : Nat
  stop : Nat
  began : List Observer
  called : List Observer
  missed : List Observer
  deriving DecidableEq, Repr

/-- A scope with the notifications that are running, innermost first, and the history of it. -/
structure World where
  scope : Scope
  frames : List Frame
  finished : List Frame
  registered : List Observer
  registrations : Nat
  calls : List (Observer × List Observer)
  deriving DecidableEq, Repr

def World.init : World := ⟨initScope, [], [], [], 0, []⟩

/-- What can happen, at the top or inside the innermost callback. -/
inductive Event
  | add (pointer : Option Nat) (callbacks : List Callback) (newArray : Bool)
  | remove (pointer : Option Nat)
  | notify (callback : Callback)
  | ret
  deriving DecidableEq, Repr

/-- The loop of a notification goes on at an index. -/
def World.proceed (w : World) (f : Frame) (rest : List Frame) (i : Nat) : World :=
  match turn w.scope f.callback (f.stop - i) i with
  | some (k, o) =>
    { w with frames := { f with index := k, called := f.called ++ [o] } :: rest
             calls := w.calls ++ [(o, w.registered)] }
  | none =>
    { w with scope := if f.callback = .clear then clearRest (endNotify w.scope) else endNotify w.scope
             frames := rest
             finished := w.finished ++ [f] }

/-- A removal in the history of a notification. -/
def Frame.miss (f : Frame) (o : Observer) : Frame :=
  if o ∈ f.began ∧ o ∉ f.called then { f with missed := o :: f.missed } else f

def World.step (w : World) : Event → World
  | .add pointer callbacks newArray =>
    match pointer, newArray with
    | some p, true =>
      let o : Observer := ⟨w.registrations, p, callbacks⟩
      { w with scope := (addObserver w.scope (some o) true).2
               registered := w.registered ++ [o]
               registrations := w.registrations + 1 }
    | some p, false => { w with scope := (addObserver w.scope (some ⟨w.registrations, p, callbacks⟩) false).2 }
    | none, _ => { w with scope := (addObserver w.scope none newArray).2 }
  | .remove pointer =>
    let w' := { w with scope := removeObserver w.scope pointer }
    match w.registered.find? (fun o => pointer = some o.pointer) with
    | none => w'
    | some o => { w' with registered := w.registered.erase o, frames := w.frames.map (·.miss o) }
  | .notify callback =>
    let (stop, scope) := beginNotify w.scope
    { w with scope := scope }.proceed ⟨callback, 0, stop, w.registered, [], []⟩ w.frames 0
  | .ret =>
    match w.frames with
    | [] => w
    | f :: rest => w.proceed f rest (f.index + 1)

def World.run (w : World) (events : List Event) : World := events.foldl World.step w

/-! ## The array -/

/-- The observers that are left in a part of the array. -/
def live (slots : List (Option Observer)) : List Observer := slots.filterMap id

@[simp] theorem live_none (slots : List (Option Observer)) : live (none :: slots) = live slots := rfl

@[simp] theorem live_some (o : Observer) (slots : List (Option Observer)) : live (some o :: slots) = o :: live slots := rfl

/-- Who is still to be called from an index on. -/
def pending (slots : List (Option Observer)) (callback : Callback) (i stop : Nat) : List Observer :=
  (live ((slots.take stop).drop i)).filter (callback ∈ ·.callbacks)

theorem pending_of_le {slots : List (Option Observer)} {callback : Callback} {i stop : Nat} (h : stop ≤ i) :
    pending slots callback i stop = [] := by
  unfold pending
  rw [List.drop_eq_nil_of_le (by rw [List.length_take]; omega)]
  rfl

theorem pending_cons {slots : List (Option Observer)} {callback : Callback} {i stop : Nat} {slot : Option Observer}
    (hi : i < stop) (hget : slots[i]? = some slot) :
    pending slots callback i stop =
      (slot.toList.filter (callback ∈ ·.callbacks)) ++ pending slots callback (i + 1) stop := by
  have hget' : (slots.take stop)[i]? = some slot := by rw [List.getElem?_take_of_lt hi, hget]
  obtain ⟨hlt, hslot⟩ := List.getElem?_eq_some_iff.1 hget'
  unfold pending
  rw [List.drop_eq_getElem_cons hlt, hslot]
  cases slot with
  | none => rfl
  | some o =>
    rw [live_some, List.filter_cons]
    by_cases hcb : callback ∈ o.callbacks <;> simp [hcb]

/-- The loop stops at the first observer that is to be called. -/
theorem turn_spec (scope : Scope) (callback : Callback) {n i stop : Nat} (hn : stop - i = n)
    (hstop : stop ≤ scope.observers.length) :
    match turn scope callback n i with
    | none => pending scope.observers callback i stop = []
    | some (k, o) => k < stop ∧ o ∈ live scope.observers ∧
        pending scope.observers callback i stop = o :: pending scope.observers callback (k + 1) stop := by
  induction n generalizing i with
  | zero => exact pending_of_le (by omega)
  | succ n ih =>
    have hi : i < stop := by omega
    have hget : scope.observers[i]? = some scope.observers[i] := List.getElem?_eq_getElem (by omega)
    have hrest := ih (i := i + 1) (by omega)
    unfold turn
    rw [hget, pending_cons hi hget]
    cases hslot : scope.observers[i] with
    | none => exact hrest
    | some o =>
      dsimp only
      by_cases hcb : callback ∈ o.callbacks
      · rw [if_pos hcb]
        refine ⟨hi, ?_, by simp [hcb]⟩
        rw [hslot] at hget
        exact List.mem_filterMap.2 ⟨_, List.mem_of_getElem? hget, rfl⟩
      · rw [if_neg hcb, show (some o).toList.filter (callback ∈ ·.callbacks) = [] by simp [hcb]]
        exact hrest

theorem live_append (a b : List (Option Observer)) : live (a ++ b) = live a ++ live b := List.filterMap_append

/-- Adding an observer does not change what was there to call. -/
theorem pending_append {slots : List (Option Observer)} {stop : Nat} (h : stop ≤ slots.length)
    (more : List (Option Observer)) (callback : Callback) (i : Nat) :
    pending (slots ++ more) callback i stop = pending slots callback i stop := by
  unfold pending
  rw [List.take_append_of_le_length h]

/-- The array with every slot of an observer emptied. -/
def without (o : Observer) (slots : List (Option Observer)) : List (Option Observer) :=
  slots.map fun slot => if slot = some o then none else slot

theorem live_without (o : Observer) (slots : List (Option Observer)) : live (without o slots) = (live slots).filter (· ≠ o) := by
  induction slots with
  | nil => rfl
  | cons slot slots ih =>
    unfold without at ih ⊢
    rw [List.map_cons]
    cases slot with
    | none => exact ih
    | some o' =>
      by_cases heq : o' = o
      · subst heq
        rw [if_pos rfl, live_none, live_some, ih, List.filter_cons]
        simp
      · rw [if_neg (by simpa using heq), live_some, live_some, ih, List.filter_cons]
        simp [heq]

theorem pending_without (o : Observer) (slots : List (Option Observer)) (callback : Callback) (i stop : Nat) :
    pending (without o slots) callback i stop = (pending slots callback i stop).filter (· ≠ o) := by
  have hpart : ((without o slots).take stop).drop i = without o ((slots.take stop).drop i) := by
    unfold without
    rw [← List.map_take, ← List.map_drop]
  unfold pending
  rw [hpart, live_without, List.filter_comm]

theorem without_of_not_mem {o : Observer} {slots : List (Option Observer)} (h : o ∉ live slots) : without o slots = slots := by
  induction slots with
  | nil => rfl
  | cons slot slots ih =>
    unfold without at ih ⊢
    rw [List.map_cons]
    cases slot with
    | none => rw [if_neg (by simp), ih h]
    | some o' =>
      rw [live_some, List.mem_cons, not_or] at h
      rw [if_neg (by simpa using Ne.symm h.1), ih h.2]

theorem set_eq_without {o : Observer} {slots : List (Option Observer)} {i : Nat} (hnodup : (live slots).Nodup)
    (hget : slots[i]? = some (some o)) : slots.set i none = without o slots := by
  induction slots generalizing i with
  | nil => simp at hget
  | cons slot slots ih =>
    cases i with
    | zero =>
      cases hget
      rw [live_some, List.nodup_cons] at hnodup
      have hrest := without_of_not_mem hnodup.1
      unfold without at hrest ⊢
      rw [List.set_cons_zero, List.map_cons, if_pos rfl, hrest]
    | succ i =>
      have hmem : o ∈ live slots := List.mem_filterMap.2 ⟨_, List.mem_of_getElem? hget, rfl⟩
      have hrest := ih (i := i) (by cases slot <;> simp_all) hget
      unfold without at hrest ⊢
      rw [List.set_cons_succ, List.map_cons, hrest]
      congr 1
      symm
      apply if_neg
      rintro rfl
      rw [live_some, List.nodup_cons] at hnodup
      exact hnodup.1 hmem

/-- The search of `sentry__scope_remove_observer` finds the oldest registration. -/
theorem findIdx_live (pointer : Nat) (slots : List (Option Observer)) :
    match slots.findIdx? (fun slot => slot.any (·.pointer = pointer)) with
    | none => (live slots).find? (fun o => some pointer = some o.pointer) = none
    | some i => ∃ o, slots[i]? = some (some o) ∧
        (live slots).find? (fun o => some pointer = some o.pointer) = some o := by
  induction slots with
  | nil => rfl
  | cons slot slots ih =>
    rw [List.findIdx?_cons]
    cases slot with
    | none =>
      cases hfind : slots.findIdx? (fun slot => slot.any (·.pointer = pointer)) <;> simp_all
    | some o =>
      by_cases heq : o.pointer = pointer
      · simp [heq]
      · have heq' : ¬pointer = o.pointer := fun h => heq h.symm
        cases hfind : slots.findIdx? (fun slot => slot.any (·.pointer = pointer)) <;> simp_all

/-- `sentry__scope_remove_observer` against the list of those that are registered. -/
theorem removeObserver_spec {scope : Scope} {registered : List Observer} (hlive : live scope.observers = registered)
    (hnodup : registered.Nodup) (pointer : Option Nat) :
    match registered.find? (fun o => pointer = some o.pointer) with
    | none => removeObserver scope pointer = scope
    | some o => o ∈ registered ∧
        (scope.isNotifying ≠ 0 → removeObserver scope pointer = { scope with observers := without o scope.observers }) ∧
        (scope.isNotifying = 0 → scope.observers = registered.map some →
          removeObserver scope pointer = { scope with observers := (registered.erase o).map some }) := by
  subst hlive
  cases pointer with
  | none =>
    rw [List.find?_eq_none.2 (by simp)]
    rfl
  | some p =>
    have hspec := findIdx_live p scope.observers
    cases hidx : scope.observers.findIdx? (fun slot => slot.any (·.pointer = p)) with
    | none =>
      rw [hidx] at hspec
      rw [hspec]
      simp only [removeObserver, hidx]
    | some i =>
      rw [hidx] at hspec
      obtain ⟨o, hget, hfind⟩ := hspec
      rw [hfind]
      refine ⟨List.mem_of_find?_eq_some hfind, ?_, ?_⟩
      · intro hnotifying
        simp only [removeObserver, hidx, if_pos hnotifying]
        rw [set_eq_without hnodup hget]
      · intro hquiet hall
        simp only [removeObserver, hidx, hquiet, ne_eq, not_true, if_false]
        rw [hall, List.getElem?_map, Option.map_eq_some_iff] at hget
        obtain ⟨o', hget', heq⟩ := hget
        cases heq
        obtain ⟨hlt, hval⟩ := List.getElem?_eq_some_iff.1 hget'
        have herase := hnodup.erase_getElem i hlt
        rw [hval] at herase
        rw [herase, ← List.eraseIdx_map, ← hall]

theorem live_map_some (l : List Observer) : live (l.map some) = l := by
  induction l with
  | nil => rfl
  | cons o l ih => rw [List.map_cons, live_some, ih]

theorem filter_isSome (slots : List (Option Observer)) : slots.filter (·.isSome) = (live slots).map some := by
  induction slots with
  | nil => rfl
  | cons slot slots ih =>
    cases slot with
    | none => exact ih
    | some o =>
      rw [List.filter_cons_of_pos rfl, ih]
      rfl

/-! ## The invariant -/

/-- The observers that a notification is for. -/
def Frame.due (f : Frame) : List Observer := f.began.filter fun o => f.callback ∈ o.callbacks ∧ o ∉ f.missed

/-- In the order of registration, and none twice. -/
def InOrder (l : List Observer) : Prop := l.Pairwise (·.registration < ·.registration)

theorem InOrder.nodup {l : List Observer} (h : InOrder l) : l.Nodup := by
  apply List.Pairwise.imp _ h
  rintro a b hlt rfl
  exact Nat.lt_irrefl _ hlt

/-- A notification has called some of those it is for, and the others wait in the array. -/
structure FrameAt (slots : List (Option Observer)) (f : Frame) (i : Nat) : Prop where
  stop_le : f.stop ≤ slots.length
  began : InOrder f.began
  due : f.due = f.called ++ pending slots f.callback i f.stop

/-- What holds of the array and of the history, whatever is running. -/
structure Base (w : World) : Prop where
  live_eq : live w.scope.observers = w.registered
  ordered : InOrder w.registered
  recent : ∀ o ∈ w.registered, o.registration < w.registrations
  done : ∀ f ∈ w.finished, InOrder f.began ∧ f.called = f.due
  calls : ∀ c ∈ w.calls, c.1 ∈ c.2

structure Inv (w : World) : Prop extends Base w where
  depth : w.scope.isNotifying = w.frames.length
  compact : w.frames = [] → w.scope.observers = w.registered.map some
  running : ∀ f ∈ w.frames, FrameAt w.scope.observers f (f.index + 1)

theorem inv_init : Inv World.init where
  live_eq := rfl
  ordered := List.Pairwise.nil
  recent := by simp [World.init]
  done := by simp [World.init]
  calls := by simp [World.init]
  depth := rfl
  compact := fun _ => rfl
  running := by simp [World.init]

/-- The loop of a notification calls the next one, or ends. -/
theorem proceed_inv {w : World} {f : Frame} {rest : List Frame} {i : Nat} (hbase : Base w)
    (hdepth : w.scope.isNotifying = rest.length + 1) (hrest : ∀ g ∈ rest, FrameAt w.scope.observers g (g.index + 1))
    (hf : FrameAt w.scope.observers f i) : Inv (w.proceed f rest i) := by
  have hspec := turn_spec w.scope f.callback (n := f.stop - i) rfl hf.stop_le
  unfold World.proceed
  cases hturn : turn w.scope f.callback (f.stop - i) i with
  | some next =>
    obtain ⟨k, o⟩ := next
    rw [hturn] at hspec
    obtain ⟨-, hmem, hpending⟩ := hspec
    refine ⟨⟨hbase.live_eq, hbase.ordered, hbase.recent, hbase.done, ?_⟩, hdepth, by simp, ?_⟩
    · intro c hc
      obtain hc | hc := List.mem_append.1 hc
      · exact hbase.calls c hc
      · rw [List.mem_singleton.1 hc, ← hbase.live_eq]
        exact hmem
    · rw [List.forall_mem_cons]
      refine ⟨⟨hf.stop_le, hf.began, ?_⟩, hrest⟩
      have hdue := hf.due
      rw [hpending] at hdue
      rw [List.append_assoc]
      exact hdue
  | none =>
    rw [hturn] at hspec
    have hdone : ∀ g ∈ w.finished ++ [f], InOrder g.began ∧ g.called = g.due := by
      intro g hg
      obtain hg | hg := List.mem_append.1 hg
      · exact hbase.done g hg
      · rw [List.mem_singleton.1 hg]
        have hdue := hf.due
        rw [hspec, List.append_nil] at hdue
        exact ⟨hf.began, hdue.symm⟩
    have hscope : (if f.callback = .clear then clearRest (endNotify w.scope) else endNotify w.scope) = endNotify w.scope := by
      split <;> rfl
    rw [hscope]
    unfold endNotify
    rw [hdepth, Nat.add_sub_cancel]
    cases rest with
    | nil =>
      refine ⟨⟨?_, hbase.ordered, hbase.recent, hdone, hbase.calls⟩, rfl, ?_, by simp⟩
      · simp only [List.length_nil, Nat.lt_irrefl, if_false]
        rw [filter_isSome, live_map_some, hbase.live_eq]
      · intro _
        simp only [List.length_nil, Nat.lt_irrefl, if_false]
        rw [filter_isSome, hbase.live_eq]
    | cons g rest =>
      simp only [List.length_cons, Nat.succ_pos, if_true]
      exact ⟨⟨hbase.live_eq, hbase.ordered, hbase.recent, hdone, hbase.calls⟩, rfl, by simp, hrest⟩

/-- A removal takes the observer from those that wait, and from those the notification is for. -/
theorem miss_due {slots : List (Option Observer)} {f : Frame} {i : Nat} (h : FrameAt slots f i) (o : Observer) :
    FrameAt (without o slots) (f.miss o) i := by
  have hlen : (without o slots).length = slots.length := List.length_map _
  have hnodup : (f.called ++ pending slots f.callback i f.stop).Nodup := by
    rw [← h.due]
    exact h.began.nodup.filter _
  have hsame : (f.miss o).stop = f.stop ∧ (f.miss o).began = f.began ∧ (f.miss o).called = f.called ∧
      (f.miss o).callback = f.callback := by
    unfold Frame.miss
    split <;> exact ⟨rfl, rfl, rfl, rfl⟩
  obtain ⟨hstop, hbegan, hcalled, hcallback⟩ := hsame
  refine ⟨by rw [hstop, hlen]; exact h.stop_le, by rw [hbegan]; exact h.began, ?_⟩
  rw [hstop, hcalled, hcallback, pending_without]
  by_cases hmiss : o ∈ f.began ∧ o ∉ f.called
  · have hdue : (f.miss o).due = f.due.filter (· ≠ o) := by
      unfold Frame.miss Frame.due
      rw [if_pos hmiss, List.filter_filter]
      apply List.filter_congr
      intro x _
      simp only [List.mem_cons, not_or]
      grind
    rw [hdue, h.due, List.filter_append]
    congr 1
    apply List.filter_eq_self.2
    intro x hx
    simp only [ne_eq, decide_not, Bool.not_eq_true', decide_eq_false_iff_not]
    rintro rfl
    exact hmiss.2 hx
  · have hdue : (f.miss o).due = f.due := by
      unfold Frame.miss
      rw [if_neg hmiss]
    rw [hdue, h.due]
    congr 1
    symm
    apply List.filter_eq_self.2
    intro x hx
    simp only [ne_eq, decide_not, Bool.not_eq_true', decide_eq_false_iff_not]
    rintro rfl
    -- it waits, so it is due and was not called
    apply hmiss
    constructor
    · have hmem : x ∈ f.due := by
        rw [h.due]
        exact List.mem_append_right _ hx
      exact List.mem_of_mem_filter hmem
    · intro hcalled'
      exact (List.disjoint_of_nodup_append hnodup) hcalled' hx

theorem add_inv {w : World} (h : Inv w) (p : Nat) (callbacks : List Callback) :
    Inv (w.step (.add (some p) callbacks true)) := by
  simp only [World.step, addObserver, if_true]
  refine ⟨⟨?_, ?_, ?_, h.done, h.calls⟩, h.depth, ?_, ?_⟩
  · simp only [live_append, h.live_eq]
    rfl
  · refine List.pairwise_append.2 ⟨h.ordered, List.pairwise_singleton _ _, ?_⟩
    intro a ha b hb
    rw [List.mem_singleton.1 hb]
    exact h.recent a ha
  · intro o ho
    obtain ho | ho := List.mem_append.1 ho
    · exact Nat.lt_succ_of_lt (h.recent o ho)
    · rw [List.mem_singleton.1 ho]
      exact Nat.lt_succ_self _
  · intro hframes
    simp only [h.compact hframes, List.map_append]
    rfl
  · intro f hf
    have hrun := h.running f hf
    refine ⟨?_, hrun.began, ?_⟩
    · simp only [List.length_append]
      exact Nat.le_add_right_of_le hrun.stop_le
    · rw [pending_append hrun.stop_le]
      exact hrun.due

theorem remove_inv {w : World} (h : Inv w) (pointer : Option Nat) : Inv (w.step (.remove pointer)) := by
  have hspec := removeObserver_spec h.live_eq h.ordered.nodup pointer
  simp only [World.step]
  cases hfind : w.registered.find? (fun o => pointer = some o.pointer) with
  | none =>
    rw [hfind] at hspec
    rw [hspec]
    exact h
  | some o =>
    rw [hfind] at hspec
    obtain ⟨-, hnotifying, hquiet⟩ := hspec
    have hordered : InOrder (w.registered.erase o) := h.ordered.sublist List.erase_sublist
    have hrecent : ∀ o' ∈ w.registered.erase o, o'.registration < w.registrations :=
      fun o' ho' => h.recent o' (List.mem_of_mem_erase ho')
    have hdepth := h.depth
    cases hframes : w.frames with
    | nil =>
      rw [hframes] at hdepth
      rw [hquiet hdepth (h.compact hframes)]
      exact ⟨⟨live_map_some _, hordered, hrecent, h.done, h.calls⟩, hdepth, fun _ => rfl, by simp⟩
    | cons f rest =>
      rw [hnotifying (by rw [hdepth, hframes]; exact Nat.succ_ne_zero _)]
      refine ⟨⟨?_, hordered, hrecent, h.done, h.calls⟩, ?_, by simp, ?_⟩
      · dsimp only
        rw [live_without, h.live_eq, h.ordered.nodup.erase_eq_filter]
        apply List.filter_congr
        intro x _
        rw [Bool.eq_iff_iff]
        simp
      · rw [List.length_map, ← hframes]
        exact hdepth
      · intro g hg
        obtain ⟨g', hg', rfl⟩ := List.mem_map.1 hg
        have hmissed := miss_due (h.running g' (by rw [hframes]; exact hg')) o
        have hindex : (g'.miss o).index = g'.index := by
          unfold Frame.miss
          split <;> rfl
        rw [hindex]
        exact hmissed

/-- One event. -/
theorem step_inv {w : World} (h : Inv w) (e : Event) : Inv (w.step e) := by
  cases e with
  | add pointer callbacks newArray =>
    cases pointer with
    | none => exact h
    | some p =>
      cases newArray with
      | false => exact h
      | true => exact add_inv h p callbacks
  | remove pointer => exact remove_inv h pointer
  | notify callback =>
    apply proceed_inv
    · exact ⟨h.live_eq, h.ordered, h.recent, h.done, h.calls⟩
    · exact congrArg (· + 1) h.depth
    · exact h.running
    · refine ⟨Nat.le_refl _, h.ordered, ?_⟩
      simp only [Frame.due, pending, List.take_length, List.drop_zero, h.live_eq]
      simp
  | ret =>
    cases hframes : w.frames with
    | nil =>
      simp only [World.step, hframes]
      exact h
    | cons f rest =>
      have hdepth := h.depth
      have hrunning := h.running
      rw [hframes] at hdepth hrunning
      rw [List.forall_mem_cons] at hrunning
      simp only [World.step, hframes]
      exact proceed_inv h.toBase hdepth hrunning.2 hrunning.1

/-- Every run of events. -/
theorem run_inv {w : World} (h : Inv w) (events : List Event) : Inv (w.run events) := by
  induction events generalizing w with
  | nil => exact h
  | cons e events ih => exact ih (step_inv h e)

/-- A notification that ended called, in the order of registration and each once, those that were
registered when it began and not removed before their turn; one that runs has called the first of
them. Only registered observers are called. When nothing runs, the array is the list of those that
are registered. -/
theorem scope_observers (events : List Event) :
    (∀ f ∈ (World.init.run events).finished, InOrder f.called ∧
      f.called = f.began.filter fun o => f.callback ∈ o.callbacks ∧ o ∉ f.missed) ∧
    (∀ f ∈ (World.init.run events).frames, InOrder f.called ∧
      f.called <+: f.began.filter fun o => f.callback ∈ o.callbacks ∧ o ∉ f.missed) ∧
    (∀ c ∈ (World.init.run events).calls, c.1 ∈ c.2) ∧
    InOrder (World.init.run events).registered ∧
    ((World.init.run events).frames = [] →
      (World.init.run events).scope.observers = (World.init.run events).registered.map some) := by
  have hinv := run_inv inv_init events
  refine ⟨?_, ?_, hinv.calls, hinv.ordered, hinv.compact⟩
  · intro f hf
    obtain ⟨hbegan, hcalled⟩ := hinv.done f hf
    refine ⟨?_, hcalled⟩
    rw [hcalled]
    exact hbegan.sublist List.filter_sublist
  · intro f hf
    have hrun := hinv.running f hf
    have hfirst : f.called <+: f.due := ⟨_, hrun.due.symm⟩
    exact ⟨(hrun.began.sublist List.filter_sublist).sublist hfirst.sublist, hfirst⟩

-- the first callback removes the second observer and adds a third one
example : ((World.init.run [.add (some 1) [.setTag] true, .add (some 2) [.setTag] true, .notify .setTag, .remove (some 2),
    .add (some 3) [.setTag] true, .ret]).finished.map fun f => f.called.map (·.pointer)) = [[1]] := by
  decide

end SentryNative.Observers
