import SentryNative.Batcher.Reference

/-!
# Reclaiming the global batcher

What the accesses to the reference keep in every interleaving: a batcher that somebody holds or has
pinned is alive, and one that nobody refers to has been freed, once for every time it was made.
-/

namespace SentryNative.Batcher.Reference

open Machine (Counted)

variable {s t : State} {x y b : Nat} {a : Action}

/-- What an access can do: the place it is made from, its guard and the state it leaves. -/
inductive Access (s : State) (x : Nat) : State → Prop where
  | acquire (hp : s.pc x = .idle) : Access s x (s.goto x .lockAcquire)
  | shutdown (hp : s.pc x = .idle) : Access s x (s.goto x (.lockSwap none))
  | startup (b : Nat) (hp : s.pc x = .idle) (hb : s.alive b = false) :
      Access s x ({ s with
        refcount := Function.update s.refcount b 1
        alive := Function.update s.alive b true
        created := Function.update s.created b (s.created b + 1) }.goto x (.lockSwap (some b)))
  | lockAcquire (hp : s.pc x = .lockAcquire) (hl : s.lock = false) :
      Access s x ({ s with lock := true }.goto x .loadAcquire)
  | lockSwap (r : Option Nat) (hp : s.pc x = .lockSwap r) (hl : s.lock = false) :
      Access s x ({ s with lock := true }.goto x (.exchange r))
  | loadEmpty (hp : s.pc x = .loadAcquire) (hptr : s.ptr = none) :
      Access s x (s.goto x (.unlockAcquire none))
  | load (b : Nat) (hp : s.pc x = .loadAcquire) (hptr : s.ptr = some b) :
      Access s x (s.goto x (.countAcquire b))
  | count (b : Nat) (hp : s.pc x = .countAcquire b) :
      Access s x ((s.addRefcount b 1).goto x (.unlockAcquire (some b)))
  | unlockEmpty (hp : s.pc x = .unlockAcquire none ∨ s.pc x = .unlockSwap none) :
      Access s x ({ s with lock := false }.goto x .idle)
  | acquired (b : Nat) (hp : s.pc x = .unlockAcquire (some b)) :
      Access s x ({ s with lock := false }.goto x (.holding b))
  | swapped (b : Nat) (hp : s.pc x = .unlockSwap (some b)) :
      Access s x ({ s with lock := false }.goto x (.waiting b))
  | release (b : Nat) (hp : s.pc x = .holding b) (hr : s.refcount b ≠ 1) :
      Access s x ((s.addRefcount b (-1)).goto x .idle)
  | last (b : Nat) (hp : s.pc x = .holding b) (hr : s.refcount b = 1) :
      Access s x ((s.addRefcount b (-1)).goto x (.freeing b))
  | free (b : Nat) (hp : s.pc x = .freeing b) :
      Access s x ({ s with
        alive := Function.update s.alive b false
        freed := Function.update s.freed b (s.freed b + 1)
        fault := s.fault || !s.alive b }.goto x .idle)
  | pin (hp : s.pc x = .idle) : Access s x ({ s with pins := s.pins + 1 }.goto x .loadPin)
  | pinEmpty (hp : s.pc x = .loadPin) (hptr : s.ptr = none) : Access s x (s.goto x .unpin)
  | pinned (b : Nat) (hp : s.pc x = .loadPin) (hptr : s.ptr = some b) :
      Access s x (s.goto x (.pinned b))
  | unpin (hp : (∃ b, s.pc x = .pinned b) ∨ s.pc x = .unpin) :
      Access s x ({ s with pins := s.pins - 1 }.goto x .idle)
  | exchange (r : Option Nat) (hp : s.pc x = .exchange r) :
      Access s x ({ s with ptr := r }.goto x (.unlockSwap s.ptr))
  | retired (b : Nat) (hp : s.pc x = .waiting b) (hn : s.pins ≤ 0) :
      Access s x (s.goto x (.holding b))

theorem next_access (h : next s x = some t) : Access s x t := by
  unfold next at h
  split at h
  · cases h
  · next hp =>
    split at h
    · next hl => cases h; exact .lockAcquire hp hl
    · cases h
  · next hp =>
    cases h
    cases hptr : s.ptr with
    | none => exact .loadEmpty hp hptr
    | some b => exact .load b hp hptr
  · next b hp => cases h; exact .count b hp
  · next r hp =>
    cases h
    cases r with
    | none => exact .unlockEmpty (.inl hp)
    | some b => exact .acquired b hp
  · next b hp =>
    cases h
    by_cases hr : s.refcount b = 1
    · simpa only [hr, ne_eq, not_true_eq_false, ↓reduceIte] using Access.last b hp hr
    · simpa only [hr, ne_eq, not_false_eq_true, ↓reduceIte] using Access.release b hp hr
  · next b hp => cases h; exact .free b hp
  · next hp =>
    cases h
    cases hptr : s.ptr with
    | none => exact .pinEmpty hp hptr
    | some b => exact .pinned b hp hptr
  · next b hp => cases h; exact .unpin (.inl ⟨b, hp⟩)
  · next hp => cases h; exact .unpin (.inr hp)
  · next r hp =>
    split at h
    · next hl => cases h; exact .lockSwap r hp hl
    · cases h
  · next r hp => cases h; exact .exchange r hp
  · next r hp =>
    cases h
    cases r with
    | none => exact .unlockEmpty (.inr hp)
    | some b => exact .swapped b hp
  · next b hp =>
    split at h
    · cases h
    · next hn => cases h; exact .retired b hp (by omega)

theorem act_access (h : act s x a = some t) : Access s x t := by
  cases a with
  | acquire =>
    simp only [act] at h
    split at h
    · next hp => cases h; exact .acquire hp
    · cases h
  | pin =>
    simp only [act] at h
    split at h
    · next hp => cases h; exact .pin hp
    · cases h
  | startup b =>
    simp only [act] at h
    split at h
    · next hp => cases h; exact .startup b hp.1 hp.2
    · cases h
  | shutdown =>
    simp only [act] at h
    split at h
    · next hp => cases h; exact .shutdown hp
    · cases h
  | next => exact next_access h

/-! ## The invariant -/

structure Inv (s : State) : Prop where
  counts : Shared.Counts (owner s) s.refcount s.alive
  owned : ∀ o b, owner s o = some b → s.alive b = true
  freeing : ∀ x b, s.pc x = .freeing b →
    s.alive b = true ∧ s.refcount b = 0 ∧ ∀ y, s.pc y = .freeing b → y = x
  zero : ∀ b, s.alive b = true → s.refcount b = 0 → ∃ x, s.pc x = .freeing b
  pinned : ∀ x b, s.pc x = .pinned b → s.ptr = some b ∨ ∃ y, (s.pc y).retires = some b
  loaded : ∀ x b, s.pc x = .countAcquire b → s.ptr = some b
  locked : ∀ x, (s.pc x).locked = true → s.lock = true ∧ ∀ y, (s.pc y).locked = true → y = x
  pins : ∃ n : Nat, s.pins = n ∧ Counted (fun x => (s.pc x).pinning = true) n
  history : ∀ b, s.created b = s.freed b + if s.alive b then 1 else 0
  fault : s.fault = false

theorem inv_init : Inv .init where
  counts := fun b hb => by simp [State.init] at hb
  owned := fun o b h => by cases o <;> simp [owner, State.init, Pc.owned] at h
  freeing := fun x b h => by simp [State.init] at h
  zero := fun b hb => by simp [State.init] at hb
  pinned := fun x b h => by simp [State.init] at h
  loaded := fun x b h => by simp [State.init] at h
  locked := fun x h => by simp [State.init, Pc.locked] at h
  pins := ⟨0, rfl, .empty fun x => by simp [State.init, Pc.pinning]⟩
  history := fun b => by simp [State.init]
  fault := rfl

@[simp] theorem goto_pc (s : State) (x : Nat) (p : Pc) (y : Nat) :
    (s.goto x p).pc y = if y = x then p else s.pc y := Function.update_apply _ _ _ _

@[simp] theorem goto_ptr (s : State) (x : Nat) (p : Pc) : (s.goto x p).ptr = s.ptr := rfl
@[simp] theorem goto_lock (s : State) (x : Nat) (p : Pc) : (s.goto x p).lock = s.lock := rfl
@[simp] theorem goto_pins (s : State) (x : Nat) (p : Pc) : (s.goto x p).pins = s.pins := rfl
@[simp] theorem goto_refcount (s : State) (x : Nat) (p : Pc) :
    (s.goto x p).refcount = s.refcount := rfl
@[simp] theorem goto_alive (s : State) (x : Nat) (p : Pc) : (s.goto x p).alive = s.alive := rfl
@[simp] theorem goto_created (s : State) (x : Nat) (p : Pc) : (s.goto x p).created = s.created := rfl
@[simp] theorem goto_freed (s : State) (x : Nat) (p : Pc) : (s.goto x p).freed = s.freed := rfl
@[simp] theorem goto_fault (s : State) (x : Nat) (p : Pc) : (s.goto x p).fault = s.fault := rfl

theorem owner_goto (s : State) (x : Nat) (p : Pc) :
    owner (s.goto x p) = Function.update (owner s) (some x) p.owned := by
  funext o
  cases o with
  | none => rfl
  | some y => by_cases hy : y = x <;> simp [owner, hy]

/-- A use that owns what it owned before leaves the references as they are. -/
theorem owner_goto_same {p : Pc} (h : p.owned = (s.pc x).owned) : owner (s.goto x p) = owner s := by
  rw [owner_goto, h]
  exact Function.update_eq_self (some x) (owner s)

/-- A swap exchanges the reference of the use with that of `ref->ptr`. -/
theorem owner_exchange {r : Option Nat} (hp : s.pc x = .exchange r) :
    owner ({ s with ptr := r }.goto x (.unlockSwap s.ptr)) =
      Function.update (Function.update (owner s) none (owner s (some x))) (some x) (owner s none) := by
  funext o
  cases o with
  | none => simp [owner, hp, Pc.owned]
  | some y => by_cases hy : y = x <;> simp [owner, hy, Pc.owned]

theorem counts_access (hi : Inv s) (h : Access s x t) : Shared.Counts (owner t) t.refcount t.alive := by
  have hsame {u : State} {p : Pc} (hu : owner u = owner s) (hp : p.owned = (u.pc x).owned) :
      Shared.Counts (owner (u.goto x p)) s.refcount s.alive := by
    rw [owner_goto_same hp, hu]
    exact hi.counts
  cases h with
  | startup b hp hb =>
    rw [owner_goto]
    refine hi.counts.create (i := some x) (by simp [owner, hp, Pc.owned]) fun o ho => ?_
    rw [hi.owned o b ho] at hb
    cases hb
  | count b hp =>
    rw [owner_goto]
    exact hi.counts.take (i := some x) (by simp [owner, hp, Pc.owned])
  | release b hp hr =>
    rw [owner_goto]
    exact hi.counts.drop (i := some x) (b := b) (by simp [owner, hp, Pc.owned])
  | last b hp hr =>
    rw [owner_goto]
    exact hi.counts.drop (i := some x) (b := b) (by simp [owner, hp, Pc.owned])
  | free b hp =>
    rw [owner_goto_same (by simp [hp, Pc.owned])]
    exact hi.counts.free b
  | exchange r hp =>
    rw [owner_exchange hp]
    exact hi.counts.exchange (by simp)
  | unlockEmpty hp => exact hsame rfl (by rcases hp with hp | hp <;> simp [hp, Pc.owned])
  | unpin hp => exact hsame rfl (by rcases hp with ⟨_, hp⟩ | hp <;> simp [hp, Pc.owned])
  | _ => exact hsame rfl (by simp [*, Pc.owned])

theorem owned_access (hi : Inv s) (h : Access s x t) (o : Option Nat) (c : Nat)
    (ho : owner t o = some c) : t.alive c = true := by
  have hsame {u : State} {p : Pc} (hu : owner u = owner s) (hp : p.owned = (u.pc x).owned)
      (ho : owner (u.goto x p) o = some c) : owner s o = some c := by
    rwa [owner_goto_same hp, hu] at ho
  cases h with
  | startup b hp hb =>
    rw [owner_goto, Function.update_apply] at ho
    simp only [goto_alive, Function.update_apply]
    split at ho
    · cases ho; simp
    · split
      · rfl
      · exact hi.owned o c ho
  | count b hp =>
    rw [owner_goto, Function.update_apply] at ho
    split at ho
    · cases ho; exact hi.owned none c (hi.loaded x c hp)
    · exact hi.owned o c ho
  | release b hp hr =>
    rw [owner_goto, Function.update_apply] at ho
    split at ho
    · cases ho
    · exact hi.owned o c ho
  | last b hp hr =>
    rw [owner_goto, Function.update_apply] at ho
    split at ho
    · cases ho
    · exact hi.owned o c ho
  | free b hp =>
    have ho := hsame rfl (by simp [hp, Pc.owned]) ho
    have hb := hi.freeing x b hp
    have hne : c ≠ b := fun he => hi.counts.last hb.1 hb.2.1 o (he ▸ ho)
    simp only [goto_alive, Function.update_of_ne hne]
    exact hi.owned o c ho
  | exchange r hp =>
    rw [owner_exchange hp, Function.update_apply, Function.update_apply] at ho
    split at ho
    · exact hi.owned none c ho
    · split at ho
      · exact hi.owned (some x) c ho
      · exact hi.owned o c ho
  | unlockEmpty hp =>
    exact hi.owned o c (hsame rfl (by rcases hp with hp | hp <;> simp [hp, Pc.owned]) ho)
  | unpin hp =>
    exact hi.owned o c (hsame rfl (by rcases hp with ⟨b, hp⟩ | hp <;> simp [hp, Pc.owned]) ho)
  | _ => exact hi.owned o c (hsame rfl (by simp [*, Pc.owned]) ho)

/-- A batcher whose count is being changed is not on its way to being freed. -/
theorem not_freeing_of_owner (hi : Inv s) {o : Option Nat} (ho : owner s o = some b) (y : Nat) :
    s.pc y ≠ .freeing b := by
  intro hy
  have hb := hi.freeing y b hy
  exact hi.counts.last hb.1 hb.2.1 o ho

theorem freeing_access (hi : Inv s) (h : Access s x t) (z c : Nat) (hz : t.pc z = .freeing c) :
    t.alive c = true ∧ t.refcount c = 0 ∧ ∀ y, t.pc y = .freeing c → y = z := by
  have hf := hi.freeing
  cases h with
  | count b hp =>
    have hn := not_freeing_of_owner hi (o := none) (hi.loaded x b hp)
    simp only [State.goto, State.addRefcount, Function.update_apply] at hz ⊢
    grind
  | release b hp hr | last b hp hr =>
    have ho : owner s (some x) = some b := by simp [owner, hp, Pc.owned]
    have hn := not_freeing_of_owner hi ho
    have ha := hi.owned (some x) b ho
    simp only [State.goto, State.addRefcount, Function.update_apply] at hz ⊢
    grind
  | _ =>
    simp only [State.goto, Function.update_apply] at hz ⊢
    grind

theorem zero_access (hi : Inv s) (h : Access s x t) (c : Nat) (ha : t.alive c = true)
    (hr : t.refcount c = 0) : ∃ z, t.pc z = .freeing c := by
  have hz := hi.zero c
  have hpos (o : Option Nat) (b : Nat) (ho : owner s o = some b) : 0 < s.refcount b :=
    hi.counts.pos (hi.owned o b ho) ho
  cases h with
  | count b hp =>
    have hb := hpos none b (hi.loaded x b hp)
    simp only [State.goto, State.addRefcount, Function.update_apply] at ha hr ⊢
    grind
  | release b hp _ | last b hp _ =>
    simp only [State.goto, State.addRefcount, Function.update_apply] at ha hr ⊢
    grind
  | _ =>
    simp only [State.goto, Function.update_apply] at ha hr ⊢
    grind

/-- A pinned batcher is current, or the swap that took it out still waits: the pin was counted before
the swap looked at the pins. -/
theorem pinned_access (hi : Inv s) (h : Access s x t) (z c : Nat) (hz : t.pc z = .pinned c) :
    t.ptr = some c ∨ ∃ y, (t.pc y).retires = some c := by
  have hkeep {u : State} {p : Pc} (hptr : u.ptr = s.ptr) (hpc : u.pc = s.pc)
      (hr : (s.pc x).retires = none ∨ p.retires = (s.pc x).retires) (hs : s.pc z = .pinned c) :
      (u.goto x p).ptr = some c ∨ ∃ y, ((u.goto x p).pc y).retires = some c := by
    rcases hi.pinned z c hs with hc | ⟨y, hy⟩
    · exact .inl (hptr.trans hc)
    · refine .inr ⟨y, ?_⟩
      rw [goto_pc]
      split
      · next he =>
        subst he
        rcases hr with hr | hr
        · rw [hr] at hy; cases hy
        · rw [hr, hy]
      · rwa [hpc]
  have hback {u : State} {p : Pc} (hpc : u.pc = s.pc) (hne : p ≠ .pinned c)
      (hz : (u.goto x p).pc z = .pinned c) : s.pc z = .pinned c := by
    rw [goto_pc] at hz
    split at hz
    · exact absurd hz hne
    · rwa [hpc] at hz
  cases h with
  | pinned b hp hptr =>
    rw [goto_pc] at hz
    split at hz
    · cases hz; exact .inl hptr
    · exact hkeep rfl rfl (.inl (by simp [hp, Pc.retires])) hz
  | exchange r hp =>
    have hs := hback (u := { s with ptr := r }) rfl (by simp) hz
    rcases hi.pinned z c hs with hc | ⟨y, hy⟩
    · exact .inr ⟨x, by simp [Pc.retires, hc]⟩
    · refine .inr ⟨y, ?_⟩
      rw [goto_pc, if_neg]
      · exact hy
      · rintro rfl
        simp [hp, Pc.retires] at hy
  | retired b hp hn =>
    -- with no pin counted nothing is pinned
    have hs := hback (u := s) rfl (by simp) hz
    obtain ⟨n, hpins, hcount⟩ := hi.pins
    obtain rfl : n = 0 := by omega
    exact absurd (by rw [hs]; rfl) (hcount.none z)
  | unlockEmpty hp =>
    refine hkeep (u := { s with lock := false }) rfl rfl ?_ (hback rfl (by simp) hz)
    rcases hp with hp | hp <;> simp [hp, Pc.retires]
  | unpin hp =>
    refine hkeep (u := { s with pins := s.pins - 1 }) rfl rfl ?_ (hback rfl (by simp) hz)
    rcases hp with ⟨b, hp⟩ | hp <;> simp [hp, Pc.retires]
  | _ =>
    refine hkeep rfl rfl ?_ (hback rfl (by simp) hz)
    simp [*, Pc.retires]

theorem loaded_access (hi : Inv s) (h : Access s x t) (z c : Nat) (hz : t.pc z = .countAcquire c) :
    t.ptr = some c := by
  have hl := hi.loaded z c
  cases h with
  | exchange r hp =>
    -- the lock keeps the pointer from changing under the loaded copy
    simp only [State.goto, Function.update_apply] at hz
    split at hz
    · cases hz
    · next hne =>
      have hx := hi.locked x (by rw [hp]; rfl)
      exact absurd (hx.2 z (by rw [hz]; rfl)) hne
  | _ =>
    simp only [State.goto, State.addRefcount, Function.update_apply] at hz ⊢
    grind

theorem locked_access (hi : Inv s) (h : Access s x t) (z : Nat) (hz : (t.pc z).locked = true) :
    t.lock = true ∧ ∀ y, (t.pc y).locked = true → y = z := by
  have hl := hi.locked
  cases h <;> simp only [State.goto, State.addRefcount, Function.update_apply] at hz ⊢ <;>
    grind [Pc.locked]

theorem pins_access (hi : Inv s) (h : Access s x t) :
    ∃ n : Nat, t.pins = n ∧ Counted (fun y => (t.pc y).pinning = true) n := by
  obtain ⟨n, hn, hcount⟩ := hi.pins
  have hmove {p : Pc} {m : Nat}
      (hm : m + (if (s.pc x).pinning = true then 1 else 0) = n + if p.pinning = true then 1 else 0) :
      Counted (fun y => (Function.update s.pc x p y).pinning = true) m :=
    Shared.counted_update (P := fun p => p.pinning = true) hcount x p hm
  cases h with
  | pin hp => exact ⟨n + 1, by simp [hn], hmove (by simp [hp, Pc.pinning])⟩
  | unpin hp =>
    have hx : (s.pc x).pinning = true := by rcases hp with ⟨b, hp⟩ | hp <;> simp [hp, Pc.pinning]
    cases n with
    | zero => exact absurd hx (hcount.none x)
    | succ k => exact ⟨k, by simp [hn], hmove (by rw [if_pos hx]; rfl)⟩
  | unlockEmpty hp =>
    exact ⟨n, hn, hmove (by rcases hp with hp | hp <;> simp [hp, Pc.pinning])⟩
  | _ => exact ⟨n, hn, hmove (by simp [*, Pc.pinning])⟩

theorem history_access (hi : Inv s) (h : Access s x t) (c : Nat) :
    t.created c = t.freed c + if t.alive c then 1 else 0 := by
  have hh := hi.history c
  cases h with
  | free b hp =>
    have hb := (hi.freeing x b hp).1
    simp only [State.goto, Function.update_apply]
    grind
  | _ =>
    simp only [State.goto, State.addRefcount, Function.update_apply]
    grind

theorem fault_access (hi : Inv s) (h : Access s x t) : t.fault = false := by
  have hf := hi.fault
  cases h with
  | count b hp =>
    have ha := hi.owned none b (hi.loaded x b hp)
    simp [State.goto, State.addRefcount, hf, ha]
  | release b hp _ | last b hp _ =>
    have ha := hi.owned (some x) b (by simp [owner, hp, Pc.owned])
    simp [State.goto, State.addRefcount, hf, ha]
  | free b hp => simp [State.goto, hf, (hi.freeing x b hp).1]
  | _ => exact hf

theorem inv_access (hi : Inv s) (h : Access s x t) : Inv t where
  counts := counts_access hi h
  owned := owned_access hi h
  freeing := freeing_access hi h
  zero := zero_access hi h
  pinned := pinned_access hi h
  loaded := loaded_access hi h
  locked := locked_access hi h
  pins := pins_access hi h
  history := history_access hi h
  fault := fault_access hi h

theorem Reachable.inv (h : Reachable s) : Inv s :=
  Machine.Reachable.invariant (I := Inv) (by rintro _ rfl; exact inv_init)
    (fun _ _ hi ⟨_, _, hact⟩ => inv_access hi (act_access hact)) h

/-! ## What the users rely on -/

theorem Inv.pinned_alive (hi : Inv s) (hp : s.pc x = .pinned b) : s.alive b = true := by
  rcases hi.pinned x b hp with hptr | ⟨y, hy⟩
  · exact hi.owned none b hptr
  · refine hi.owned (some y) b ?_
    simp only [owner]
    cases hpc : s.pc y <;> simp_all [Pc.retires, Pc.owned]

/-- A batcher that nobody refers to is not alive: its count would be zero, and the use that brought it
there would still be about to free it. -/
theorem Inv.dead_of_unreferred (hi : Inv s) (hb : ¬ Refers s b) : s.alive b = false := by
  by_contra ha
  rw [Bool.not_eq_false] at ha
  obtain ⟨n, hn, hcount⟩ := hi.counts b ha
  have hnone : ∀ o, owner s o ≠ some b := by
    intro o ho
    refine hb ?_
    cases o with
    | none => exact .inl ho
    | some y =>
      refine .inr ⟨y, ?_⟩
      simp only [owner] at ho
      cases hpc : s.pc y <;> simp_all [Pc.names, Pc.owned]
  cases n with
  | zero =>
    obtain ⟨z, hz⟩ := hi.zero b ha hn
    exact hb (.inr ⟨z, by rw [hz]; rfl⟩)
  | succ k =>
    obtain ⟨places, hmem, hcard⟩ := hcount
    obtain ⟨o, ho⟩ := Finset.card_pos.mp (show 0 < places.card by omega)
    exact hnone o ((hmem o).mp ho)

/-- A use that is about to free a batcher is alone with it. -/
theorem Inv.freeing_alone (hi : Inv s) (hp : s.pc x = .freeing b) :
    s.pc y ≠ .holding b ∧ s.pc y ≠ .pinned b ∧ (s.pc y = .freeing b → y = x) := by
  have hf := hi.freeing x b hp
  have hnone := hi.counts.last hf.1 hf.2.1
  refine ⟨?_, ?_, hf.2.2 y⟩
  · intro hy
    exact hnone (some y) (by simp [owner, hy, Pc.owned])
  · intro hy
    rcases hi.pinned y b hy with hptr | ⟨z, hz⟩
    · exact hnone none hptr
    · refine hnone (some z) ?_
      simp only [owner]
      cases hpc : s.pc z <;> simp_all [Pc.retires, Pc.owned]

structure Safe (s : State) : Prop where
  held : ∀ x b, s.pc x = .holding b → s.alive b = true
  pinned : ∀ x b, s.pc x = .pinned b → s.alive b = true
  /-- Who frees a batcher is the only one to do so, and nobody holds or has pinned it. -/
  alone : ∀ x y b, s.pc x = .freeing b →
    s.pc y ≠ .holding b ∧ s.pc y ≠ .pinned b ∧ (s.pc y = .freeing b → y = x)
  touched : s.fault = false
  once : ∀ b, s.freed b ≤ s.created b ∧ s.created b ≤ s.freed b + 1
  reclaimed : ∀ b, ¬ Refers s b → s.freed b = s.created b
  pins : 0 ≤ s.pins ∧ Counted (fun x => (s.pc x).pinning = true) s.pins.toNat

/-- In every interleaving of the uses of the reference. -/
theorem safe_reclamation (h : Reachable s) : Safe s := by
  have hi := h.inv
  refine ⟨fun x b hx => hi.owned (some x) b (by simp [owner, hx, Pc.owned]),
    fun x b hx => hi.pinned_alive hx, fun x y b hx => hi.freeing_alone hx, hi.fault, ?_, ?_, ?_⟩
  · intro b
    have hb := hi.history b
    split at hb <;> omega
  · intro b hb
    have hh := hi.history b
    rw [hi.dead_of_unreferred hb] at hh
    simpa using hh.symm
  · obtain ⟨n, hn, hcount⟩ := hi.pins
    rw [hn]
    exact ⟨by omega, hcount⟩

/-- A batcher that shutdown has taken out while one use holds it and another has pinned it. -/
theorem safe_reclamation_shutdown : ∃ s, Reachable s ∧
    (s.pc 0 = .waiting 7 ∧ s.pc 1 = .holding 7 ∧ s.pc 2 = .pinned 7 ∧ s.refcount 7 = 2) ∧ Safe s := by
  obtain ⟨s, hs, hp⟩ := Machine.Reachable.exists_of_run (fun s (l : Nat × Action) => act s l.1 l.2)
    (R := Step) (fun _ l _ hl => ⟨l.1, l.2, hl⟩) (s := State.init)
    [(0, .startup 7), (0, .next), (0, .next), (0, .next), (1, .acquire), (1, .next), (1, .next),
      (1, .next), (1, .next), (2, .pin), (2, .next), (0, .shutdown), (0, .next), (0, .next), (0, .next)]
    (fun s => s.pc 0 = .waiting 7 ∧ s.pc 1 = .holding 7 ∧ s.pc 2 = .pinned 7 ∧ s.refcount 7 = 2)
    (by decide)
  exact ⟨s, hs, by simpa using hp, safe_reclamation hs⟩

end SentryNative.Batcher.Reference
