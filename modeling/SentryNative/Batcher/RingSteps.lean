import SentryNative.Batcher.RingInvariant

/-!
# Every access keeps the invariant

One lemma for each kind of access that changes the memory: claiming and writing
a slot, sealing and publishing a buffer, and the flush's own stores.
-/

namespace SentryNative.Batcher

open Machine

variable {c : Config} {s : State}

/-! ## Generations -/

/-- Two live generations in one slot of the ring are the same. -/
theorem Memory.gen_inj (m : Memory c s) {g h : Nat} (hg : s.freed ≤ g) (hg' : g ≤ s.gen)
    (hh : s.freed ≤ h) (hh' : h ≤ s.gen) (he : g % c.bufferCount = h % c.bufferCount) : g = h := by
  have := m.gen_lt
  exact eq_of_mod_eq hg (by omega) hh (by omega) he

theorem Memory.live (m : Memory c s) {g : Nat} (hg : s.taken ≤ g) (hg' : g ≤ s.gen) :
    Live c s (g % c.bufferCount) := by
  have hb := m.bufGen g (Nat.le_trans m.freed_le hg) hg'
  exact ⟨by rw [hb]; exact hg, by rw [hb]; exact hg', by rw [hb]⟩

theorem Live.eq_of_mod (m : Memory c s) {a g : Nat} (hl : Live c s a) (hg : s.freed ≤ g)
    (hg' : g ≤ s.gen) (he : g % c.bufferCount = a) : g = s.bufGen a := by
  refine m.gen_inj hg hg' ?_ hl.le_gen ?_
  · exact Nat.le_trans m.freed_le hl.taken_le
  · rw [hl.mod, he]

/-- A rotation works on a live buffer, whoever called it. -/
theorem Inv.rotating_live (h : Inv c s) {x : Nat} {k : Caller} {stage : RotateStage} {a : Nat}
    (hx : s.pc x = .rotate k stage a) : Live c s a := by
  have ok := h.pcs x
  rw [hx] at ok
  cases k with
  | last => exact ok.hold a rfl
  | full => exact ok.hold a rfl
  | flush fi =>
    obtain ⟨ht, -, ha⟩ := ok.flush
    have hl := h.memory.live (Nat.le_refl s.taken) h.memory.taken_gen
    rw [ht, ← ha] at hl
    exact hl

theorem mod_succ (n a : Nat) : (a % n + 1) % n = (a + 1) % n := by
  rw [Nat.add_mod, Nat.mod_mod, ← Nat.add_mod]

/-- If the next buffer is not sealed, the ring has room for one more generation. -/
theorem Inv.room (h : Inv c s) {a : Nat} (hl : Live c s a)
    (hs : s.sealed ((a + 1) % c.bufferCount) = false) :
    s.bufGen a + 1 < s.freed + c.bufferCount := by
  have m := h.memory
  have h2 := c.two_buffers
  have hgen := m.gen_lt
  have hle := hl.le_gen
  by_contra hfull
  have heq : s.bufGen a + 1 = s.freed + c.bufferCount := by omega
  have hmod : (a + 1) % c.bufferCount = s.freed % c.bufferCount := by
    rw [← hl.mod, mod_succ, heq, Nat.add_mod_right]
  rw [hmod, m.sealed_old s.freed (Nat.le_refl _) (by omega)] at hs
  cases hs

/-! ## Slots -/

theorem Inv.not_claimed (h : Inv c s) {x : Nat} (hx : (s.pc x).slot = .none) (g i : Nat) :
    (s.claims g)[i]? ≠ some x := by
  intro hc
  rcases h.claimed g i x hc with hw | ⟨a, hw, -⟩
  · rw [hx] at hw; cases hw
  · rw [hx] at hw; cases hw

theorem getElem?_append_claim {l : List Nat} {i x y : Nat} (h : (l ++ [x])[i]? = some y) :
    l[i]? = some y ∨ i = l.length ∧ y = x := by
  rcases Nat.lt_trichotomy i l.length with hi | hi | hi
  · rw [List.getElem?_append_left hi] at h
    exact Or.inl h
  · subst hi
    simp at h
    exact Or.inr ⟨rfl, h.symm⟩
  · rw [List.getElem?_eq_none (by simp; omega)] at h
    cases h

theorem getElem?_append_old {l : List Nat} {i x y : Nat} (h : l[i]? = some y) :
    (l ++ [x])[i]? = some y := by
  have hi : i < l.length := by
    by_contra hn
    rw [List.getElem?_eq_none (by omega)] at h
    cases h
  rw [List.getElem?_append_left hi, h]

/-- The other calls see nothing of a step that only moves `x`. -/
theorem PcOk.shared {t : State} {p : Pc} (ok : PcOk c s p) (htaken : t.taken = s.taken)
    (hgen : t.gen = s.gen) (hfreed : t.freed = s.freed) (hbuf : t.bufGen = s.bufGen)
    (hdrain : t.drainIdx = s.drainIdx) (hsealed : ∀ a, s.sealed a = true → t.sealed a = true) :
    PcOk c t p := by
  constructor
  · intro a ha
    have hl := ok.hold a ha
    exact ⟨by rw [htaken, hbuf]; exact hl.taken_le, by rw [hgen, hbuf]; exact hl.le_gen,
      by rw [hbuf]; exact hl.mod⟩
  · intro k st a hp hc
    rw [hbuf, hfreed]
    exact ok.free k st a hp hc
  · intro a ha
    exact hsealed a (ok.swap a ha)
  · have hf := ok.flush
    cases p with
    | rotate k st a =>
      cases k with
      | flush fi => simpa only [FlushOk, htaken, hfreed, hdrain] using hf
      | _ => trivial
    | waitAdding fi d =>
      obtain ⟨h1, h2, h3, h4⟩ := hf
      refine ⟨by rw [htaken, hfreed]; exact h1, by rw [hdrain]; exact h2,
        by rw [hfreed]; exact h3, ?_⟩
      rw [htaken, hgen]
      exact h4.imp_right (hsealed d)
    | _ => first | trivial | simpa only [FlushOk, htaken, hfreed, hdrain, hgen] using hf

/-- Facts about the calls that a step keeps when it leaves `inside`, `holds`,
`critical` and `swapping` of the moved call alone. -/
structure SameRole (p q : Pc) : Prop where
  inside : q.inside = p.inside
  holds : q.holds = p.holds
  critical : q.critical = p.critical
  swapping : q.swapping = p.swapping
  take : ∀ fi d, q ≠ .take fi d

theorem SameRole.inside_set {x : Nat} {q : Pc} (r : SameRole (s.pc x) q) (y : Nat) :
    (set s.pc x q y).inside = (s.pc y).inside := by
  by_cases hy : y = x
  · subst hy; rw [set_same, r.inside]
  · rw [set_ne _ hy]

theorem SameRole.holds_set {x : Nat} {q : Pc} (r : SameRole (s.pc x) q) (y : Nat) :
    (set s.pc x q y).holds = (s.pc y).holds := by
  by_cases hy : y = x
  · subst hy; rw [set_same, r.holds]
  · rw [set_ne _ hy]

theorem SameRole.critical_set {x : Nat} {q : Pc} (r : SameRole (s.pc x) q) (y : Nat) :
    (set s.pc x q y).critical = (s.pc y).critical := by
  by_cases hy : y = x
  · subst hy; rw [set_same, r.critical]
  · rw [set_ne _ hy]

theorem SameRole.swapping_set {x : Nat} {q : Pc} (r : SameRole (s.pc x) q) (y : Nat) :
    (set s.pc x q y).swapping = (s.pc y).swapping := by
  by_cases hy : y = x
  · subst hy; rw [set_same, r.swapping]
  · rw [set_ne _ hy]

theorem SameRole.take_set {x : Nat} {q : Pc} (r : SameRole (s.pc x) q) {y fi d : Nat}
    (h : set s.pc x q y = .take fi d) : s.pc y = .take fi d := by
  by_cases hy : y = x
  · subst hy
    rw [set_same] at h
    exact absurd h (r.take fi d)
  · rwa [set_ne _ hy] at h

/-- A step that moves a call within its role keeps the roles. -/
theorem Roles.same {t : State} {x : Nat} {q : Pc} (h : Roles c s) (r : SameRole (s.pc x) q)
    (hpc : t.pc = set s.pc x q) (hadding : t.adding = s.adding) (hflush : t.flushing = s.flushing)
    (htaken : t.taken = s.taken) (hfreed : t.freed = s.freed) (hdrain : t.drainIdx = s.drainIdx)
    (hactive : t.activeIdx = s.activeIdx) (hsealed : t.sealed = s.sealed) : Roles c t where
  adding b := by
    rw [hadding]
    exact (h.adding b).congr fun y => by rw [hpc, r.inside_set]
  lock y hy := by
    rw [hpc, r.critical_set] at hy
    rw [hflush]
    exact h.lock y hy
  lock_unique y z hy hz := by
    rw [hpc, r.critical_set] at hy hz
    exact h.lock_unique y z hy hz
  lock_free hn := by
    rw [htaken, hfreed, hdrain]
    refine h.lock_free fun y => ?_
    have := hn y
    rwa [hpc, r.critical_set] at this
  take_alone y fi d hy z := by
    rw [hpc] at hy ⊢
    rw [r.holds_set]
    exact h.take_alone y fi d (r.take_set hy) z
  sealed_active hs := by
    rw [hactive, hsealed] at hs
    obtain ⟨y, hy⟩ := h.sealed_active hs
    exact ⟨y, by rw [hpc, hactive, r.swapping_set]; exact hy⟩

/-- A step that changes neither claims nor slots keeps what is known of them. -/
theorem Slots.same {t : State} {x : Nat} {p : Pc} (h : Slots c s)
    (hslot : p.slot = (s.pc x).slot) (hpc : t.pc = set s.pc x p) (hitems : t.items = s.items)
    (hclaims : t.claims = s.claims) (htaken : s.taken ≤ t.taken)
    (hbuf : ∀ y a i, (s.pc y).slot = .writing a i → t.bufGen a = s.bufGen a) : Slots c t := by
  have slot : ∀ y, (t.pc y).slot = (s.pc y).slot := by
    intro y
    rw [hpc]
    by_cases hy : y = x
    · subst hy; rw [set_same, hslot]
    · rw [set_ne _ hy]
  refine ⟨?_, ?_, ?_, ?_⟩
  · intro g i y he
    rw [hclaims] at he
    rw [slot y]
    rcases h.claimed g i y he with hw | ⟨a, hw, hg⟩
    · exact Or.inl hw
    · exact Or.inr ⟨a, hw, by rw [hbuf y a i hw]; exact hg⟩
  · intro g i y hg he hw
    rw [hclaims] at he
    rw [slot y] at hw
    rw [hitems]
    exact h.written g i y (Nat.le_trans htaken hg) he hw
  · intro y a i hw
    rw [slot y] at hw
    rw [hclaims, hbuf y a i hw]
    exact h.writing y a i hw
  · intro y hw
    rw [slot y] at hw
    rw [hclaims]
    exact h.placed y hw

/-- A slot is claimed for the call: it will be written by nobody else. -/
theorem Inv.claim_slot (h : Inv c s) {x a : Nat} (hx : s.pc x = .claim a)
    (hi : s.index a < c.queueLength) :
    Inv c ({ s with
      index := set s.index a (s.index a + 1)
      claims := set s.claims (s.bufGen a) (s.claims (s.bufGen a) ++ [x]) }.goto x
        (.write a (s.index a))) := by
  have m := h.memory
  have ok := h.pcs x
  rw [hx] at ok
  have hl : Live c s a := ok.hold a rfl
  have fresh : ∀ g i : Nat, (s.claims g)[i]? ≠ some x :=
    h.not_claimed (by rw [hx]; rfl)
  have hlen : (s.claims (s.bufGen a)).length = s.index a := by
    rw [m.claims_length _ hl.taken_le hl.le_gen, hl.mod]
    omega
  have role : SameRole (s.pc x) (.write a (s.index a)) := by
    rw [hx]
    exact ⟨rfl, rfl, rfl, rfl, by simp⟩
  -- the claims of the buffer's generation have one entry more, all others are the same
  have entry : ∀ g i y : Nat,
      (set s.claims (s.bufGen a) (s.claims (s.bufGen a) ++ [x]) g)[i]? = some y →
      (s.claims g)[i]? = some y ∨ g = s.bufGen a ∧ i = s.index a ∧ y = x := by
    intro g i y he
    by_cases hg : g = s.bufGen a
    · subst hg
      rw [set_same] at he
      rcases getElem?_append_claim he with he | ⟨hi, hy⟩
      · exact Or.inl he
      · exact Or.inr ⟨rfl, by omega, hy⟩
    · rw [set_ne _ hg] at he
      exact Or.inl he
  have old : ∀ g i y : Nat, (s.claims g)[i]? = some y →
      (set s.claims (s.bufGen a) (s.claims (s.bufGen a) ++ [x]) g)[i]? = some y := by
    intro g i y he
    by_cases hg : g = s.bufGen a
    · subst hg
      rw [set_same]
      exact getElem?_append_old he
    · rwa [set_ne _ hg]
  have slot : ∀ y, y ≠ x → (set s.pc x (.write a (s.index a)) y).slot = (s.pc y).slot := by
    intro y hy
    rw [set_ne _ hy]
  constructor
  case memory =>
    refine ⟨m.active, m.freed_le, m.taken_le, m.taken_gen, m.gen_lt, m.sealed_old,
      m.unsealed_free, m.bufGen, ?_, ?_, ?_, ?_, ?_⟩
    · intro b hb
      have hba : b ≠ a := by
        rintro rfl
        exact hb _ hl.taken_le hl.le_gen hl.mod
      simp only [State.goto, set_ne _ hba]
      exact m.index_free b hb
    · intro g hg hg'
      simp only [State.goto]
      by_cases hga : g = s.bufGen a
      · subst hga
        rw [set_same, hl.mod, set_same, List.length_append, hlen, List.length_singleton]
        omega
      · have hmod : g % c.bufferCount ≠ a := fun he =>
          hga (hl.eq_of_mod m (Nat.le_trans m.freed_le hg) hg' he)
        rw [set_ne _ hga, set_ne _ hmod]
        exact m.claims_length g hg hg'
    · intro g hg
      have hga : g ≠ s.bufGen a := by
        have := hl.le_gen
        simp only [State.goto] at hg
        omega
      simp only [State.goto, set_ne _ hga]
      exact m.claims_future g hg
    · intro g i g' i' y h1 h2
      rcases entry g i y h1 with e1 | ⟨rfl, rfl, hy⟩
      · rcases entry g' i' y h2 with e2 | ⟨-, -, hy⟩
        · exact m.unique g i g' i' y e1 e2
        · exact absurd (hy ▸ e1) (fresh g i)
      · rcases entry g' i' y h2 with e2 | ⟨rfl, rfl, -⟩
        · exact absurd (hy ▸ e2) (fresh g' i')
        · exact ⟨rfl, rfl⟩
    · rw [State.goto, m.batches]
      congr 1
      apply List.map_congr_left
      intro g hg
      have hga : g ≠ s.bufGen a := by
        have := hl.taken_le
        have := List.mem_range.mp hg
        omega
      simp only [set_ne _ hga]
  case pcs =>
    intro y
    simp only [State.goto]
    by_cases hy : y = x
    · subst hy
      rw [set_same]
      exact pcOk_of_live rfl ⟨hl.taken_le, hl.le_gen, hl.mod⟩ (by simp) trivial
    · rw [set_ne _ hy]
      exact (h.pcs y).shared rfl rfl rfl rfl rfl fun _ hs => hs
  case toRoles => exact h.toRoles.same role rfl rfl rfl rfl rfl rfl rfl rfl
  case toSlots =>
    constructor
    case claimed =>
      intro g i y he
      simp only [State.goto] at he ⊢
      rcases entry g i y he with he | ⟨rfl, rfl, rfl⟩
      · have hy : y ≠ x := fun hy => fresh g i (hy ▸ he)
        rw [slot y hy]
        exact h.claimed g i y he
      · exact Or.inr ⟨a, by rw [set_same]; rfl, rfl⟩
    case written =>
      intro g i y hg he hs
      simp only [State.goto] at he hs ⊢
      rcases entry g i y he with he | ⟨rfl, rfl, rfl⟩
      · have hy : y ≠ x := fun hy => fresh g i (hy ▸ he)
        rw [slot y hy] at hs
        exact h.written g i y hg he hs
      · rw [set_same] at hs
        cases hs
    case writing =>
      intro y b i hs
      simp only [State.goto] at hs ⊢
      by_cases hy : y = x
      · subst hy
        rw [set_same] at hs
        cases hs
        rw [set_same, ← hlen]
        simp
      · rw [slot y hy] at hs
        exact old _ _ _ (h.writing y b i hs)
    case placed =>
      intro y hs
      simp only [State.goto] at hs ⊢
      by_cases hy : y = x
      · subst hy
        rw [set_same] at hs
        cases hs
      · rw [slot y hy] at hs
        obtain ⟨g, i, he⟩ := h.placed y hs
        exact ⟨g, i, old g i y he⟩

/-- The buffer was full: only its index grows. -/
theorem Inv.claim_full (h : Inv c s) {x a : Nat} (hx : s.pc x = .claim a)
    (hi : ¬ s.index a < c.queueLength) :
    Inv c ({ s with index := set s.index a (s.index a + 1) }.goto x
      (.rotate .full .sealedNew a)) := by
  have m := h.memory
  have ok := h.pcs x
  rw [hx] at ok
  have hl : Live c s a := ok.hold a rfl
  have role : SameRole (s.pc x) (.rotate .full .sealedNew a) := by
    rw [hx]
    exact ⟨rfl, rfl, rfl, rfl, by simp⟩
  constructor
  case memory =>
    refine ⟨m.active, m.freed_le, m.taken_le, m.taken_gen, m.gen_lt, m.sealed_old,
      m.unsealed_free, m.bufGen, ?_, ?_, m.claims_future, m.unique, m.batches⟩
    · intro b hb
      have hba : b ≠ a := by
        rintro rfl
        exact hb _ hl.taken_le hl.le_gen hl.mod
      simp only [State.goto, set_ne _ hba]
      exact m.index_free b hb
    · intro g hg hg'
      have hlen := m.claims_length g hg hg'
      simp only [State.goto]
      by_cases hmod : g % c.bufferCount = a
      · rw [hmod] at hlen ⊢
        rw [set_same, hlen]
        omega
      · rw [set_ne _ hmod]
        exact hlen
  case pcs =>
    intro y
    simp only [State.goto]
    by_cases hy : y = x
    · subst hy
      rw [set_same]
      refine ⟨?_, ?_, ?_, trivial⟩
      · intro b hb
        cases hb
        exact ⟨hl.taken_le, hl.le_gen, hl.mod⟩
      · intro k st b hb hc
        cases hb
        cases hc
      · intro b hb
        cases hb
    · rw [set_ne _ hy]
      exact (h.pcs y).shared rfl rfl rfl rfl rfl fun _ hs => hs
  case toRoles => exact h.toRoles.same role rfl rfl rfl rfl rfl rfl rfl rfl
  case toSlots =>
    exact h.toSlots.same (by rw [hx]; rfl) rfl rfl rfl (Nat.le_refl _) fun _ _ _ _ => rfl

/-- The slot is written; nobody else's slot is. -/
theorem Inv.write_slot (h : Inv c s) {x a i : Nat} (hx : s.pc x = .write a i) {p : Pc}
    (role : SameRole (s.pc x) p) (hp : PcOk c s p) (hslot : p.slot = .written) :
    Inv c ({ s with items := set s.items a (set (s.items a) i (some x)) }.goto x p) := by
  have m := h.memory
  have ok := h.pcs x
  rw [hx] at ok
  have hl : Live c s a := ok.hold a rfl
  have mine : (s.claims (s.bufGen a))[i]? = some x := h.writing x a i (by rw [hx]; rfl)
  have slot : ∀ y, y ≠ x → (set s.pc x p y).slot = (s.pc y).slot := by
    intro y hy
    rw [set_ne _ hy]
  constructor
  case memory =>
    exact ⟨m.active, m.freed_le, m.taken_le, m.taken_gen, m.gen_lt, m.sealed_old, m.unsealed_free,
      m.bufGen, m.index_free, m.claims_length, m.claims_future, m.unique, m.batches⟩
  case pcs =>
    intro y
    simp only [State.goto]
    by_cases hy : y = x
    · subst hy
      rw [set_same]
      exact hp.shared rfl rfl rfl rfl rfl fun _ hs => hs
    · rw [set_ne _ hy]
      exact (h.pcs y).shared rfl rfl rfl rfl rfl fun _ hs => hs
  case toRoles => exact h.toRoles.same role rfl rfl rfl rfl rfl rfl rfl rfl
  case toSlots =>
    constructor
    case claimed =>
      intro g j y he
      simp only [State.goto] at he ⊢
      by_cases hy : y = x
      · subst hy
        rw [set_same]
        exact Or.inl hslot
      · rw [slot y hy]
        exact h.claimed g j y he
    case written =>
      intro g j y hg he hs
      simp only [State.goto] at he hs hg ⊢
      have hgen : g ≤ s.gen := by
        by_contra hn
        rw [m.claims_future g (by omega)] at he
        simp at he
      by_cases hy : y = x
      · subst hy
        obtain ⟨rfl, rfl⟩ := m.unique _ _ _ _ _ mine he
        rw [hl.mod, set_same, set_same]
      · rw [slot y hy] at hs
        have hw := h.written g j y hg he hs
        by_cases ha : g % c.bufferCount = a
        · have hga := hl.eq_of_mod m (Nat.le_trans m.freed_le hg) hgen ha
          have hj : j ≠ i := by
            rintro rfl
            rw [hga, mine] at he
            exact hy (Option.some.inj he).symm
          rw [ha] at hw ⊢
          rw [set_same, set_ne _ hj]
          exact hw
        · rw [set_ne _ ha]
          exact hw
    case writing =>
      intro y b j hs
      simp only [State.goto] at hs ⊢
      by_cases hy : y = x
      · subst hy
        rw [set_same, hslot] at hs
        cases hs
      · rw [slot y hy] at hs
        exact h.writing y b j hs
    case placed =>
      intro y hs
      simp only [State.goto] at hs ⊢
      by_cases hy : y = x
      · subst hy
        exact ⟨_, _, mine⟩
      · rw [slot y hy] at hs
        exact h.placed y hs

theorem holds_of_writing {p : Pc} {a i : Nat} (h : p.slot = .writing a i) : p.holds = some a := by
  cases p with
  | write b j => cases h; rfl
  | rotate k st b => cases k <;> cases h
  | returned ok => cases ok <;> cases h
  | _ => cases h

/-! ## Rotation -/

theorem holds_rotate (k : Caller) (st st' : RotateStage) (a : Nat) :
    (Pc.rotate k st a).holds = (Pc.rotate k st' a).holds := by
  cases k <;> rfl

theorem flushOk_rotate {k : Caller} {st a : _} (st' : RotateStage)
    (h : FlushOk c s (.rotate k st a)) : FlushOk c s (.rotate k st' a) := by
  cases k <;> exact h

/-- A rotation moves to another of its accesses. -/
theorem Inv.rotate_goto (h : Inv c s) {x : Nat} {k : Caller} {stage stage' : RotateStage} {a : Nat}
    (hx : s.pc x = .rotate k stage a)
    (hfree : stage'.checked = true → s.bufGen a + 1 < s.freed + c.bufferCount)
    (hswap : stage' ≠ .swap) (hswap' : stage = .swap → s.activeIdx ≠ a) :
    Inv c (s.goto x (.rotate k stage' a)) := by
  have ok := h.pcs x
  rw [hx] at ok
  refine h.goto x _ ⟨?_, ?_, ?_, ?_⟩ ?_ ?_ ?_ ?_ ?_ ?_
  · intro b hb
    rw [holds_rotate k stage' stage] at hb
    exact ok.hold b hb
  · intro k' st b hb hc
    cases hb
    exact hfree hc
  · intro b hb
    cases stage' <;> simp_all [Pc.swapping]
  · exact flushOk_rotate stage' ok.flush
  · rw [hx]; cases k <;> rfl
  · rw [hx]; cases k <;> rfl
  · rw [hx]
    intro hs
    cases stage with
    | swap =>
      simp only [Pc.swapping, Option.some.injEq] at hs
      exact absurd hs.symm (hswap' rfl)
    | _ => simp [Pc.swapping] at hs
  · intro fi d hd; cases hd
  · intro d hd
    left
    rw [hx, holds_rotate k stage stage']
    exact hd
  · rw [hx]; cases k <;> rfl

/-- The old buffer is sealed. -/
theorem Inv.seal_old (h : Inv c s) {x : Nat} {k : Caller} {a : Nat}
    (hx : s.pc x = .rotate k .sealOld a) :
    Inv c ({ s with sealed := set s.sealed a true }.goto x (.rotate k .swap a)) := by
  have m := h.memory
  have hl := h.rotating_live hx
  have ok := h.pcs x
  rw [hx] at ok
  have hset : ∀ b, s.sealed b = true → set s.sealed a true b = true := by
    intro b hb
    by_cases hba : b = a
    · subst hba; rw [set_same]
    · rw [set_ne _ hba]; exact hb
  constructor
  case memory =>
    refine ⟨m.active, m.freed_le, m.taken_le, m.taken_gen, m.gen_lt, ?_, ?_,
      m.bufGen, m.index_free, m.claims_length, m.claims_future, m.unique, m.batches⟩
    · exact fun g hg hg' => hset _ (m.sealed_old g hg hg')
    · intro b hb
      have hba : b ≠ a := by
        rintro rfl
        exact hb _ (Nat.le_trans m.freed_le hl.taken_le) hl.le_gen hl.mod
      simp only [State.goto, set_ne _ hba]
      exact m.unsealed_free b hb
  case pcs =>
    intro y
    simp only [State.goto]
    by_cases hy : y = x
    · subst hy
      rw [set_same]
      refine ⟨?_, ?_, ?_, ?_⟩
      · intro b hb
        have hl' := ok.hold b (by rw [holds_rotate k .sealOld .swap]; exact hb)
        exact ⟨hl'.taken_le, hl'.le_gen, hl'.mod⟩
      · intro k' st b hb _
        cases hb
        exact ok.free k .sealOld a rfl rfl
      · intro b hb
        simp only [Pc.swapping, Option.some.injEq] at hb
        subst hb
        exact set_same _ _ _
      · have hf := ok.flush
        cases k <;> exact hf
    · rw [set_ne _ hy]
      exact (h.pcs y).shared rfl rfl rfl rfl rfl hset
  case toRoles =>
    have inside : ∀ y, (set s.pc x (.rotate k .swap a) y).inside = (s.pc y).inside := by
      intro y
      by_cases hy : y = x
      · subst hy; rw [set_same, hx]; cases k <;> rfl
      · rw [set_ne _ hy]
    have holds : ∀ y, (set s.pc x (.rotate k .swap a) y).holds = (s.pc y).holds := by
      intro y
      by_cases hy : y = x
      · subst hy; rw [set_same, hx]; cases k <;> rfl
      · rw [set_ne _ hy]
    have critical : ∀ y, (set s.pc x (.rotate k .swap a) y).critical = (s.pc y).critical := by
      intro y
      by_cases hy : y = x
      · subst hy; rw [set_same, hx]; cases k <;> rfl
      · rw [set_ne _ hy]
    constructor
    case adding => exact fun b => (h.adding b).congr fun y => by simp only [State.goto, inside]
    case lock => exact fun y hy => h.lock y (by rw [← critical]; exact hy)
    case lock_unique =>
      exact fun y z hy hz => h.lock_unique y z (by rw [← critical]; exact hy)
        (by rw [← critical]; exact hz)
    case lock_free => exact fun hn => h.lock_free fun y => by rw [← critical]; exact hn y
    case take_alone =>
      intro y fi d hy z
      simp only [State.goto] at hy ⊢
      rw [holds]
      by_cases hyx : y = x
      · subst hyx; rw [set_same] at hy; cases hy
      · rw [set_ne _ hyx] at hy
        exact h.take_alone y fi d hy z
    case sealed_active =>
      intro hs
      simp only [State.goto] at hs ⊢
      by_cases ha : s.activeIdx = a
      · exact ⟨x, by rw [set_same, ha]; rfl⟩
      · rw [set_ne _ ha] at hs
        obtain ⟨y, hy⟩ := h.sealed_active hs
        refine ⟨y, ?_⟩
        have hyx : y ≠ x := by
          rintro rfl
          rw [hx] at hy
          cases hy
        rw [set_ne _ hyx]
        exact hy
  case toSlots =>
    refine h.toSlots.same (x := x) (p := .rotate k .swap a) ?_ rfl rfl rfl (Nat.le_refl _)
      fun _ _ _ _ => rfl
    rw [hx]
    cases k <;> rfl

/-- The next buffer is published: the ring moves on by one generation. -/
theorem Inv.publish (h : Inv c s) {x : Nat} {k : Caller} {a : Nat}
    (hx : s.pc x = .rotate k .swap a) (hactive : s.activeIdx = a) :
    Inv c ({ s with
      activeIdx := (a + 1) % c.bufferCount
      gen := s.gen + 1
      bufGen := set s.bufGen ((a + 1) % c.bufferCount) (s.gen + 1) }.goto x
        (afterRotate k a true)) := by
  have m := h.memory
  have hl := h.rotating_live hx
  have ok := h.pcs x
  rw [hx] at ok
  -- the generation the rotation started from is still the active one
  have hgen : s.gen = s.bufGen a :=
    hl.eq_of_mod m (Nat.le_trans m.freed_le m.taken_gen) (Nat.le_refl _)
      (by rw [← m.active, hactive])
  have hroom : s.gen + 1 < s.freed + c.bufferCount := by
    have := ok.free k .swap a rfl rfl
    omega
  have hnext : (a + 1) % c.bufferCount = (s.gen + 1) % c.bufferCount := by
    rw [← hactive, m.active, mod_succ]
  have hnew : ∀ g, s.freed ≤ g → g ≤ s.gen → g % c.bufferCount ≠ (a + 1) % c.bufferCount := by
    intro g hg hg' he
    rw [hnext] at he
    have := eq_of_mod_eq hg (by omega : g < s.freed + c.bufferCount) (by omega) hroom he
    omega
  have hlive : ∀ b, Live c s b → b ≠ (a + 1) % c.bufferCount := by
    intro b hb he
    exact hnew _ (Nat.le_trans m.freed_le hb.taken_le) hb.le_gen (by rw [hb.mod, he])
  have keep : ∀ b, Live c s b → Live c ({ s with
      activeIdx := (a + 1) % c.bufferCount
      gen := s.gen + 1
      bufGen := set s.bufGen ((a + 1) % c.bufferCount) (s.gen + 1) }.goto x
        (afterRotate k a true)) b := by
    intro b hb
    have := hb.le_gen
    refine ⟨?_, ?_, ?_⟩ <;> simp only [State.goto, set_ne _ (hlive b hb)]
    · exact hb.taken_le
    · omega
    · exact hb.mod
  have hsealed : s.sealed a = true := ok.swap a rfl
  have hnewseal : s.sealed ((a + 1) % c.bufferCount) = false := m.unsealed_free _ hnew
  constructor
  case memory =>
    constructor <;> simp only [State.goto]
    case active => exact hnext
    case freed_le => exact m.freed_le
    case taken_le => exact m.taken_le
    case taken_gen => have := m.taken_gen; omega
    case gen_lt => exact hroom
    case sealed_old =>
      intro g hg hg'
      by_cases he : g = s.gen
      · rw [he, ← m.active, hactive]
        exact hsealed
      · exact m.sealed_old g hg (by omega)
    case unsealed_free =>
      intro b hb
      exact m.unsealed_free b fun g hg hg' => hb g hg (by omega)
    case bufGen =>
      intro g hg hg'
      by_cases he : g = s.gen + 1
      · subst he
        rw [← hnext, set_same]
      · have hle : g ≤ s.gen := by omega
        rw [set_ne _ (hnew g hg hle)]
        exact m.bufGen g hg hle
    case index_free =>
      intro b hb
      exact m.index_free b fun g hg hg' => hb g hg (by omega)
    case claims_length =>
      intro g hg hg'
      by_cases he : g = s.gen + 1
      · subst he
        have hz : s.index ((s.gen + 1) % c.bufferCount) = 0 := by
          rw [← hnext]
          exact m.index_free _ fun g hg hg' => hnew g (Nat.le_trans m.freed_le hg) hg'
        rw [m.claims_future _ (by omega), hz]
        simp
      · exact m.claims_length g hg (by omega)
    case claims_future =>
      intro g hg
      exact m.claims_future g (by omega)
    case unique => exact m.unique
    case batches => exact m.batches
  case pcs =>
    intro y
    by_cases hy : y = x
    · subst hy
      simp only [State.goto, set_same]
      cases k with
      | last => exact pcOk_of_live rfl (keep a hl) (by simp [afterRotate]) trivial
      | full => exact pcOk_of_live rfl (keep a hl) (by simp [afterRotate]) trivial
      | flush fi =>
        obtain ⟨h1, h2, h3⟩ := ok.flush
        have := m.taken_gen
        exact pcOk_of_outside rfl (by simp [afterRotate])
          ⟨h1, h2, h3, Or.inl (by simp only; omega)⟩
    · simp only [State.goto, set_ne _ hy]
      have okY := h.pcs y
      constructor
      · exact fun b hb => keep b (okY.hold b hb)
      · intro k' st b hb hc
        have hlb := h.rotating_live hb
        simp only [set_ne _ (hlive b hlb)]
        exact okY.free k' st b hb hc
      · exact okY.swap
      · have hf := okY.flush
        have := m.taken_gen
        generalize s.pc y = q at hf
        cases q with
        | rotate k' st b => cases k' <;> exact hf
        | readIndex fi d b =>
          obtain ⟨h1, h2, h3, h4⟩ := hf
          exact ⟨h1, h2, h3, fun _ => by simp only; omega⟩
        | waitAdding fi d =>
          obtain ⟨h1, h2, h3, -⟩ := hf
          exact ⟨h1, h2, h3, Or.inl (by simp only; omega)⟩
        | take fi d =>
          obtain ⟨h1, h2, h3, -⟩ := hf
          exact ⟨h1, h2, h3, by simp only; omega⟩
        | _ => exact hf
  case toRoles =>
    have inside : ∀ y, (set s.pc x (afterRotate k a true) y).inside = (s.pc y).inside := by
      intro y
      by_cases hy : y = x
      · subst hy; rw [set_same, hx]; cases k <;> rfl
      · rw [set_ne _ hy]
    have holds : ∀ y, (set s.pc x (afterRotate k a true) y).holds = (s.pc y).holds := by
      intro y
      by_cases hy : y = x
      · subst hy; rw [set_same, hx]; cases k <;> rfl
      · rw [set_ne _ hy]
    have critical : ∀ y, (set s.pc x (afterRotate k a true) y).critical = (s.pc y).critical := by
      intro y
      by_cases hy : y = x
      · subst hy; rw [set_same, hx]; cases k <;> rfl
      · rw [set_ne _ hy]
    constructor
    case adding => exact fun b => (h.adding b).congr fun y => by simp only [State.goto, inside]
    case lock => exact fun y hy => h.lock y (by rw [← critical]; exact hy)
    case lock_unique =>
      exact fun y z hy hz => h.lock_unique y z (by rw [← critical]; exact hy)
        (by rw [← critical]; exact hz)
    case lock_free => exact fun hn => h.lock_free fun y => by rw [← critical]; exact hn y
    case take_alone =>
      intro y fi d hy z
      simp only [State.goto] at hy ⊢
      rw [holds]
      by_cases hyx : y = x
      · subst hyx
        rw [set_same] at hy
        cases k <;> cases hy
      · rw [set_ne _ hyx] at hy
        exact h.take_alone y fi d hy z
    case sealed_active =>
      intro hs
      simp only [State.goto] at hs
      rw [hnewseal] at hs
      cases hs
  case toSlots =>
    refine h.toSlots.same (x := x) (p := afterRotate k a true) ?_ rfl rfl rfl (Nat.le_refl _) ?_
    · rw [hx]
      cases k <;> rfl
    · intro y b i hw
      exact set_ne _ (hlive b ((h.pcs y).hold b (holds_of_writing hw))) _

/-! ## The flush -/

theorem Inv.others_not_critical (h : Inv c s) {x : Nat} (hx : (s.pc x).critical = true) {y : Nat}
    (hy : y ≠ x) : (s.pc y).critical = false := by
  cases hc : (s.pc y).critical with
  | false => rfl
  | true => exact absurd (h.lock_unique y x hc hx) hy

/-- A rotation that is not the flush's own is a producer's. -/
theorem holds_of_swapping {p : Pc} {a : Nat} (h : p.swapping = some a) (hc : p.critical = false) :
    p.holds = some a := by
  cases p with
  | rotate k st b =>
    cases st with
    | swap =>
      cases h
      cases k with
      | flush fi => cases hc
      | _ => rfl
    | _ => cases h
  | _ => cases h

/-- The parts of the roles that a step of the flush itself may change. -/
theorem Roles.of_flush {t : State} {x : Nat} {p : Pc} (h : Inv c s)
    (hx : (s.pc x).critical = true) (hin : (s.pc x).inside = none) (hpin : p.inside = none)
    (hpc : t.pc = set s.pc x p) (hadding : t.adding = s.adding) (hp : p.critical = true)
    (hflush : t.flushing = true) (hph : p.holds = none)
    (htake : ∀ fi d, p = .take fi d → ∀ y, (s.pc y).holds ≠ some d)
    (hsealed : t.sealed t.activeIdx = true → ∃ y, (t.pc y).swapping = some t.activeIdx) :
    Roles c t where
  adding b := by
    rw [hadding]
    apply (h.adding b).congr
    intro y
    rw [hpc]
    by_cases hy : y = x
    · subst hy; rw [set_same, hpin, hin]
    · rw [set_ne _ hy]
  lock _ _ := hflush
  lock_unique := by
    have own : ∀ y, (t.pc y).critical = true → y = x := by
      intro y hy
      by_contra hne
      rw [hpc, set_ne _ hne, h.others_not_critical hx hne] at hy
      cases hy
    intro y z hy hz
    rw [own y hy, own z hz]
  lock_free hn := by
    have := hn x
    rw [hpc, set_same, hp] at this
    cases this
  take_alone y fi d hy z hz := by
    rw [hpc] at hy hz
    by_cases hzx : z = x
    · subst hzx
      rw [set_same, hph] at hz
      cases hz
    · rw [set_ne _ hzx] at hz
      by_cases hyx : y = x
      · subst hyx
        rw [set_same] at hy
        exact htake fi d hy z hz
      · rw [set_ne _ hyx] at hy
        exact h.take_alone y fi d hy z hz
  sealed_active := hsealed

/-- No swap was the flush's own, so its next step leaves them all. -/
theorem swapping_kept (h : Inv c s) {x : Nat} {p : Pc} (hx : (s.pc x).swapping = none)
    (hs : s.sealed s.activeIdx = true) :
    ∃ y, (set s.pc x p y).swapping = some s.activeIdx := by
  obtain ⟨y, hy⟩ := h.sealed_active hs
  refine ⟨y, ?_⟩
  have hyx : y ≠ x := by
    rintro rfl
    rw [hx] at hy
    cases hy
  rw [set_ne _ hyx]
  exact hy

/-- The batch read from the slots is the list of the calls that claimed them. -/
theorem Inv.batch_eq (h : Inv c s) {x fi d : Nat} (hx : s.pc x = .take fi d) :
    (List.range (min (s.index d) c.queueLength)).map (s.items d) =
      (s.claims s.taken).map some := by
  have m := h.memory
  have ok := (h.pcs x).flush
  rw [hx] at ok
  obtain ⟨ht, -, hd, -⟩ := ok
  have hd' : d = s.taken % c.bufferCount := by rw [ht]; exact hd
  have hlen := m.claims_length s.taken (Nat.le_refl _) m.taken_gen
  rw [← hd'] at hlen
  apply List.ext_getElem?
  intro i
  by_cases hi : i < (s.claims s.taken).length
  · have hr : (List.range (min (s.index d) c.queueLength))[i]? = some i :=
      List.getElem?_range (by omega)
    obtain ⟨y, hy⟩ : ∃ y, (s.claims s.taken)[i]? = some y := ⟨_, List.getElem?_eq_getElem hi⟩
    simp only [List.getElem?_map, hr, hy, Option.map_some, Option.some.injEq]
    rcases h.claimed _ _ _ hy with hw | ⟨a, hw, hga⟩
    · rw [hd']
      exact h.written _ i y (Nat.le_refl _) hy hw
    · have hh := holds_of_writing hw
      have hl := (h.pcs y).hold a hh
      have : a = d := by rw [hd', ← hga, hl.mod]
      subst this
      exact absurd hh (h.take_alone x fi a hx y)
  · rw [List.getElem?_eq_none (by simp; omega), List.getElem?_eq_none (by simp; omega)]

/-- The flush takes the oldest buffer and hands its batch out. -/
theorem Inv.take (h : Inv c s) {x fi d : Nat} (hx : s.pc x = .take fi d) :
    Inv c (takeStep c s x fi d) := by
  have m := h.memory
  have hcrit : (s.pc x).critical = true := by rw [hx]; rfl
  have ok := (h.pcs x).flush
  rw [hx] at ok
  obtain ⟨ht, hdrain, hd, hlt⟩ := ok
  have hd' : d = s.taken % c.bufferCount := by rw [ht]; exact hd
  have hne : ∀ g, s.taken < g → g ≤ s.gen → g % c.bufferCount ≠ d := by
    intro g hg hg' he
    rw [hd'] at he
    have hf := m.freed_le
    have := m.gen_inj (by omega) hg' m.freed_le m.taken_gen he
    omega
  simp only [takeStep, h.batch_eq hx]
  constructor
  case memory =>
    constructor <;> simp only [State.goto]
    case active => exact m.active
    case freed_le => have := m.freed_le; omega
    case taken_le => omega
    case taken_gen => omega
    case gen_lt => exact m.gen_lt
    case sealed_old => exact m.sealed_old
    case unsealed_free => exact m.unsealed_free
    case bufGen => exact m.bufGen
    case index_free =>
      intro b hb
      by_cases hbd : b = d
      · subst hbd; rw [set_same]
      · rw [set_ne _ hbd]
        refine m.index_free b fun g hg hg' => ?_
        by_cases he : g = s.taken
        · rw [he, ← hd']
          exact Ne.symm hbd
        · exact hb g (by omega) hg'
    case claims_length =>
      intro g hg hg'
      rw [set_ne _ (hne g (by omega) hg')]
      exact m.claims_length g (by omega) hg'
    case claims_future => exact m.claims_future
    case unique => exact m.unique
    case batches =>
      rw [List.range_succ, List.map_append, List.filter_append, ← m.batches]
      by_cases he : (s.claims s.taken).map some = []
      · simp [he]
      · simp [he]
  case pcs =>
    intro y
    simp only [State.goto]
    by_cases hy : y = x
    · subst hy
      rw [set_same]
      exact pcOk_of_outside rfl (by simp) ⟨by simp only; omega, hdrain, hd⟩
    · rw [set_ne _ hy]
      have okY := h.pcs y
      refine ⟨?_, okY.free, okY.swap, flushOk_of_not_critical (h.others_not_critical hcrit hy)⟩
      intro b hb
      have hl := okY.hold b hb
      have hbd : b ≠ d := by
        rintro rfl
        exact h.take_alone x fi b hx y hb
      have hbt : s.bufGen b ≠ s.taken := by
        intro he
        apply hbd
        rw [← hl.mod, he, hd']
      have := hl.taken_le
      exact ⟨by simp only; omega, hl.le_gen, hl.mod⟩
  case toRoles =>
    exact Roles.of_flush h hcrit (by rw [hx]; rfl) rfl rfl rfl rfl (h.lock x hcrit) rfl
      (by simp) (swapping_kept h (by rw [hx]; rfl))
  case toSlots =>
    exact h.toSlots.same (x := x) (p := .unsealOld fi d) (by rw [hx]; rfl) rfl rfl rfl
      (Nat.le_succ _) fun _ _ _ _ => rfl

/-- The buffer is reset for the producers. -/
theorem Inv.unseal_old (h : Inv c s) {x fi d : Nat} (hx : s.pc x = .unsealOld fi d) :
    Inv c ({ s with sealed := set s.sealed d false, freed := s.freed + 1 }.goto x
      (.advance fi d)) := by
  have m := h.memory
  have hcrit : (s.pc x).critical = true := by rw [hx]; rfl
  have ok := (h.pcs x).flush
  rw [hx] at ok
  obtain ⟨ht, hdrain, hd⟩ := ok
  have htg := m.taken_gen
  have hne : ∀ g, s.freed < g → g ≤ s.gen → g % c.bufferCount ≠ d := by
    intro g hg hg' he
    rw [hd] at he
    have := m.gen_inj (by omega) hg' (Nat.le_refl _) (by omega) he
    omega
  have hlive : ∀ b, Live c s b → b ≠ d := by
    rintro b hb rfl
    have := hb.taken_le
    exact hne _ (by omega) hb.le_gen hb.mod
  have hactive : s.activeIdx ≠ d := by
    rw [m.active]
    exact hne _ (by omega) (Nat.le_refl _)
  constructor
  case memory =>
    constructor <;> simp only [State.goto]
    case active => exact m.active
    case freed_le => omega
    case taken_le => omega
    case taken_gen => exact m.taken_gen
    case gen_lt => have := m.gen_lt; omega
    case sealed_old =>
      intro g hg hg'
      rw [set_ne _ (hne g (by omega) (by omega))]
      exact m.sealed_old g (by omega) hg'
    case unsealed_free =>
      intro b hb
      by_cases hbd : b = d
      · subst hbd; rw [set_same]
      · rw [set_ne _ hbd]
        refine m.unsealed_free b fun g hg hg' => ?_
        by_cases he : g = s.freed
        · rw [he, ← hd]
          exact Ne.symm hbd
        · exact hb g (by omega) hg'
    case bufGen => exact fun g hg hg' => m.bufGen g (by omega) hg'
    case index_free => exact m.index_free
    case claims_length => exact m.claims_length
    case claims_future => exact m.claims_future
    case unique => exact m.unique
    case batches => exact m.batches
  case pcs =>
    intro y
    simp only [State.goto]
    by_cases hy : y = x
    · subst hy
      rw [set_same]
      exact pcOk_of_outside rfl (by simp) ⟨ht, hdrain, by rw [hd, mod_succ]⟩
    · rw [set_ne _ hy]
      have okY := h.pcs y
      have hcy := h.others_not_critical hcrit hy
      refine ⟨?_, ?_, ?_, flushOk_of_not_critical hcy⟩
      · intro b hb
        have hl := okY.hold b hb
        exact ⟨hl.taken_le, hl.le_gen, hl.mod⟩
      · intro k st b hb hc
        have := okY.free k st b hb hc
        simp only
        omega
      · intro b hb
        have hl := okY.hold b (holds_of_swapping hb hcy)
        simp only [set_ne _ (hlive b hl)]
        exact okY.swap b hb
  case toRoles =>
    refine Roles.of_flush h hcrit (by rw [hx]; rfl) rfl rfl rfl rfl (h.lock x hcrit) rfl
      (by simp) ?_
    intro hs
    simp only [State.goto, set_ne _ hactive] at hs
    exact swapping_kept h (by rw [hx]; rfl) hs
  case toSlots =>
    exact h.toSlots.same (x := x) (p := .advance fi d) (by rw [hx]; rfl) rfl rfl rfl
      (Nat.le_refl _) fun _ _ _ _ => rfl

/-- The drain index follows. -/
theorem Inv.advance (h : Inv c s) {x fi d : Nat} (hx : s.pc x = .advance fi d) :
    Inv c ({ s with drainIdx := (d + 1) % c.bufferCount }.goto x (.readDrain fi)) := by
  have m := h.memory
  have hcrit : (s.pc x).critical = true := by rw [hx]; rfl
  have ok := (h.pcs x).flush
  rw [hx] at ok
  obtain ⟨ht, -, hd⟩ := ok
  constructor
  case memory =>
    exact ⟨m.active, m.freed_le, m.taken_le, m.taken_gen, m.gen_lt, m.sealed_old, m.unsealed_free,
      m.bufGen, m.index_free, m.claims_length, m.claims_future, m.unique, m.batches⟩
  case pcs =>
    intro y
    simp only [State.goto]
    by_cases hy : y = x
    · subst hy
      rw [set_same]
      exact pcOk_of_outside rfl (by simp) ⟨ht, hd⟩
    · rw [set_ne _ hy]
      have okY := h.pcs y
      refine ⟨?_, okY.free, okY.swap, flushOk_of_not_critical (h.others_not_critical hcrit hy)⟩
      intro b hb
      have hl := okY.hold b hb
      exact ⟨hl.taken_le, hl.le_gen, hl.mod⟩
  case toRoles =>
    exact Roles.of_flush h hcrit (by rw [hx]; rfl) rfl rfl rfl rfl (h.lock x hcrit) rfl
      (by simp) (swapping_kept h (by rw [hx]; rfl))
  case toSlots =>
    exact h.toSlots.same (x := x) (p := .readDrain fi) (by rw [hx]; rfl) rfl rfl rfl
      (Nat.le_refl _) fun _ _ _ _ => rfl

theorem Inv.lock_taken (h : Inv c s) {x : Nat} {crashSafe : Bool} (hx : s.pc x = .lock crashSafe)
    (hf : s.flushing = false) :
    Inv c ({ s with flushing := true }.goto x .readFlushIdx) := by
  have m := h.memory
  have nobody : ∀ y, (s.pc y).critical = false := by
    intro y
    cases hc : (s.pc y).critical with
    | false => rfl
    | true =>
      have := h.lock y hc
      rw [hf] at this
      cases this
  have own : ∀ y, (set s.pc x .readFlushIdx y).critical = true → y = x := by
    intro y hy
    by_contra hne
    rw [set_ne _ hne, nobody y] at hy
    cases hy
  constructor
  case memory =>
    exact ⟨m.active, m.freed_le, m.taken_le, m.taken_gen, m.gen_lt, m.sealed_old, m.unsealed_free,
      m.bufGen, m.index_free, m.claims_length, m.claims_future, m.unique, m.batches⟩
  case pcs =>
    intro y
    simp only [State.goto]
    by_cases hy : y = x
    · subst hy
      rw [set_same]
      exact pcOk_of_outside rfl (by simp) (h.lock_free nobody)
    · rw [set_ne _ hy]
      exact (h.pcs y).shared rfl rfl rfl rfl rfl fun _ hs => hs
  case toRoles =>
    constructor
    case adding =>
      intro b
      apply (h.adding b).congr
      intro y
      simp only [State.goto]
      by_cases hy : y = x
      · subst hy; rw [set_same, hx]; rfl
      · rw [set_ne _ hy]
    case lock => exact fun _ _ => rfl
    case lock_unique => exact fun y z hy hz => (own y hy).trans (own z hz).symm
    case lock_free =>
      intro hn
      have := hn x
      simp only [State.goto, set_same] at this
      cases this
    case take_alone =>
      intro y fi d hy
      simp only [State.goto] at hy
      have := own y (by rw [hy]; rfl)
      subst this
      rw [set_same] at hy
      cases hy
    case sealed_active => exact swapping_kept h (by rw [hx]; rfl)
  case toSlots =>
    exact h.toSlots.same (x := x) (p := .readFlushIdx) (by rw [hx]; rfl) rfl rfl rfl
      (Nat.le_refl _) fun _ _ _ _ => rfl

theorem Inv.lock_released (h : Inv c s) {x : Nat} (hx : s.pc x = .unlock) :
    Inv c ({ s with flushing := false }.goto x (.flushed true)) := by
  have m := h.memory
  have hcrit : (s.pc x).critical = true := by rw [hx]; rfl
  have nobody : ∀ y, (set s.pc x (.flushed true) y).critical = false := by
    intro y
    by_cases hy : y = x
    · subst hy; rw [set_same]; rfl
    · rw [set_ne _ hy]
      exact h.others_not_critical hcrit hy
  have ok := (h.pcs x).flush
  rw [hx] at ok
  constructor
  case memory =>
    exact ⟨m.active, m.freed_le, m.taken_le, m.taken_gen, m.gen_lt, m.sealed_old, m.unsealed_free,
      m.bufGen, m.index_free, m.claims_length, m.claims_future, m.unique, m.batches⟩
  case pcs =>
    intro y
    simp only [State.goto]
    by_cases hy : y = x
    · subst hy
      rw [set_same]
      exact pcOk_of_outside rfl (by simp) trivial
    · rw [set_ne _ hy]
      exact (h.pcs y).shared rfl rfl rfl rfl rfl fun _ hs => hs
  case toRoles =>
    constructor
    case adding =>
      intro b
      apply (h.adding b).congr
      intro y
      simp only [State.goto]
      by_cases hy : y = x
      · subst hy; rw [set_same, hx]; rfl
      · rw [set_ne _ hy]
    case lock =>
      intro y hy
      have := nobody y
      rw [State.goto] at hy
      rw [this] at hy
      cases hy
    case lock_unique =>
      intro y z hy _
      have := nobody y
      rw [State.goto] at hy
      rw [this] at hy
      cases hy
    case lock_free => exact fun _ => ok
    case take_alone =>
      intro y fi d hy
      have := nobody y
      simp only [State.goto] at hy
      rw [hy] at this
      cases this
    case sealed_active => exact swapping_kept h (by rw [hx]; rfl)
  case toSlots =>
    exact h.toSlots.same (x := x) (p := .flushed true) (by rw [hx]; rfl) rfl rfl rfl
      (Nat.le_refl _) fun _ _ _ _ => rfl

end SentryNative.Batcher
