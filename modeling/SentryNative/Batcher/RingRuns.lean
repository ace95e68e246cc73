import SentryNative.Batcher.RingSteps

/-!
# Runs of the ring

Every reachable state satisfies the invariant; from it follow that no item is
lost or doubled, that a batch holds only written slots, and the order of items.
-/

namespace SentryNative.Batcher

open Machine

variable {c : Config} {s t : State}

/-! ## One step -/

theorem Inv.goto_same (h : Inv c s) {x : Nat} {p : Pc} (hp : PcOk c s p)
    (r : SameRole (s.pc x) p) (hslot : p.slot = (s.pc x).slot) : Inv c (s.goto x p) := by
  refine h.goto x p hp r.inside r.critical ?_ ?_ ?_ hslot
  · intro hs
    rw [r.swapping]
    exact hs
  · intro fi d hd
    exact absurd hd (r.take fi d)
  · intro d hd
    left
    rw [← r.holds]
    exact hd

/-- A call outside every buffer moves on outside. -/
theorem Inv.goto_outside (h : Inv c s) {x : Nat} {q p : Pc} (hx : s.pc x = q)
    (hp : FlushOk c s p) (hr : ∀ k st a, p ≠ .rotate k st a) (r : SameRole q p)
    (hh : p.holds = none) (hslot : p.slot = q.slot) : Inv c (s.goto x p) := by
  subst hx
  exact h.goto_same (pcOk_of_outside hh hr hp) r hslot

theorem Inv.active_live (h : Inv c s) : Live c s s.activeIdx := by
  rw [h.memory.active]
  exact h.memory.live h.memory.taken_gen (Nat.le_refl _)

/-- The flush never takes the active buffer. -/
theorem Inv.active_not_taken (h : Inv c s) (y fi : Nat) : s.pc y ≠ .take fi s.activeIdx := by
  intro hy
  have m := h.memory
  have ok := (h.pcs y).flush
  rw [hy] at ok
  obtain ⟨ht, -, hd, hlt⟩ := ok
  rw [m.active] at hd
  have := m.gen_inj (Nat.le_trans m.freed_le m.taken_gen) (Nat.le_refl _) (Nat.le_refl _)
    (by omega) hd
  omega

theorem Inv.recheck_active (h : Inv c s) {x a : Nat} (hx : s.pc x = .recheckActive a) :
    Inv c (s.goto x (.recheckSealed a (decide (s.activeIdx = a)))) := by
  by_cases ha : s.activeIdx = a
  · rw [decide_eq_true ha]
    have hl : Live c s a := ha ▸ h.active_live
    refine h.goto x _ (pcOk_of_live rfl hl (by simp) trivial) (by rw [hx]; rfl) (by rw [hx]; rfl)
      (by rw [hx]; simp [Pc.swapping]) (by simp) ?_ (by rw [hx]; rfl)
    intro d hd
    right
    have : a = d := by simpa [Pc.holds] using hd
    rw [← this, ← ha]
    exact h.active_not_taken
  · rw [decide_eq_false ha]
    exact h.goto_outside hx trivial (by simp) ⟨rfl, rfl, rfl, rfl, by simp⟩ rfl rfl

theorem Inv.recheck_sealed (h : Inv c s) {x a : Nat} {same : Bool}
    (hx : s.pc x = .recheckSealed a same) :
    Inv c (s.goto x (if same = false then .leave a else if s.sealed a then .leave a
      else .claim a)) := by
  have leave : Inv c (s.goto x (.leave a)) := by
    refine h.goto x _ (pcOk_of_outside rfl (by simp) trivial) (by rw [hx]; rfl) (by rw [hx]; rfl)
      (by rw [hx]; simp [Pc.swapping]) (by simp) (by simp [Pc.holds]) (by rw [hx]; rfl)
  cases same with
  | false => exact leave
  | true =>
    rw [if_neg (by simp)]
    split
    · exact leave
    · have hl : Live c s a := by
        have := (h.pcs x).hold a
        rw [hx] at this
        exact this rfl
      refine h.goto_same (pcOk_of_live rfl hl (by simp) trivial) ?_ (by rw [hx]; rfl)
      rw [hx]
      exact ⟨rfl, rfl, rfl, rfl, by simp⟩

/-- A producer leaves its buffer. -/
theorem Inv.exit (h : Inv c s) {x a : Nat} {p : Pc} (hin : (s.pc x).inside = some a)
    (hcrit : (s.pc x).critical = false) (hswap : (s.pc x).swapping = none) (hp : PcOk c s p)
    (hpin : p.inside = none) (hpc : p.critical = false) (hph : p.holds = none)
    (hpt : ∀ fi d, p ≠ .take fi d) (hslot : p.slot = (s.pc x).slot) :
    Inv c ({ s with adding := set s.adding a (s.adding a - 1) }.goto x p) := by
  refine h.move x p _ hp (counted_leave h hin hpin) (by rw [hpc, hcrit]) ?_ ?_ ?_ hslot
  · rw [hswap]; simp
  · intro fi d hd; exact absurd hd (hpt fi d)
  · rw [hph]; simp

theorem Inv.write (h : Inv c s) {x a i : Nat} (hx : s.pc x = .write a i) :
    Inv c ({ s with items := set s.items a (set (s.items a) i (some x)) }.goto x
      (if i = c.queueLength - 1 then .rotate .last .sealedNew a else .exitTrue a)) := by
  have hl : Live c s a := by
    have := (h.pcs x).hold a
    rw [hx] at this
    exact this rfl
  split
  · refine h.write_slot hx (by rw [hx]; exact ⟨rfl, rfl, rfl, rfl, by simp⟩) ⟨?_, ?_, ?_, trivial⟩
      rfl
    · intro b hb
      have : a = b := by simpa [Pc.holds] using hb
      exact this ▸ hl
    · intro k st b hb hc
      cases hb
      cases hc
    · intro b hb
      cases hb
  · exact h.write_slot hx (by rw [hx]; exact ⟨rfl, rfl, rfl, rfl, by simp⟩)
      (pcOk_of_live rfl hl (by simp) trivial) rfl

/-- A rotation that did not publish returns whether somebody else did. -/
theorem Inv.rotate_failed (h : Inv c s) {x : Nat} {k : Caller} {a : Nat}
    (hx : s.pc x = .rotate k .failed a) :
    Inv c (s.goto x (afterRotate k a (decide (s.activeIdx ≠ a)))) := by
  have m := h.memory
  have hl := h.rotating_live hx
  cases k with
  | last =>
    refine h.goto_same (pcOk_of_live rfl hl (by simp [afterRotate]) trivial) ?_ (by rw [hx]; rfl)
    rw [hx]
    exact ⟨rfl, rfl, rfl, rfl, by simp [afterRotate]⟩
  | full =>
    refine h.goto_same (pcOk_of_live rfl hl (by simp [afterRotate]) trivial) ?_ (by rw [hx]; rfl)
    rw [hx]
    exact ⟨rfl, rfl, rfl, rfl, by simp [afterRotate]⟩
  | flush fi =>
    have ok := (h.pcs x).flush
    rw [hx] at ok
    obtain ⟨ht, hdrain, hd⟩ := ok
    by_cases ha : s.activeIdx = a
    · rw [decide_eq_false (by simpa using ha)]
      exact h.goto_outside hx ⟨ht, hdrain.trans hd⟩ (by simp [afterRotate])
        ⟨rfl, rfl, rfl, rfl, by simp [afterRotate]⟩ rfl rfl
    · rw [decide_eq_true ha]
      have hlt : s.taken < s.gen := by
        have := m.taken_gen
        by_contra hn
        apply ha
        rw [m.active, hd, ← ht, show s.gen = s.taken by omega]
      exact h.goto_outside hx ⟨ht, hdrain, hd, Or.inl hlt⟩ (by simp [afterRotate])
        ⟨rfl, rfl, rfl, rfl, by simp [afterRotate]⟩ rfl rfl

theorem Inv.rotate (h : Inv c s) {x : Nat} {k : Caller} {stage : RotateStage} {a : Nat}
    (hx : s.pc x = .rotate k stage a) : Inv c (rotateStep c s x k a stage) := by
  have free : stage.checked = true → s.bufGen a + 1 < s.freed + c.bufferCount :=
    (h.pcs x).free k stage a hx
  cases stage with
  | sealedNew =>
    simp only [rotateStep]
    cases hs : s.sealed ((a + 1) % c.bufferCount) with
    | true => exact h.rotate_goto hx (by simp [RotateStage.checked]) (by simp) (by simp)
    | false => exact h.rotate_goto hx (fun _ => h.room (h.rotating_live hx) hs) (by simp) (by simp)
  | indexNew =>
    simp only [rotateStep]
    split
    · exact h.rotate_goto hx (by simp [RotateStage.checked]) (by simp) (by simp)
    · exact h.rotate_goto hx (fun _ => free rfl) (by simp) (by simp)
  | addingNew =>
    simp only [rotateStep]
    split
    · exact h.rotate_goto hx (by simp [RotateStage.checked]) (by simp) (by simp)
    · exact h.rotate_goto hx (fun _ => free rfl) (by simp) (by simp)
  | sealOld => exact h.seal_old hx
  | swap =>
    simp only [rotateStep]
    split
    · rename_i ha
      exact h.publish hx ha
    · rename_i ha
      exact h.rotate_goto hx (by simp [RotateStage.checked]) (by simp) fun _ => ha
  | failed => exact h.rotate_failed hx

/-- The flush decides whether the oldest buffer is to be drained. -/
theorem Inv.read_index (h : Inv c s) {x fi d a : Nat} (hx : s.pc x = .readIndex fi d a) :
    Inv c (s.goto x
      (if a = d ∧ (s.index d = 0 ∨ d ≠ fi ∧ s.index d < c.queueLength) then .unlock
        else if a = d then .rotate (.flush fi) .sealedNew a
        else .waitAdding fi d)) := by
  have ok := (h.pcs x).flush
  rw [hx] at ok
  obtain ⟨ht, hdrain, hd, hlt⟩ := ok
  split
  · exact h.goto_outside hx ⟨ht, hdrain.trans hd⟩ (by simp) ⟨rfl, rfl, rfl, rfl, by simp⟩ rfl rfl
  · split
    · rename_i ha
      subst ha
      refine h.goto_same ⟨?_, ?_, ?_, ⟨ht, hdrain, hd⟩⟩ ?_ (by rw [hx]; rfl)
      · intro b hb; cases hb
      · intro k st b hb hc
        cases hb
        cases hc
      · intro b hb; cases hb
      · rw [hx]
        exact ⟨rfl, rfl, rfl, rfl, by simp⟩
    · rename_i ha
      exact h.goto_outside hx ⟨ht, hdrain, hd, Or.inl (hlt ha)⟩ (by simp)
        ⟨rfl, rfl, rfl, rfl, by simp⟩ rfl rfl

/-- With nobody left inside, the buffer is the flush's alone. -/
theorem Inv.wait_done (h : Inv c s) {x fi d : Nat} (hx : s.pc x = .waitAdding fi d)
    (hz : s.adding d = 0) : Inv c (s.goto x (.take fi d)) := by
  have m := h.memory
  have ok := (h.pcs x).flush
  rw [hx] at ok
  obtain ⟨ht, hdrain, hd, hsealed⟩ := ok
  have empty : ∀ y, (s.pc y).inside ≠ some d := by
    intro y
    have := h.adding d
    rw [hz] at this
    exact this.none y
  have inside_of_holds : ∀ p : Pc, p.holds = some d → p.inside = some d := by
    intro p hp
    cases p with
    | recheckSealed a same => cases same <;> simp_all [Pc.holds, Pc.inside]
    | rotate k st a => cases k <;> simp_all [Pc.holds, Pc.inside]
    | _ => simp_all [Pc.holds, Pc.inside]
  have alone : ∀ y, (s.pc y).holds ≠ some d := fun y hy => empty y (inside_of_holds _ hy)
  have hlt : s.taken < s.gen := by
    rcases hsealed with hlt | hs
    · exact hlt
    · by_contra hn
      have hgen : s.gen = s.taken := by
        have := m.taken_gen
        omega
      have hactive : s.activeIdx = d := by rw [m.active, hgen, ht, hd]
      rw [← hactive] at hs
      obtain ⟨y, hy⟩ := h.sealed_active hs
      rw [hactive] at hy
      by_cases hyx : y = x
      · subst hyx
        rw [hx] at hy
        cases hy
      · have hcy := h.others_not_critical (x := x) (by rw [hx]; rfl) hyx
        exact alone y (holds_of_swapping hy hcy)
  refine h.goto x _ (pcOk_of_outside rfl (by simp) ⟨ht, hdrain, hd, hlt⟩) (by rw [hx]; rfl)
    (by rw [hx]; rfl) (by rw [hx]; simp [Pc.swapping]) ?_ (by simp [Pc.holds]) (by rw [hx]; rfl)
  intro fi' d' he
  cases he
  exact alone

theorem Inv.next (h : Inv c s) {x : Nat} (hn : next c s x = some t) : Inv c t := by
  unfold Batcher.next at hn
  have m := h.memory
  cases hx : s.pc x with
  | idle => simp [hx] at hn
  | returned ok => simp [hx] at hn
  | flushed ok => simp [hx] at hn
  | load =>
    simp only [hx, Option.some.injEq] at hn
    subst hn
    exact h.goto_outside hx trivial (by simp) ⟨rfl, rfl, rfl, rfl, by simp⟩ rfl rfl
  | checkSealed a =>
    simp only [hx, Option.some.injEq] at hn
    subst hn
    split
    · exact h.goto_outside hx trivial (by simp) ⟨rfl, rfl, rfl, rfl, by simp⟩ rfl rfl
    · exact h.goto_outside hx trivial (by simp) ⟨rfl, rfl, rfl, rfl, by simp⟩ rfl rfl
  | enter a =>
    simp only [hx, Option.some.injEq] at hn
    subst hn
    exact h.move x _ _ (pcOk_of_outside rfl (by simp) trivial)
      (counted_enter h (by rw [hx]; rfl) rfl) (by rw [hx]; rfl) (by rw [hx]; simp [Pc.swapping])
      (by simp) (by simp [Pc.holds]) (by rw [hx]; rfl)
  | recheckActive a =>
    simp only [hx, Option.some.injEq] at hn
    subst hn
    exact h.recheck_active hx
  | recheckSealed a same =>
    simp only [hx, Option.some.injEq] at hn
    subst hn
    exact h.recheck_sealed hx
  | leave a =>
    simp only [hx, Option.some.injEq] at hn
    subst hn
    exact h.exit (by rw [hx]; rfl) (by rw [hx]; rfl) (by rw [hx]; rfl)
      (pcOk_of_outside rfl (by simp) trivial) rfl rfl rfl (by simp) (by rw [hx]; rfl)
  | claim a =>
    simp only [hx, Option.some.injEq] at hn
    subst hn
    unfold claimStep
    split
    · rename_i hi
      exact h.claim_slot hx hi
    · rename_i hi
      exact h.claim_full hx hi
  | write a i =>
    simp only [hx, Option.some.injEq] at hn
    subst hn
    exact h.write hx
  | exitTrue a =>
    simp only [hx, Option.some.injEq] at hn
    subst hn
    exact h.exit (by rw [hx]; rfl) (by rw [hx]; rfl) (by rw [hx]; rfl)
      (pcOk_of_outside rfl (by simp) trivial) rfl rfl rfl (by simp) (by rw [hx]; rfl)
  | exitFull a rotated =>
    simp only [hx, Option.some.injEq] at hn
    subst hn
    cases rotated with
    | true =>
      exact h.exit (by rw [hx]; rfl) (by rw [hx]; rfl) (by rw [hx]; rfl)
        (pcOk_of_outside rfl (by simp) trivial) rfl rfl rfl (by simp) (by rw [hx]; rfl)
    | false =>
      exact h.exit (by rw [hx]; rfl) (by rw [hx]; rfl) (by rw [hx]; rfl)
        (pcOk_of_outside rfl (by simp) trivial) rfl rfl rfl (by simp) (by rw [hx]; rfl)
  | recheckFull a =>
    simp only [hx, Option.some.injEq] at hn
    subst hn
    split
    · exact h.goto_outside hx trivial (by simp) ⟨rfl, rfl, rfl, rfl, by simp⟩ rfl rfl
    · exact h.goto_outside hx trivial (by simp) ⟨rfl, rfl, rfl, rfl, by simp⟩ rfl rfl
  | rotate k stage a =>
    simp only [hx, Option.some.injEq] at hn
    subst hn
    exact h.rotate hx
  | lock crashSafe =>
    simp only [hx] at hn
    split at hn
    · rename_i hf
      cases hn
      exact h.lock_taken hx hf
    · split at hn
      · cases hn
      · cases hn
        exact h.goto_outside hx trivial (by simp) ⟨rfl, rfl, rfl, rfl, by simp⟩ rfl rfl
  | readFlushIdx =>
    simp only [hx, Option.some.injEq] at hn
    subst hn
    have ok := (h.pcs x).flush
    rw [hx] at ok
    exact h.goto_outside hx ok (by simp) ⟨rfl, rfl, rfl, rfl, by simp⟩ rfl rfl
  | readDrain fi =>
    simp only [hx, Option.some.injEq] at hn
    subst hn
    have ok := (h.pcs x).flush
    rw [hx] at ok
    exact h.goto_outside hx ⟨ok.1, rfl, ok.2⟩ (by simp) ⟨rfl, rfl, rfl, rfl, by simp⟩ rfl rfl
  | readSealed fi d =>
    simp only [hx, Option.some.injEq] at hn
    subst hn
    have ok := (h.pcs x).flush
    rw [hx] at ok
    split
    · rename_i hs
      exact h.goto_outside hx ⟨ok.1, ok.2.1, ok.2.2, Or.inr hs⟩ (by simp)
        ⟨rfl, rfl, rfl, rfl, by simp⟩ rfl rfl
    · exact h.goto_outside hx ok (by simp) ⟨rfl, rfl, rfl, rfl, by simp⟩ rfl rfl
  | readActive fi d =>
    simp only [hx, Option.some.injEq] at hn
    subst hn
    have ok := (h.pcs x).flush
    rw [hx] at ok
    obtain ⟨ht, hdrain, hd⟩ := ok
    refine h.goto_outside hx ⟨ht, hdrain, hd, ?_⟩ (by simp) ⟨rfl, rfl, rfl, rfl, by simp⟩ rfl rfl
    intro ha
    have := m.taken_gen
    by_contra hn
    apply ha
    rw [m.active, hd, ← ht, show s.gen = s.taken by omega]
  | readIndex fi d a =>
    simp only [hx, Option.some.injEq] at hn
    subst hn
    exact h.read_index hx
  | waitAdding fi d =>
    simp only [hx] at hn
    split at hn
    · rename_i hz
      cases hn
      exact h.wait_done hx hz
    · cases hn
  | take fi d =>
    simp only [hx, Option.some.injEq] at hn
    subst hn
    exact h.take hx
  | unsealOld fi d =>
    simp only [hx, Option.some.injEq] at hn
    subst hn
    exact h.unseal_old hx
  | advance fi d =>
    simp only [hx, Option.some.injEq] at hn
    subst hn
    exact h.advance hx
  | unlock =>
    simp only [hx, Option.some.injEq] at hn
    subst hn
    exact h.lock_released hx

theorem Inv.step (h : Inv c s) (hs : Step c s t) : Inv c t := by
  cases hs with
  | enqueue x hx =>
    exact h.goto_outside hx trivial (by simp) ⟨rfl, rfl, rfl, rfl, by simp⟩ rfl rfl
  | flush x crashSafe hx =>
    exact h.goto_outside hx trivial (by simp) ⟨rfl, rfl, rfl, rfl, by simp⟩ rfl rfl
  | access _ x hn => exact h.next hn
  | timeout x hx _ =>
    exact h.goto_outside hx trivial (by simp) ⟨rfl, rfl, rfl, rfl, by simp⟩ rfl rfl

theorem Reachable.inv (h : Reachable c s) : Inv c s :=
  Machine.Reachable.invariant (by rintro s rfl; exact inv_zero) (fun _ _ hi hs => hi.step hs) h

end SentryNative.Batcher
