import SentryNative.Batcher.RingRuns

/-!
# No loss, no duplication, first in first out

The items in the buffers and in the batches are the claimed slots of all
generations, each once. Batches are generations in order, and a call that
starts after another returned claims its slot behind it.
-/

namespace SentryNative.Batcher

open Machine

variable {c : Config} {s t : State}

/-! ## What is in the buffers and batches -/

theorem slotItem_claimed {b i x : Nat} (h : slotItem s b i = some x) :
    (s.claims (s.bufGen b))[i]? = some x := by
  unfold slotItem at h
  split at h
  · rename_i he
    rw [← he, h]
  · cases h

/-- A buffer with claimed slots serves a generation that was not taken. -/
theorem Inv.live_of_index (h : Inv c s) {b : Nat} (hi : s.index b ≠ 0) : Live c s b := by
  have m := h.memory
  by_contra hn
  apply hi
  apply m.index_free
  intro g hg hg' he
  apply hn
  rw [← he]
  exact m.live hg hg'

theorem Inv.contents_eq (h : Inv c s) : contents c s =
    (List.range c.bufferCount).flatMap (fun b =>
      (List.range (min (s.index b) c.queueLength)).filterMap (slotItem s b)) ++
    (List.range s.taken).flatMap s.claims := by
  have inBuffers : ∀ bs : List Nat, (bs.flatMap (held c s)).filterMap id = bs.flatMap (fun b =>
      (List.range (min (s.index b) c.queueLength)).filterMap (slotItem s b)) := by
    intro bs
    induction bs with
    | nil => rfl
    | cons b bs ih =>
      rw [List.flatMap_cons, List.filterMap_append, ih, List.flatMap_cons, held,
        List.filterMap_map]
      rfl
  have inBatches : ∀ gs : List Nat,
      ((gs.map fun g => (s.claims g).map some).flatten).filterMap id = gs.flatMap s.claims := by
    intro gs
    induction gs with
    | nil => rfl
    | cons g gs ih =>
      rw [List.map_cons, List.flatten_cons, List.filterMap_append, ih, List.flatMap_cons,
        List.filterMap_map]
      simp
  rw [contents, List.filterMap_append, inBuffers, h.memory.batches, List.flatten_filter_ne_nil,
    inBatches]

theorem Inv.claims_nodup (h : Inv c s) (g : Nat) : (s.claims g).Nodup := by
  rw [List.nodup_iff_getElem?_ne_getElem?]
  intro i j hij hj he
  have hx := List.getElem?_eq_getElem hj
  have := (h.memory.unique g i g j _ (he.trans hx) hx).2
  omega

theorem Inv.contents_nodup (h : Inv c s) : (contents c s).Nodup := by
  have m := h.memory
  have inSlot : ∀ b x, x ∈ (List.range (min (s.index b) c.queueLength)).filterMap (slotItem s b) →
      Live c s b ∧ x ∈ s.claims (s.bufGen b) := by
    intro b x hx
    obtain ⟨i, hi, hxi⟩ := List.mem_filterMap.mp hx
    have hpos : s.index b ≠ 0 := by
      have := List.mem_range.mp hi
      omega
    exact ⟨h.live_of_index hpos, List.mem_of_getElem? (slotItem_claimed hxi)⟩
  have same : ∀ g g' x, x ∈ s.claims g → x ∈ s.claims g' → g = g' := by
    intro g g' x hx hx'
    obtain ⟨i, hi⟩ := List.getElem?_of_mem hx
    obtain ⟨i', hi'⟩ := List.getElem?_of_mem hx'
    exact (m.unique g i g' i' x hi hi').1
  rw [h.contents_eq, List.nodup_append]
  refine ⟨?_, ?_, ?_⟩
  · rw [List.nodup_flatMap]
    constructor
    · intro b _
      refine List.Nodup.filterMap ?_ List.nodup_range
      intro i j x hi hj
      exact (m.unique _ _ _ _ x (slotItem_claimed hi) (slotItem_claimed hj)).2
    · refine List.nodup_range.pairwise_of_forall_ne ?_
      intro b _ b' _ hne x hx hx'
      obtain ⟨hl, hc⟩ := inSlot b x hx
      obtain ⟨hl', hc'⟩ := inSlot b' x hx'
      apply hne
      rw [← hl.mod, ← hl'.mod, same _ _ x hc hc']
  · rw [List.nodup_flatMap]
    constructor
    · exact fun g _ => h.claims_nodup g
    · refine List.nodup_range.pairwise_of_forall_ne ?_
      intro g _ g' _ hne x hx hx'
      exact hne (same g g' x hx hx')
  · intro x hx y hy hxy
    subst hxy
    obtain ⟨b, -, hb⟩ := List.mem_flatMap.mp hx
    obtain ⟨hl, hc⟩ := inSlot b x hb
    obtain ⟨g, hg, hg'⟩ := List.mem_flatMap.mp hy
    have := same _ _ x hc hg'
    have := hl.taken_le
    have := List.mem_range.mp hg
    omega

/-- An accepted item is in its slot until its generation is handed out. -/
theorem Inv.mem_contents (h : Inv c s) {x : Nat} (hx : (s.pc x).slot = .written) :
    x ∈ contents c s := by
  have m := h.memory
  obtain ⟨g, i, hi⟩ := h.placed x hx
  rw [h.contents_eq, List.mem_append]
  by_cases hg : g < s.taken
  · right
    exact List.mem_flatMap.mpr ⟨g, List.mem_range.mpr hg, List.mem_of_getElem? hi⟩
  · left
    have hgen : g ≤ s.gen := by
      by_contra hn
      rw [m.claims_future g (by omega)] at hi
      simp at hi
    have hilt : i < (s.claims g).length := (List.getElem?_eq_some_iff.mp hi).1
    rw [m.claims_length g (by omega) hgen] at hilt
    have hw := h.written g i x (by omega) hi hx
    have hb := m.bufGen g (Nat.le_trans m.freed_le (by omega)) hgen
    refine List.mem_flatMap.mpr ⟨g % c.bufferCount, ?_, ?_⟩
    · have := c.two_buffers
      exact List.mem_range.mpr (Nat.mod_lt _ (by omega))
    · refine List.mem_filterMap.mpr ⟨i, List.mem_range.mpr hilt, ?_⟩
      rw [slotItem, hb, hi, if_pos hw, hw]

theorem Inv.not_mem_contents (h : Inv c s) {x : Nat} (hx : (s.pc x).slot = .none) :
    x ∉ contents c s := by
  rw [h.contents_eq, List.mem_append]
  rintro (hm | hm)
  · obtain ⟨b, -, hb⟩ := List.mem_flatMap.mp hm
    obtain ⟨i, -, hi⟩ := List.mem_filterMap.mp hb
    exact h.not_claimed hx _ _ (slotItem_claimed hi)
  · obtain ⟨g, -, hg⟩ := List.mem_flatMap.mp hm
    obtain ⟨i, hi⟩ := List.getElem?_of_mem hg
    exact h.not_claimed hx _ _ hi

/-- A generation that was handed out was written to its last slot. -/
theorem Inv.taken_written (h : Inv c s) {g x : Nat} (hg : g < s.taken) (hx : x ∈ s.claims g) :
    (s.pc x).slot = .written := by
  obtain ⟨i, hi⟩ := List.getElem?_of_mem hx
  rcases h.claimed g i x hi with hw | ⟨a, hw, hga⟩
  · exact hw
  · have := ((h.pcs x).hold a (holds_of_writing hw)).taken_le
    omega

theorem Inv.batch_written (h : Inv c s) {batch : List (Option Nat)} (hb : batch ∈ s.batches) :
    ∃ g, batch = (s.claims g).map some ∧ ∀ x ∈ s.claims g, (s.pc x).slot = .written := by
  rw [h.memory.batches, List.mem_filter] at hb
  obtain ⟨g, hg, rfl⟩ := List.mem_map.mp hb.1
  exact ⟨g, rfl, fun x hx => h.taken_written (List.mem_range.mp hg) hx⟩

/-! ## Order -/

/-- What a step does to the claims: they grow at the end of the generation a
producer is in, and a producer comes into the generation that is active. -/
structure Grows (c : Config) (s t : State) : Prop where
  old : ∀ g i x : Nat, (s.claims g)[i]? = some x → (t.claims g)[i]? = some x
  new : ∀ g i x : Nat, (t.claims g)[i]? = some x → (s.claims g)[i]? = some x ∨
    ∃ a, (s.pc x).holds = some a ∧ g = s.bufGen a ∧ i = (s.claims g).length
  holds : ∀ x a : Nat, (t.pc x).holds = some a → (s.pc x).holds = some a ∨ a = s.activeIdx
  bufGen : ∀ a, Live c s a → t.bufGen a = s.bufGen a

theorem grows_of_move {x : Nat} {p : Pc} (hpc : t.pc = set s.pc x p) (hclaims : t.claims = s.claims)
    (hbuf : ∀ a, Live c s a → t.bufGen a = s.bufGen a)
    (hh : ∀ a, p.holds = some a → (s.pc x).holds = some a ∨ a = s.activeIdx) : Grows c s t where
  old g i y hy := by rw [hclaims]; exact hy
  new g i y hy := by rw [hclaims] at hy; exact Or.inl hy
  holds y a ha := by
    rw [hpc] at ha
    by_cases hy : y = x
    · subst hy
      rw [set_same] at ha
      exact hh a ha
    · rw [set_ne _ hy] at ha
      exact Or.inl ha
  bufGen := hbuf

theorem Inv.publish_bufGen (h : Inv c s) {x : Nat} {k : Caller} {a : Nat}
    (hx : s.pc x = .rotate k .swap a) (hactive : s.activeIdx = a) {b : Nat} (hb : Live c s b) :
    set s.bufGen ((a + 1) % c.bufferCount) (s.gen + 1) b = s.bufGen b := by
  have m := h.memory
  have hl := h.rotating_live hx
  have hgen : s.gen = s.bufGen a :=
    hl.eq_of_mod m (Nat.le_trans m.freed_le m.taken_gen) (Nat.le_refl _)
      (by rw [← m.active, hactive])
  have hroom := (h.pcs x).free k .swap a hx rfl
  apply set_ne
  intro he
  have hnext : (a + 1) % c.bufferCount = (s.gen + 1) % c.bufferCount := by
    rw [← hactive, m.active, mod_succ]
  have hf := m.freed_le
  have h1 := hb.taken_le
  have h2 := hb.le_gen
  have := eq_of_mod_eq (n := c.bufferCount) (g := s.bufGen b) (h := s.gen + 1)
    (by omega : s.freed ≤ _) (by omega) (by omega) (by omega) (by rw [hb.mod, he, hnext])
  omega

theorem Inv.grows_rotate (h : Inv c s) {x : Nat} {k : Caller} {stage : RotateStage} {a : Nat}
    (hx : s.pc x = .rotate k stage a) : Grows c s (rotateStep c s x k a stage) := by
  have stay : ∀ (st' : RotateStage) (b : Nat), (Pc.rotate k st' a).holds = some b →
      (s.pc x).holds = some b ∨ b = s.activeIdx := by
    intro st' b hb
    rw [hx, holds_rotate k stage st']
    exact Or.inl hb
  have after : ∀ (r : Bool) (b : Nat), (afterRotate k a r).holds = some b →
      (s.pc x).holds = some b ∨ b = s.activeIdx := by
    intro r b hb
    rw [hx]
    cases k with
    | last => exact Or.inl hb
    | full => exact Or.inl hb
    | flush fi => cases r <;> cases hb
  cases stage with
  | sealedNew =>
    refine grows_of_move rfl rfl (fun _ _ => rfl) ?_
    split <;> exact stay _
  | indexNew =>
    refine grows_of_move rfl rfl (fun _ _ => rfl) ?_
    split <;> exact stay _
  | addingNew =>
    refine grows_of_move rfl rfl (fun _ _ => rfl) ?_
    split <;> exact stay _
  | sealOld => exact grows_of_move rfl rfl (fun _ _ => rfl) (stay .swap)
  | swap =>
    simp only [rotateStep]
    split
    · rename_i ha
      exact grows_of_move rfl rfl (fun b hb => h.publish_bufGen hx ha hb) (after true)
    · exact grows_of_move rfl rfl (fun _ _ => rfl) (stay .failed)
  | failed => exact grows_of_move rfl rfl (fun _ _ => rfl) (after _)

theorem Inv.grows_claim (h : Inv c s) {x a : Nat} (hx : s.pc x = .claim a) :
    Grows c s (claimStep c s x a) := by
  have hh : (s.pc x).holds = some a := by rw [hx]; rfl
  unfold claimStep
  split
  · constructor
    · intro g i y hy
      simp only [State.goto]
      by_cases hg : g = s.bufGen a
      · subst hg
        rw [set_same]
        exact getElem?_append_old hy
      · rw [set_ne _ hg]
        exact hy
    · intro g i y hy
      simp only [State.goto] at hy
      by_cases hg : g = s.bufGen a
      · subst hg
        rw [set_same] at hy
        rcases getElem?_append_claim hy with hy | ⟨hi, rfl⟩
        · exact Or.inl hy
        · exact Or.inr ⟨a, hh, rfl, hi⟩
      · rw [set_ne _ hg] at hy
        exact Or.inl hy
    · intro y b hb
      simp only [State.goto] at hb
      by_cases hy : y = x
      · subst hy
        rw [set_same] at hb
        rw [hh]
        exact Or.inl hb
      · rw [set_ne _ hy] at hb
        exact Or.inl hb
    · exact fun _ _ => rfl
  · refine grows_of_move rfl rfl (fun _ _ => rfl) ?_
    intro b hb
    rw [hh]
    exact Or.inl hb

theorem Inv.grows_next (h : Inv c s) {x : Nat} (hn : Batcher.next c s x = some t) :
    Grows c s t := by
  unfold Batcher.next at hn
  cases hx : s.pc x with
  | idle => simp [hx] at hn
  | returned ok => simp [hx] at hn
  | flushed ok => simp [hx] at hn
  | recheckActive a =>
    simp only [hx, Option.some.injEq] at hn
    subst hn
    refine grows_of_move rfl rfl (fun _ _ => rfl) ?_
    intro b hb
    by_cases ha : s.activeIdx = a
    · rw [decide_eq_true ha] at hb
      cases hb
      exact Or.inr ha.symm
    · rw [decide_eq_false ha] at hb
      cases hb
  | recheckSealed a same =>
    simp only [hx, Option.some.injEq] at hn
    subst hn
    refine grows_of_move rfl rfl (fun _ _ => rfl) ?_
    intro b hb
    rw [hx]
    cases same with
    | false => cases hb
    | true =>
      rw [if_neg (by simp)] at hb
      split at hb
      · cases hb
      · exact Or.inl hb
  | claim a =>
    simp only [hx, Option.some.injEq] at hn
    subst hn
    exact h.grows_claim hx
  | write a i =>
    simp only [hx, Option.some.injEq] at hn
    subst hn
    refine grows_of_move rfl rfl (fun _ _ => rfl) ?_
    intro b hb
    rw [hx]
    split at hb
    · exact Or.inl hb
    · exact Or.inl hb
  | rotate k stage a =>
    simp only [hx, Option.some.injEq] at hn
    subst hn
    exact h.grows_rotate hx
  | lock crashSafe =>
    simp only [hx] at hn
    split at hn
    · cases hn
      exact grows_of_move rfl rfl (fun _ _ => rfl) (by simp [Pc.holds])
    · split at hn
      · cases hn
      · cases hn
        exact grows_of_move rfl rfl (fun _ _ => rfl) (by simp [Pc.holds])
  | waitAdding fi d =>
    simp only [hx] at hn
    split at hn
    · cases hn
      exact grows_of_move rfl rfl (fun _ _ => rfl) (by simp [Pc.holds])
    · cases hn
  | checkSealed a =>
    simp only [hx, Option.some.injEq] at hn
    subst hn
    refine grows_of_move rfl rfl (fun _ _ => rfl) ?_
    split <;> simp [Pc.holds]
  | exitFull a rotated =>
    simp only [hx, Option.some.injEq] at hn
    subst hn
    refine grows_of_move rfl rfl (fun _ _ => rfl) ?_
    split <;> simp [Pc.holds]
  | recheckFull a =>
    simp only [hx, Option.some.injEq] at hn
    subst hn
    refine grows_of_move rfl rfl (fun _ _ => rfl) ?_
    split <;> simp [Pc.holds]
  | readSealed fi d =>
    simp only [hx, Option.some.injEq] at hn
    subst hn
    refine grows_of_move rfl rfl (fun _ _ => rfl) ?_
    split <;> simp [Pc.holds]
  | readIndex fi d a =>
    simp only [hx, Option.some.injEq] at hn
    subst hn
    refine grows_of_move rfl rfl (fun _ _ => rfl) ?_
    split
    · simp [Pc.holds]
    · split <;> simp [Pc.holds]
  | _ =>
    simp only [hx, Option.some.injEq] at hn
    subst hn
    exact grows_of_move rfl rfl (fun _ _ => rfl) (by simp [Pc.holds])

theorem Inv.grows (h : Inv c s) (hs : Step c s t) : Grows c s t := by
  cases hs with
  | enqueue x hx => exact grows_of_move rfl rfl (fun _ _ => rfl) (by simp [Pc.holds])
  | flush x crashSafe hx => exact grows_of_move rfl rfl (fun _ _ => rfl) (by simp [Pc.holds])
  | access _ x hn => exact h.grows_next hn
  | timeout x hx _ => exact grows_of_move rfl rfl (fun _ _ => rfl) (by simp [Pc.holds])

/-- `x` has its slot, and `y` has one behind it or will claim one there. -/
def Ahead (x y : Nat) (s : State) : Prop :=
  ∃ g i : Nat, (s.claims g)[i]? = some x ∧
    (∀ a, (s.pc y).holds = some a → g ≤ s.bufGen a) ∧
    ∀ g' i' : Nat, (s.claims g')[i']? = some y → g < g' ∨ g = g' ∧ i < i'

theorem Inv.ahead_step (h : Inv c s) {x y : Nat} (ha : Ahead x y s) (hs : Step c s t) :
    Ahead x y t := by
  have m := h.memory
  have gr := h.grows hs
  obtain ⟨g, i, hx, hh, hy⟩ := ha
  have hgen : g ≤ s.gen := by
    by_contra hn
    rw [m.claims_future g (by omega)] at hx
    simp at hx
  refine ⟨g, i, gr.old g i x hx, ?_, ?_⟩
  · intro a hta
    rcases gr.holds y a hta with hold | hact
    · rw [gr.bufGen a ((h.pcs y).hold a hold)]
      exact hh a hold
    · subst hact
      rw [gr.bufGen _ h.active_live, m.active, m.bufGen s.gen (Nat.le_trans m.freed_le m.taken_gen)
        (Nat.le_refl _)]
      exact hgen
  · intro g' i' hty
    rcases gr.new g' i' y hty with hold | ⟨a, hold, rfl, rfl⟩
    · exact hy g' i' hold
    · have hle := hh a hold
      by_cases he : g = s.bufGen a
      · right
        refine ⟨he, ?_⟩
        rw [← he]
        exact (List.getElem?_eq_some_iff.mp hx).1
      · left
        omega

/-- One batch entry is before another: in an earlier batch, or further left. -/
def Before (batches : List (List (Option Nat))) (x y : Nat) : Prop :=
  ∃ k i k' j : Nat, (batches[k]?.bind (·[i]?)) = some (some x) ∧
    (batches[k']?.bind (·[j]?)) = some (some y) ∧ (k < k' ∨ k = k' ∧ i < j)

theorem Inv.before_of_ahead (h : Inv c s) {x y : Nat} (ha : Ahead x y s)
    (hy : some y ∈ s.batches.flatten) : Before s.batches x y := by
  have m := h.memory
  obtain ⟨g, i, hx, -, hord⟩ := ha
  obtain ⟨batch, hb, hmem⟩ := List.mem_flatten.mp hy
  rw [m.batches, List.mem_filter] at hb
  obtain ⟨g', hg', rfl⟩ := List.mem_map.mp hb.1
  have hlt := List.mem_range.mp hg'
  have hyc : y ∈ s.claims g' := by simpa using hmem
  obtain ⟨j, hj⟩ := List.getElem?_of_mem hyc
  have nonempty : ∀ {g i x : Nat}, (s.claims g)[i]? = some x →
      (decide ((s.claims g).map some ≠ []) = true) := by
    intro g i x he
    simp only [ne_eq, List.map_eq_nil_iff, decide_not, Bool.not_eq_eq_eq_not, Bool.not_true,
      decide_eq_false_iff_not]
    intro hn
    rw [hn] at he
    simp at he
  have entry : ∀ {g i x : Nat}, g < s.taken → (s.claims g)[i]? = some x →
      (s.batches[(kept (fun g => (s.claims g).map some) (· ≠ []) g).length]?.bind (·[i]?)) =
        some (some x) := by
    intro g i x hg he
    have := getElem?_kept (f := fun g => (s.claims g).map some) (p := (· ≠ [])) hg (nonempty he)
    rw [← m.batches.trans (show _ = kept _ _ _ from rfl)] at this
    rw [this]
    simp [he]
  have hle : g ≤ g' := by
    rcases hord g' j hj with hl | ⟨he, -⟩ <;> omega
  refine ⟨_, i, _, j, entry (by omega) hx, entry hlt hj, ?_⟩
  rcases hord g' j hj with hl | ⟨rfl, hij⟩
  · exact Or.inl (length_kept_lt hl (nonempty hx))
  · exact Or.inr ⟨rfl, hij⟩

/-- **The ring loses nothing, doubles nothing and keeps the order.** In every
reachable state an accepted item occurs exactly once in the buffers and the
batches, a refused one nowhere; a batch is the list of the calls that claimed
its slots, all of which have written them; and a call that returned before
another began is ahead of it. -/
theorem batcher_exactly_once_fifo (c : Config) {s : State} (h : Reachable c s) :
    (∀ x, s.pc x = .returned true → (contents c s).count x = 1) ∧
    (∀ x, s.pc x = .returned false → (contents c s).count x = 0) ∧
    (∀ batch ∈ s.batches, ∃ g, batch = (s.claims g).map some ∧
      ∀ x ∈ s.claims g, (s.pc x).slot = .written) ∧
    ∀ s₀, Reachable c s₀ → Relation.ReflTransGen (Step c) s₀ s → ∀ x y,
      s₀.pc x = .returned true → s₀.pc y = .idle → some y ∈ s.batches.flatten →
        Before s.batches x y := by
  have inv := h.inv
  refine ⟨?_, ?_, ?_, ?_⟩
  · intro x hx
    exact List.count_eq_one_of_mem inv.contents_nodup (inv.mem_contents (by rw [hx]; rfl))
  · intro x hx
    exact List.count_eq_zero_of_not_mem (inv.not_mem_contents (by rw [hx]; rfl))
  · exact fun batch hb => inv.batch_written hb
  · intro s₀ h₀ run x y hx hy hmem
    have start : Ahead x y s₀ := by
      obtain ⟨g, i, hi⟩ := h₀.inv.placed x (by rw [hx]; rfl)
      refine ⟨g, i, hi, ?_, ?_⟩
      · rw [hy]
        intro a ha
        cases ha
      · intro g' i' hi'
        exact absurd hi' (h₀.inv.not_claimed (by rw [hy]; rfl) g' i')
    have ahead := Machine.Reachable.run_invariant
      (fun _ _ hr ha hs => (Reachable.inv hr).ahead_step ha hs) h₀ run start
    exact inv.before_of_ahead ahead hmem

/-- The calls make their next accesses in the given order. -/
def drive (c : Config) (s : State) (calls : List Nat) : State :=
  calls.foldl (fun s x => (next c s x).getD s) s

theorem Reachable.drive (h : Reachable c s) (calls : List Nat) :
    Reachable c (drive c s calls) := by
  induction calls generalizing s with
  | nil => exact h
  | cons x calls ih =>
    apply ih
    cases hn : next c s x with
    | none =>
      simp only [hn, Option.getD_none]
      exact h
    | some t =>
      simp only [hn, Option.getD_some]
      exact .next h (.access s t x hn)

def twoByTwo : Config := ⟨2, 2, by decide, by decide⟩

/-- One item is enqueued by call 0 and then flushed by call 1. -/
def flushedOnce : State :=
  drive twoByTwo ((drive twoByTwo (State.zero.goto 0 .load) (List.replicate 8 0)).goto 1
    (.lock false)) (List.replicate 13 1)

theorem batcher_exactly_once_fifo_flushed :
    flushedOnce.pc 0 = .returned true ∧ (contents twoByTwo flushedOnce).count 0 = 1 ∧
      flushedOnce.batches = [[some 0]] := by
  have enqueued : Reachable twoByTwo
      (drive twoByTwo (State.zero.goto 0 .load) (List.replicate 8 0)) :=
    Reachable.drive (.next (.start rfl) (.enqueue _ 0 rfl)) _
  have flushed : Reachable twoByTwo flushedOnce :=
    Reachable.drive (.next enqueued (.flush _ 1 false rfl)) _
  exact ⟨rfl, (batcher_exactly_once_fifo twoByTwo flushed).1 0 rfl, rfl⟩

end SentryNative.Batcher
