import SentryNative.Sessions.LifeRuns

/-!
# What becomes of the updates

An update is made into an envelope, and the thread that holds the envelope submits it or throws it away.

* `Accounted.live`: a step makes an update, passes it on, or leaves all of them alone;
* `updates_accounted`: every update is held by one thread, submitted once, or thrown away once.
-/

namespace SentryNative.Sessions

open Machine

variable {n : Nat} {fl : Floats} {w w' : World n}

/-- The update in the envelope of a thread. -/
def Pc.held : Pc → Option Nat
  | .sending update _ | .rolling update => update
  | _ => none

/-- Updates that were submitted or thrown away. -/
def History.settled (h : History) : List Nat := h.submitted ++ h.dropped

structure Accounted (w : World n) : Prop where
  all : ∀ i, i < w.history.updates.length ↔ (∃ p, (w.threads p).held = some i) ∨ i ∈ w.history.settled
  once : ∀ p q i, (w.threads p).held = some i → (w.threads q).held = some i → p = q
  apart : ∀ p i, (w.threads p).held = some i → i ∉ w.history.settled
  nodup : w.history.settled.Nodup

/-- Nothing that the ledger looks at has changed. -/
theorem Accounted.frame (h : Accounted w) (ht : ∀ p, (w'.threads p).held = (w.threads p).held)
    (hu : w'.history.updates.length = w.history.updates.length) (hs : w'.history.settled = w.history.settled) :
    Accounted w' where
  all i := by simp only [hu, hs, ht, h.all]
  once p q i hp hq := h.once p q i (ht p ▸ hp) (ht q ▸ hq)
  apart p i hp := hs ▸ h.apart p i (ht p ▸ hp)
  nodup := hs ▸ h.nodup

theorem held_at {p : Fin n} {pc : Pc} (q : Fin n) :
    ((w.at p pc).threads q).held = if q = p then pc.held else (w.threads q).held := by
  by_cases hq : q = p
  · subst hq
    simp [World.at]
  · simp [World.at, Function.update_of_ne hq, hq]

theorem Accounted.at (h : Accounted w) (p : Fin n) {pc : Pc} (hpc : pc.held = (w.threads p).held) :
    Accounted (w.at p pc) := by
  refine h.frame (fun q => ?_) rfl rfl
  rw [held_at]
  split
  · rename_i hq
    rw [hpc, hq]
  · rfl

/-- A thread without an envelope gets one with a new update. -/
theorem Accounted.make (h : Accounted w) {p : Fin n} (hp : (w.threads p).held = none) {pc : Pc}
    (hpc : pc.held = some w.history.updates.length) (ht : w'.threads = w.threads)
    (hu : w'.history.updates.length = w.history.updates.length + 1) (hs : w'.history.settled = w.history.settled) :
    Accounted (w'.at p pc) := by
  have hsettled : (w'.at p pc).history.settled = w.history.settled := hs
  have hheld : ∀ q i, ((w'.at p pc).threads q).held = some i →
      q = p ∧ i = w.history.updates.length ∨ q ≠ p ∧ (w.threads q).held = some i := by
    intro q i hq
    rw [held_at, ht] at hq
    split at hq
    · rename_i heq
      exact .inl ⟨heq, Option.some.inj (hq.symm.trans hpc)⟩
    · rename_i hne
      exact .inr ⟨hne, hq⟩
  have hlt : ∀ q i, (w.threads q).held = some i → i < w.history.updates.length :=
    fun q i hq => (h.all i).mpr (.inl ⟨q, hq⟩)
  refine ⟨fun i => ?_, ?_, ?_, hsettled ▸ h.nodup⟩
  · have hlen : (w'.at p pc).history.updates.length = w.history.updates.length + 1 := hu
    rw [hlen, hsettled]
    constructor
    · intro hi
      rcases Nat.lt_succ_iff_lt_or_eq.mp hi with hi | rfl
      · rcases (h.all i).mp hi with ⟨q, hq⟩ | hi
        · refine .inl ⟨q, ?_⟩
          have hne : q ≠ p := by rintro rfl; rw [hp] at hq; cases hq
          rw [held_at, if_neg hne, ht]
          exact hq
        · exact .inr hi
      · exact .inl ⟨p, by rw [held_at, if_pos rfl, hpc]⟩
    · rintro (⟨q, hq⟩ | hi)
      · rcases hheld q i hq with ⟨-, rfl⟩ | ⟨-, hq⟩
        · exact Nat.lt_succ_self _
        · exact Nat.lt_succ_of_lt (hlt q i hq)
      · exact Nat.lt_succ_of_lt ((h.all i).mpr (.inr hi))
  · intro q r i hq hr
    rcases hheld q i hq with ⟨rfl, rfl⟩ | ⟨-, hold⟩ <;> rcases hheld r _ hr with ⟨rfl, heq⟩ | ⟨-, hold'⟩
    · rfl
    · exact absurd (hlt r _ hold') (Nat.lt_irrefl _)
    · exact absurd (hlt q i hold) (heq ▸ Nat.lt_irrefl _)
    · exact h.once q r i hold hold'
  · intro q i hq
    rw [hsettled]
    rcases hheld q i hq with ⟨-, rfl⟩ | ⟨-, hq⟩
    · exact fun hi => Nat.lt_irrefl _ ((h.all _).mpr (.inr hi))
    · exact h.apart q i hq

/-- A thread gives its envelope away. -/
theorem Accounted.settle (h : Accounted w) {p : Fin n} {u : Option Nat} (hp : (w.threads p).held = u) {pc : Pc}
    (hpc : pc.held = none) (ht : w'.threads = w.threads) (hu : w'.history.updates = w.history.updates)
    (hs : w'.history.settled.Perm (u.toList ++ w.history.settled)) : Accounted (w'.at p pc) := by
  have hmem : ∀ i, i ∈ (w'.at p pc).history.settled ↔ u = some i ∨ i ∈ w.history.settled := by
    intro i
    have : (w'.at p pc).history.settled = w'.history.settled := rfl
    rw [this, hs.mem_iff, List.mem_append, Option.mem_toList]
  have hheld : ∀ q i, ((w'.at p pc).threads q).held = some i ↔ q ≠ p ∧ (w.threads q).held = some i := by
    intro q i
    rw [held_at, ht]
    split
    · rename_i hq
      simp [hpc, hq]
    · rename_i hq
      simp [hq]
  refine ⟨fun i => ?_, ?_, ?_, ?_⟩
  · have hlen : (w'.at p pc).history.updates = w.history.updates := hu
    rw [hlen, h.all, hmem]
    constructor
    · rintro (⟨q, hq⟩ | hi)
      · by_cases hqp : q = p
        · exact .inr (.inl (hp.symm.trans (hqp ▸ hq)))
        · exact .inl ⟨q, (hheld q i).mpr ⟨hqp, hq⟩⟩
      · exact .inr (.inr hi)
    · rintro (⟨q, hq⟩ | rfl | hi)
      · exact .inl ⟨q, ((hheld q i).mp hq).2⟩
      · exact .inl ⟨p, hp⟩
      · exact .inr hi
  · exact fun q r i hq hr => h.once q r i ((hheld q i).mp hq).2 ((hheld r i).mp hr).2
  · intro q i hq
    obtain ⟨hne, hq⟩ := (hheld q i).mp hq
    rw [hmem]
    rintro (rfl | hi)
    · exact hne (h.once q p i hq hp)
    · exact h.apart q i hq hi
  · refine hs.nodup_iff.mpr (List.nodup_append.mpr ⟨by cases u <;> simp, h.nodup, ?_⟩)
    intro i hi j hj heq
    subst heq
    cases u with
    | none => simp at hi
    | some k =>
      rw [Option.toList_some, List.mem_singleton] at hi
      subst hi
      exact h.apart p i hp hj

/-- An update that is made and submitted in one go. -/
theorem Accounted.pass (h : Accounted w) (ht : w'.threads = w.threads)
    (hu : w'.history.updates.length = w.history.updates.length + 1)
    (hs : w'.history.settled.Perm (w.history.updates.length :: w.history.settled)) : Accounted w' := by
  have hlt : ∀ i, i ∈ w.history.settled → i < w.history.updates.length := fun i hi => (h.all i).mpr (.inr hi)
  refine ⟨fun i => ?_, ?_, ?_, ?_⟩
  · rw [hu, hs.mem_iff, List.mem_cons, Nat.lt_succ_iff_lt_or_eq, h.all, ht]
    tauto
  · rw [ht]
    exact h.once
  · intro p i hp
    rw [ht] at hp
    rw [hs.mem_iff, List.mem_cons, not_or]
    exact ⟨fun heq => Nat.lt_irrefl i (heq ▸ (h.all i).mpr (.inl ⟨p, hp⟩)), h.apart p i hp⟩
  · rw [hs.nodup_iff, List.nodup_cons]
    exact ⟨fun hi => Nat.lt_irrefl _ (hlt _ hi), h.nodup⟩

theorem settled_submit (u : Option Nat) :
    (w.submit u).history.settled.Perm (u.toList ++ w.history.settled) := by
  change (w.history.submitted ++ u.toList ++ w.history.dropped).Perm _
  rw [List.append_assoc]
  exact List.perm_append_comm_assoc _ _ _

theorem settled_drop (u : Option Nat) : (w.drop u).history.settled.Perm (u.toList ++ w.history.settled) := by
  change (w.history.submitted ++ (w.history.dropped ++ u.toList)).Perm _
  rw [← List.append_assoc]
  exact List.perm_append_comm

theorem Accounted.submitOrDrop (h : Accounted w) {p : Fin n} {u : Option Nat} (hp : (w.threads p).held = u) {pc : Pc}
    (hpc : pc.held = none) (kept : Bool) : Accounted ((if kept then w.submit u else w.drop u).at p pc) := by
  cases kept with
  | false => exact h.settle hp hpc rfl rfl (settled_drop u)
  | true => exact h.settle hp hpc rfl rfl (settled_submit u)

theorem threads_endInternal (removed : Bool) : (w.endInternal removed).threads = w.threads := by
  unfold World.endInternal
  split <;> rfl

theorem Accounted.endInternal (h : Accounted w) (removed : Bool) : Accounted (w.endInternal removed) :=
  h.frame (fun _ => by rw [threads_endInternal]) (by rw [history_endInternal]) (by rw [history_endInternal])

theorem Accounted.writeFile (h : Accounted w) (s : Session) (now : UInt64) (write : Write) :
    Accounted (w.writeFile fl s now write) := by
  refine h.frame (fun p => ?_) (by rw [history_writeFile]) (by rw [history_writeFile])
  cases write <;> rfl

theorem Accounted.recordError (h : Accounted w) : Accounted w.recordError := by
  refine h.frame (fun p => ?_) (by rw [history_recordError]) (by rw [history_recordError])
  unfold World.recordError
  split <;> rfl

theorem Accounted.addSession (h : Accounted w) {p : Fin n} (hp : w.threads p = .recheck) (made : Bool) :
    Accounted (addSession w p made) := by
  have hheld : (w.threads p).held = none := by rw [hp]; rfl
  unfold Sessions.addSession
  split
  · exact h.frame (fun _ => rfl) rfl rfl
  · exact h.at p hheld.symm
  · cases made with
    | false =>
      refine Accounted.at ?_ p hheld.symm
      exact h.frame (fun _ => rfl) rfl rfl
    | true => exact h.make hheld rfl rfl (by simp [World.addUpdate]) rfl

theorem Accounted.close (h : Accounted w) (removed made : Bool) : Accounted (close w removed made) := by
  unfold Sessions.close
  have hend := h.endInternal removed
  split
  · cases made with
    | false => exact hend.frame (fun _ => rfl) rfl (by simp [World.submit, World.updateNumber, World.addUpdate, History.settled])
    | true =>
      refine hend.pass rfl (by simp [World.submit, World.addUpdate]) ?_
      rw [history_endInternal]
      refine (settled_submit (w := (w.endInternal removed).addUpdate _ true true) (some _)).trans ?_
      rw [World.addUpdate, if_pos rfl]
      exact List.Perm.of_eq (by rw [history_endInternal]; rfl)
  · exact hend.frame (fun _ => rfl) rfl rfl

theorem Accounted.live (h : Accounted w) {l : Label n} (hl : live fl w l = some w') : Accounted w' := by
  cases l with
  | startSession p removed =>
    simp only [Sessions.live] at hl
    split at hl
    · rename_i hp
      cases hl
      have hnone : ((w.endInternal removed).threads p).held = none := by rw [threads_endInternal, hp]; rfl
      unfold Sessions.startSession
      split <;> exact (h.endInternal removed).at p hnone.symm
    · cases hl
  | endSession p status removed =>
    simp only [Sessions.live] at hl
    split at hl
    · rename_i hp
      cases hl
      have hnone : ((w.endInternal removed).threads p).held = none := by rw [threads_endInternal, hp]; rfl
      unfold Sessions.endSession
      split
      · exact (h.endInternal removed).at p hnone.symm
      · exact h.endInternal removed
    · cases hl
  | capture p made =>
    simp only [Sessions.live] at hl
    split at hl
    · rename_i hp
      cases hl
      have hnone : (w.threads p).held = none := by rw [hp]; rfl
      cases made with
      | false => exact h.at p hnone.symm
      | true => exact h.make hnone rfl rfl (by simp [World.addUpdate]) rfl
    · cases hl
  | submit p =>
    simp only [Sessions.live] at hl
    split at hl
    · rename_i hp
      cases hl
      exact h.submitOrDrop (by rw [hp]; rfl) (by split <;> rfl) w.enabled
    · cases hl
  | newSession p scope id now allocated write =>
    simp only [Sessions.live] at hl
    split at hl
    · rename_i hp
      split at hl
      · cases hl
      · cases hl
        have hnew : Accounted (newSession fl w scope id now allocated write) ∧
            (newSession fl w scope id now allocated write).threads = w.threads := by
          unfold Sessions.newSession
          split
          · split
            · exact ⟨h.frame (fun _ => rfl) rfl rfl, rfl⟩
            · refine ⟨Accounted.writeFile ?_ _ _ _, by cases write <;> rfl⟩
              exact h.frame (fun _ => rfl) rfl rfl
          · exact ⟨h, rfl⟩
        exact hnew.1.at p (by rw [hnew.2, hp]; rfl)
    · cases hl
  | setUser p user installationId now write =>
    simp only [Sessions.live] at hl
    split at hl
    · cases hl
      unfold Sessions.setUser
      split
      · refine Accounted.writeFile ?_ _ _ _
        exact h.frame (fun _ => rfl) rfl rfl
      · exact h
    · cases hl
  | recordError p =>
    simp only [Sessions.live] at hl
    split at hl
    · cases hl
      exact h.recordError
    · cases hl
  | event p isError kept =>
    simp only [Sessions.live] at hl
    split at hl
    · rename_i hp _
      cases hl
      have hev : Accounted (if isError then w.recordError else w) ∧
          (if isError then w.recordError else w).threads = w.threads := by
        split
        · exact ⟨h.recordError, by unfold World.recordError; split <;> rfl⟩
        · exact ⟨h, rfl⟩
      split
      · exact hev.1.at p (by rw [hev.2, hp]; rfl)
      · exact hev.1
    · cases hl
  | look p =>
    simp only [Sessions.live] at hl
    split at hl
    · rename_i hp
      cases hl
      exact h.at p (by rw [hp]; split <;> rfl)
    · cases hl
  | add p made =>
    simp only [Sessions.live] at hl
    split at hl
    · rename_i hp
      cases hl
      exact h.addSession hp made
    · cases hl
  | roll p kept =>
    simp only [Sessions.live] at hl
    split at hl
    · rename_i hp
      cases hl
      exact h.submitOrDrop (by rw [hp]; rfl) rfl kept
    · cases hl
  | close p removed made =>
    simp only [Sessions.live] at hl
    split at hl
    · cases hl
      exact h.close removed made
    · cases hl
  | die =>
    cases hl
    exact h.frame (fun _ => rfl) rfl rfl
  | restart lastCrash removed => cases hl

theorem Accounted.act (h : Accounted w) {l : Label n} (hl : act fl w l = some w') : Accounted w' := by
  unfold Sessions.act at hl
  split at hl
  · exact h.live hl
  · split at hl
    · cases hl
      unfold Sessions.restart
      split
      · exact h
      · split <;> exact h.frame (fun _ => rfl) rfl rfl
    · cases hl

theorem Accounted.begin : Accounted (begin : World n) where
  all i := by
    refine ⟨fun hi => absurd hi (Nat.not_lt_zero i), ?_⟩
    rintro (⟨p, hp⟩ | hi)
    · cases hp
    · cases hi
  once p q i hp := by cases hp
  apart p i hp := by cases hp
  nodup := .nil

/-- **No update is lost or sent twice**: each one is in the envelope of exactly one thread, or was submitted once, or
was thrown away once. -/
theorem updates_accounted (h : Reachable (· = begin) (Step fl) w) : Accounted w :=
  h.invariant (fun _ hs => hs ▸ .begin) fun _ _ ha ⟨_, hl⟩ => ha.act hl

theorem updates_accounted_three : ∃ w : World 2,
    (w.history.submitted, w.history.dropped) = ([1, 2], [0]) ∧ Accounted w := by
  obtain ⟨w, hw, hp⟩ := Reachable.exists_of_run (act noFloats) (R := Step noFloats) (s := begin)
    (fun _ l _ hl => ⟨l, hl⟩) threeUpdates
    (fun w => (w.history.submitted, w.history.dropped) = ([1, 2], [0])) (by decide +kernel)
  exact ⟨w, by simpa using hp, updates_accounted hw⟩

end SentryNative.Sessions
