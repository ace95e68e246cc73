import SentryNative.Sessions.Life

/-!
# Sessions over whole runs

A session has one owner at a time: the options, or the thread that took it out to end it. An update is made by the
owner, so the updates of a session come in an order that no interleaving of the threads can change.

* `Law.live`: no step gives a session a second owner, or makes an update that its owner is not ahead of;
* `updates_in_order`: the initial update comes first, the errors only grow, and the final update comes last.
-/

namespace SentryNative.Sessions

open Machine
open Retry (Uuid)

variable {n : Nat} {fl : Floats} {w w' : World n}

/-! ## Owners -/

/-- The options own a session as `none`, a thread that ends one by its number. -/
def Owns (w : World n) : Option (Fin n) → Session → Prop
  | none, s => w.session = some s
  | some p, s => ∃ status restarts, w.threads p = .taken s status restarts

/-- An update, and a later one of the same session. -/
def Before (a b : Update) : Prop :=
  a.session.sessionId = b.session.sessionId →
    a.final = false ∧ a.session.errors ≤ b.session.errors ∧ b.session.init = false

/-- A session that has an owner: no update of it is final, and it is ahead of all of them. -/
structure Kept (h : History) (s : Session) : Prop where
  status : s.status = .ok
  issued : s.sessionId ∈ h.issued
  ahead : ∀ u ∈ h.updates, Before u ⟨s, false⟩

structure Law (w : World n) : Prop where
  ordered : w.history.updates.Pairwise Before
  running : ∀ u ∈ w.history.updates, u.final = false → u.session.status = .ok
  issued : ∀ u ∈ w.history.updates, u.session.sessionId ∈ w.history.issued
  kept : ∀ o s, Owns w o s → Kept w.history s
  single : ∀ o o' s s', Owns w o s → Owns w o' s' → s.sessionId = s'.sessionId → o = o'

/-- What an owner may do to a session. -/
structure Grown (s s' : Session) : Prop where
  id : s'.sessionId = s.sessionId
  status : s'.status = s.status
  errors : s.errors ≤ s'.errors
  init : s.init = false → s'.init = false

theorem Grown.refl (s : Session) : Grown s s := ⟨rfl, rfl, Nat.le_refl _, fun h => h⟩

theorem Grown.syncUser (s : Session) (user : Value) (installationId : Option CLib.Bytes) :
    Grown s (s.syncUser user installationId) := by
  unfold Session.syncUser
  dsimp only
  split <;> exact ⟨rfl, rfl, Nat.le_refl _, fun h => h⟩

theorem Before.grown {u : Update} {s s' : Session} (h : Before u ⟨s, false⟩) (g : Grown s s') :
    Before u ⟨s', false⟩ := by
  intro hid
  obtain ⟨hfinal, herrors, hinit⟩ := h (hid.trans g.id)
  exact ⟨hfinal, Nat.le_trans herrors g.errors, g.init hinit⟩

theorem Kept.grown {h h' : History} {s s' : Session} (k : Kept h s) (hu : h'.updates = h.updates)
    (hi : ∀ id ∈ h.issued, id ∈ h'.issued) (g : Grown s s') : Kept h' s' where
  status := g.status.trans k.status
  issued := g.id ▸ hi _ k.issued
  ahead u hmem := (k.ahead u (hu ▸ hmem)).grown g

/-- Sessions change hands, and grow, and no update is made. -/
theorem Law.move (h : Law w) (hu : w'.history.updates = w.history.updates)
    (hi : w'.history.issued = w.history.issued) (f : Option (Fin n) → Option (Fin n))
    (hf : ∀ o s', Owns w' o s' → ∃ s, Owns w (f o) s ∧ Grown s s')
    (hinj : ∀ o o' s s', Owns w' o s → Owns w' o' s' → f o = f o' → o = o') : Law w' where
  ordered := hu ▸ h.ordered
  running := hu ▸ h.running
  issued := by rw [hu, hi]; exact h.issued
  kept o s' ho := by
    obtain ⟨s, hs, hg⟩ := hf o s' ho
    exact (h.kept _ s hs).grown hu (fun id hid => hi ▸ hid) hg
  single o o' s s' ho ho' hid := by
    obtain ⟨t, ht, hg⟩ := hf o s ho
    obtain ⟨t', ht', hg'⟩ := hf o' s' ho'
    exact hinj o o' s s' ho ho' (h.single _ _ t t' ht ht' (by rw [← hg.id, hid, hg'.id]))

/-- Every owner keeps its session, or lets go of it. -/
theorem Law.stay (h : Law w) (hu : w'.history.updates = w.history.updates)
    (hi : w'.history.issued = w.history.issued)
    (hf : ∀ o s', Owns w' o s' → ∃ s, Owns w o s ∧ Grown s s') : Law w' :=
  h.move hu hi id hf fun _ _ _ _ _ _ heq => heq

/-- An owner makes an update of its session, after which it is not the initial one any more, or gone. -/
theorem Law.make (h : Law w) {o : Option (Fin n)} {s : Session} (hs : Owns w o s) {u : Update}
    (hid : u.session.sessionId = s.sessionId) (herrors : u.session.errors = s.errors)
    (hinit : u.session.init = s.init) (hrun : u.final = false → u.session.status = s.status)
    (hu : w'.history.updates = w.history.updates ++ [u])
    (hi : w'.history.issued = w.history.issued)
    (hf : ∀ o' s', Owns w' o' s' →
      Owns w o' s' ∧ o' ≠ o ∨ o' = o ∧ u.final = false ∧ s' = { s with init := false }) : Law w' := by
  have hk := h.kept o s hs
  refine ⟨?_, ?_, ?_, ?_, ?_⟩
  · rw [hu, List.pairwise_append]
    refine ⟨h.ordered, List.pairwise_singleton _ _, fun a ha b hb => ?_⟩
    rw [List.mem_singleton.mp hb]
    intro hab
    obtain ⟨hfinal, hle, hfalse⟩ := hk.ahead a ha (hab.trans hid)
    exact ⟨hfinal, herrors ▸ hle, hinit ▸ hfalse⟩
  · rw [hu]
    intro a ha hfinal
    rcases List.mem_append.mp ha with ha | ha
    · exact h.running a ha hfinal
    · rw [List.mem_singleton.mp ha] at hfinal ⊢
      exact (hrun hfinal).trans hk.status
  · rw [hu, hi]
    intro a ha
    rcases List.mem_append.mp ha with ha | ha
    · exact h.issued a ha
    · rw [List.mem_singleton.mp ha, hid]
      exact hk.issued
  · intro o' s' ho'
    rcases hf o' s' ho' with ⟨hold, hne⟩ | ⟨rfl, hfinal, rfl⟩
    · have hk' := h.kept o' s' hold
      refine ⟨hk'.status, hi ▸ hk'.issued, fun a ha => ?_⟩
      rcases List.mem_append.mp (hu ▸ ha) with ha | ha
      · exact hk'.ahead a ha
      · rw [List.mem_singleton.mp ha]
        intro heq
        exact absurd (h.single o' o s' s hold hs (heq.symm.trans hid)) hne
    · refine ⟨hk.status, hi ▸ hk.issued, fun a ha => ?_⟩
      rcases List.mem_append.mp (hu ▸ ha) with ha | ha
      · intro heq
        obtain ⟨hnot, hle, -⟩ := hk.ahead a ha heq
        exact ⟨hnot, hle, rfl⟩
      · rw [List.mem_singleton.mp ha]
        exact fun _ => ⟨hfinal, Nat.le_of_eq herrors, rfl⟩
  · -- the owners are those of before
    have hback : ∀ o' s', Owns w' o' s' → ∃ t, Owns w o' t ∧ t.sessionId = s'.sessionId := by
      intro o' s' ho'
      rcases hf o' s' ho' with ⟨hold, -⟩ | ⟨rfl, -, rfl⟩
      · exact ⟨s', hold, rfl⟩
      · exact ⟨s, hs, rfl⟩
    intro a b s₁ s₂ ha hb heq
    obtain ⟨t₁, ht₁, h₁⟩ := hback a s₁ ha
    obtain ⟨t₂, ht₂, h₂⟩ := hback b s₂ hb
    exact h.single a b t₁ t₂ ht₁ ht₂ (by rw [h₁, h₂, heq])

/-! ## The owners after each operation -/

theorem owns_at {p : Fin n} {pc : Pc} {o : Option (Fin n)} {s : Session} (h : Owns (w.at p pc) o s) :
    Owns w o s ∧ o ≠ some p ∨ o = some p ∧ ∃ status restarts, pc = .taken s status restarts := by
  cases o with
  | none => exact .inl ⟨h, nofun⟩
  | some q =>
    obtain ⟨status, restarts, h⟩ := h
    by_cases hq : q = p
    · subst hq
      exact .inr ⟨rfl, status, restarts, by simpa [World.at] using h⟩
    · refine .inl ⟨⟨status, restarts, ?_⟩, by simpa using hq⟩
      simpa [World.at, Function.update_of_ne hq] using h

/-- A thread that goes on to something other than a session to be ended. -/
theorem owns_at_other {p : Fin n} {pc : Pc} (hpc : ∀ s status restarts, pc ≠ .taken s status restarts)
    {o : Option (Fin n)} {s : Session} (h : Owns (w.at p pc) o s) : Owns w o s ∧ o ≠ some p := by
  rcases owns_at h with h | ⟨-, status, restarts, rfl⟩
  · exact h
  · exact absurd rfl (hpc s status restarts)

theorem owns_clearFile {removed : Bool} {o : Option (Fin n)} {s : Session} :
    Owns (w.clearFile removed) o s ↔ Owns w o s := by
  cases o <;> rfl

theorem owns_endInternal {removed : Bool} {o : Option (Fin n)} {s : Session}
    (h : Owns (w.endInternal removed) o s) : Owns w o s ∧ (w.enabled = true → o ≠ none) := by
  unfold World.endInternal at h
  split at h
  · rw [owns_clearFile] at h
    cases o with
    | none => exact absurd h nofun
    | some p => exact ⟨h, fun _ => nofun⟩
  · rename_i hd
    exact ⟨h, fun he => absurd he hd⟩

theorem history_endInternal (removed : Bool) : (w.endInternal removed).history = w.history := by
  unfold World.endInternal
  split <;> rfl

theorem history_writeFile (s : Session) (now : UInt64) (write : Write) :
    (w.writeFile fl s now write).history = w.history := by
  cases write <;> rfl

theorem owns_writeFile {s t : Session} {now : UInt64} {write : Write} {o : Option (Fin n)} :
    Owns (w.writeFile fl s now write) o t ↔ Owns w o t := by
  cases write <;> cases o <;> rfl

theorem current_some {s : Session} (h : w.current = some s) : w.enabled = true ∧ w.session = some s := by
  unfold World.current at h
  split at h
  · rename_i he
    exact ⟨he, h⟩
  · cases h

theorem owns_recordError {o : Option (Fin n)} {s' : Session} (h : Owns w.recordError o s') :
    ∃ s, Owns w o s ∧ Grown s s' := by
  unfold World.recordError at h
  split at h
  · cases o with
    | none =>
      obtain ⟨s, hs, rfl⟩ := Option.map_eq_some_iff.mp h
      exact ⟨s, hs, rfl, rfl, Nat.le_succ _, fun h => h⟩
    | some p => exact ⟨s', h, .refl s'⟩
  · exact ⟨s', h, .refl s'⟩

theorem history_recordError : w.recordError.history = w.history := by
  unfold World.recordError
  split <;> rfl

/-! ## What each step keeps -/

theorem Law.at (h : Law w) (p : Fin n) {pc : Pc} (hpc : ∀ s status restarts, pc ≠ .taken s status restarts) :
    Law (w.at p pc) :=
  h.stay rfl rfl fun _ s' ho => ⟨s', (owns_at_other hpc ho).1, .refl s'⟩

theorem Law.endInternal (h : Law w) (removed : Bool) : Law (w.endInternal removed) :=
  h.stay (by rw [history_endInternal]) (by rw [history_endInternal]) fun _ s' ho =>
    ⟨s', (owns_endInternal ho).1, .refl s'⟩

/-- The session goes from the options to a thread. -/
theorem Law.take (h : Law w) {s : Session} (hs : w.current = some s) (p : Fin n)
    (removed restarts : Bool) (status : Option Status) :
    Law ((w.endInternal removed).at p (.taken s status restarts)) := by
  obtain ⟨he, hs⟩ := current_some hs
  have howner : ∀ o t, Owns ((w.endInternal removed).at p (.taken s status restarts)) o t →
      o = some p ∧ t = s ∨ o ≠ some p ∧ o ≠ none ∧ Owns w o t := by
    intro o t ho
    rcases owns_at ho with ⟨ho, hne⟩ | ⟨hp, st, r, heq⟩
    · obtain ⟨ho, hnone⟩ := owns_endInternal ho
      exact .inr ⟨hne, hnone he, ho⟩
    · cases heq
      exact .inl ⟨hp, rfl⟩
  refine h.move (by simp only [World.at, history_endInternal]) (by simp only [World.at, history_endInternal])
    (fun o => if o = some p then none else o) ?_ ?_
  · intro o t ho
    rcases howner o t ho with ⟨rfl, rfl⟩ | ⟨hne, -, ho⟩
    · exact ⟨t, by rw [if_pos rfl]; exact hs, .refl t⟩
    · exact ⟨t, by rw [if_neg hne]; exact ho, .refl t⟩
  · intro o o' t t' ho ho' heq
    rcases howner o t ho with ⟨rfl, -⟩ | ⟨hne, hnone, -⟩ <;> rcases howner o' t' ho' with ⟨rfl, -⟩ | ⟨hne', hnone', -⟩
    · rfl
    · rw [if_pos rfl, if_neg hne'] at heq
      exact absurd heq.symm hnone'
    · rw [if_pos rfl, if_neg hne] at heq
      exact absurd heq hnone
    · rwa [if_neg hne, if_neg hne'] at heq

theorem Law.newSession (h : Law w) (scope : Scope) {id : Uuid} (hid : id ∉ w.history.issued) (now : UInt64)
    (allocated : Bool) (write : Write) : Law (newSession fl w scope id now allocated write) := by
  unfold Sessions.newSession
  split
  · cases hnew : sessionNew scope id now allocated with
    | none =>
      refine h.stay rfl rfl fun o s' ho => ⟨s', ?_, .refl s'⟩
      cases o with
      | none => exact absurd ho nofun
      | some p => exact ho
    | some s₀ =>
      dsimp only
      have hfresh : s₀.sessionId = id ∧ s₀.status = .ok := by
        unfold sessionNew at hnew
        split at hnew
        · cases hnew
          exact ⟨rfl, rfl⟩
        · cases hnew
      have hg := Grown.syncUser s₀ scope.user scope.installationId
      generalize s₀.syncUser scope.user scope.installationId = s at hg
      have hsid : s.sessionId = id := hg.id.trans hfresh.1
      have howner : ∀ o t, Owns (({ w with session := some s, history.issued := id :: w.history.issued } : World n).writeFile
          fl s now write) o t → o = none ∧ t = s ∨ o ≠ none ∧ Owns w o t := by
        intro o t ho
        rw [owns_writeFile] at ho
        cases o with
        | none => exact .inl ⟨rfl, (Option.some.inj ho).symm⟩
        | some p => exact .inr ⟨nofun, ho⟩
      have hother : ∀ o t, Owns w o t → t.sessionId ≠ id := fun o t ho heq => hid (heq ▸ (h.kept o t ho).issued)
      refine ⟨?_, ?_, ?_, ?_, ?_⟩
      · rw [history_writeFile]
        exact h.ordered
      · rw [history_writeFile]
        exact h.running
      · rw [history_writeFile]
        exact fun u hu => List.mem_cons_of_mem _ (h.issued u hu)
      · intro o t ho
        rw [history_writeFile]
        rcases howner o t ho with ⟨-, rfl⟩ | ⟨-, ho⟩
        · refine ⟨hg.status.trans hfresh.2, List.mem_cons.mpr (.inl hsid), fun u hu heq => ?_⟩
          exact absurd (h.issued u hu) (by rw [heq.trans hsid]; exact hid)
        · exact (h.kept o t ho).grown rfl (fun _ => List.mem_cons_of_mem _) (.refl t)
      · intro o o' t t' ho ho' heq
        rcases howner o t ho with ⟨rfl, rfl⟩ | ⟨-, hold⟩ <;> rcases howner o' t' ho' with ⟨rfl, rfl⟩ | ⟨-, hold'⟩
        · rfl
        · exact absurd (heq.symm.trans hsid) (hother o' t' hold')
        · exact absurd (heq.trans hsid) (hother o t hold)
        · exact h.single o o' t t' hold hold' heq
  · exact h

theorem Law.setUser (h : Law w) (user : Value) (installationId : Option CLib.Bytes) (now : UInt64) (write : Write) :
    Law (setUser fl w user installationId now write) := by
  unfold Sessions.setUser
  split
  · rename_i s _ hs
    refine h.stay (by rw [history_writeFile]) (by rw [history_writeFile]) fun o t ho => ?_
    rw [owns_writeFile] at ho
    cases o with
    | none =>
      cases ho
      exact ⟨s, hs, .syncUser s user installationId⟩
    | some p => exact ⟨t, ho, .refl t⟩
  · exact h

theorem Law.recordError (h : Law w) : Law w.recordError :=
  h.stay (by rw [history_recordError]) (by rw [history_recordError]) fun _ _ => owns_recordError

theorem Law.addSession (h : Law w) (p : Fin n) (made : Bool) : Law (addSession w p made) := by
  unfold Sessions.addSession
  split
  · exact h.stay rfl rfl fun o t ho => ⟨t, by cases o <;> exact ho, .refl t⟩
  · exact h.at p nofun
  · rename_i s _ hs
    cases made with
    | false =>
      refine h.stay rfl rfl fun o t ho => ?_
      obtain ⟨ho, -⟩ := owns_at_other (fun _ _ _ h => by cases h) ho
      cases o with
      | none =>
        cases ho
        exact ⟨s, hs, rfl, rfl, Nat.le_refl _, fun _ => rfl⟩
      | some q => exact ⟨t, ho, .refl t⟩
    | true =>
      refine h.make (o := none) (s := s) (u := ⟨s, false⟩) hs rfl rfl rfl (fun _ => rfl) rfl rfl fun o t ho => ?_
      obtain ⟨ho, -⟩ := owns_at_other (fun _ _ _ h => by cases h) ho
      cases o with
      | none => exact .inr ⟨rfl, rfl, (Option.some.inj ho).symm⟩
      | some q => exact .inl ⟨ho, nofun⟩

theorem Law.capture (h : Law w) {p : Fin n} {s : Session} {status : Option Status} {restarts : Bool}
    (hp : w.threads p = .taken s status restarts) (made : Bool) :
    Law ((w.addUpdate (s.ended status) true made).at p (.sending (w.updateNumber made) restarts)) := by
  have howns : Owns w (some p) s := ⟨status, restarts, hp⟩
  cases made with
  | false => exact h.at p nofun
  | true =>
    refine h.make howns (u := ⟨s.ended status, true⟩) rfl rfl rfl nofun rfl rfl fun o t ho => .inl ?_
    obtain ⟨ho, hne⟩ := owns_at_other (fun _ _ _ h => by cases h) ho
    exact ⟨by cases o <;> exact ho, hne⟩

theorem Law.close (h : Law w) (he : w.enabled = true) (removed made : Bool) : Law (close w removed made) := by
  unfold Sessions.close
  split
  · rename_i s hs
    cases made with
    | false =>
      refine (h.endInternal removed).stay (by simp [World.submit, World.addUpdate, World.updateNumber])
        rfl fun o t ho => ⟨t, ?_, .refl t⟩
      cases o <;> exact ho
    | true =>
      refine h.make (o := none) (s := s) (u := ⟨s.ended none, true⟩) hs rfl rfl rfl nofun ?_ ?_ fun o t ho => .inl ?_
      · simp [World.submit, World.addUpdate, history_endInternal]
      · simp [World.submit, World.addUpdate, history_endInternal]
      · have ho : Owns (w.endInternal removed) o t := by cases o <;> exact ho
        obtain ⟨ho, hne⟩ := owns_endInternal ho
        exact ⟨ho, hne he⟩
  · refine (h.endInternal removed).stay rfl rfl fun o t ho => ⟨t, ?_, .refl t⟩
    cases o <;> exact ho

theorem Law.settle (h : Law w) (submitted dropped : List Nat) :
    Law { w with history.submitted := submitted, history.dropped := dropped } :=
  h.stay rfl rfl fun o t ho => ⟨t, by cases o <;> exact ho, .refl t⟩

theorem Law.restart (h : Law w) (lastCrash : UInt64) (removed : Bool) : Law (restart fl w lastCrash removed) := by
  unfold Sessions.restart
  split
  · exact h
  · split
    · exact h.stay rfl rfl fun o t ho => ⟨t, owns_clearFile.mp ho, .refl t⟩
    · exact h.stay rfl rfl fun o t ho => ⟨t, by rw [owns_clearFile] at ho; cases o <;> exact ho, .refl t⟩

theorem Law.live (h : Law w) {l : Label n} (hl : live fl w l = some w') : Law w' := by
  cases l with
  | startSession p removed =>
    simp only [Sessions.live] at hl
    split at hl
    · cases hl
      unfold Sessions.startSession
      split
      · rename_i hs
        exact h.take hs p removed true none
      · exact (h.endInternal removed).at p nofun
    · cases hl
  | endSession p status removed =>
    simp only [Sessions.live] at hl
    split at hl
    · cases hl
      unfold Sessions.endSession
      split
      · rename_i hs
        exact h.take hs p removed false status
      · exact h.endInternal removed
    · cases hl
  | capture p made =>
    simp only [Sessions.live] at hl
    split at hl
    · rename_i hp
      cases hl
      exact h.capture hp made
    · cases hl
  | submit p =>
    simp only [Sessions.live] at hl
    split at hl
    · cases hl
      refine Law.at ?_ p (by split <;> nofun)
      split
      · exact h.settle _ _
      · exact h.settle _ _
    · cases hl
  | newSession p scope id now allocated write =>
    simp only [Sessions.live] at hl
    split at hl
    · split at hl
      · cases hl
      · rename_i hid
        cases hl
        exact (h.newSession scope hid now allocated write).at p nofun
    · cases hl
  | setUser p user installationId now write =>
    simp only [Sessions.live] at hl
    split at hl
    · cases hl
      exact h.setUser user installationId now write
    · cases hl
  | recordError p =>
    simp only [Sessions.live] at hl
    split at hl
    · cases hl
      exact h.recordError
    · cases hl
  | event p isError kept =>
    simp only [Sessions.live] at hl
    split at hl
    · cases hl
      have hlaw : Law (if isError then w.recordError else w) := by
        split
        · exact h.recordError
        · exact h
      split
      · exact hlaw.at p nofun
      · exact hlaw
    · cases hl
  | look p =>
    simp only [Sessions.live] at hl
    split at hl
    · cases hl
      exact h.at p (by split <;> nofun)
    · cases hl
  | add p made =>
    simp only [Sessions.live] at hl
    split at hl
    · cases hl
      exact h.addSession p made
    · cases hl
  | roll p kept =>
    simp only [Sessions.live] at hl
    split at hl
    · cases hl
      refine Law.at ?_ p nofun
      split
      · exact h.settle _ _
      · exact h.settle _ _
    · cases hl
  | close p removed made =>
    simp only [Sessions.live] at hl
    split at hl
    · rename_i he
      cases hl
      exact h.close he removed made
    · cases hl
  | die =>
    cases hl
    exact h.stay rfl rfl fun o t ho => ⟨t, by cases o <;> exact ho, .refl t⟩
  | restart lastCrash removed => cases hl

theorem Law.act (h : Law w) {l : Label n} (hl : act fl w l = some w') : Law w' := by
  unfold Sessions.act at hl
  split at hl
  · exact h.live hl
  · split at hl
    · cases hl
      exact h.restart _ _
    · cases hl

theorem Law.begin : Law (begin : World n) where
  ordered := .nil
  running := nofun
  issued := nofun
  kept o s ho := by
    cases o with
    | none => cases ho
    | some p => obtain ⟨_, _, ho⟩ := ho; cases ho
  single o _ s _ ho := by
    cases o with
    | none => cases ho
    | some p => obtain ⟨_, _, ho⟩ := ho; cases ho

def someScope : Scope := ⟨some [49], none, .null, none⟩

/-- A session is started, reported by an event of another thread, and ended. -/
def threeUpdates : List (Label 2) :=
  [.startSession 0 true, .newSession 0 someScope (fun _ => 1) 10 true .whole, .event 1 true true, .look 1,
    .add 1 true, .event 0 true true, .look 0, .add 0 true, .roll 0 true, .endSession 0 none true, .capture 0 true,
    .submit 0, .roll 1 false]

end SentryNative.Sessions
