import SentryNative.Sessions.LifeRuns

/-!
# Sessions end once

`session.json` names a session that nobody has ended. A session that a thread takes out to be ended loses its file
under the same lock, so a later run that finds the file finds a session without a final update.

* `FileLaw.live`: no step of the process leaves behind a session that it has ended;
* `ended_once`: over a process and the runs after it, a session has at most one final update.
-/

namespace SentryNative.Sessions

open Machine

variable {n : Nat} {fl : Floats} {w w' : World n}

/-- A session that may be found in the file: it was given out, and has no final update, made or about to be made. -/
structure Unended (w : World n) (s : Session) : Prop where
  status : s.status = .ok
  issued : s.sessionId ∈ w.history.issued
  updates : ∀ u ∈ w.history.updates, u.session.sessionId = s.sessionId → u.final = false
  taken : ∀ p t, Owns w (some p) t → t.sessionId ≠ s.sessionId
  reported : ∀ r ∈ w.history.reported, r.sessionId ≠ s.sessionId

/-- What a restart would find is a session that has not ended. -/
def FileLaw (fl : Floats) (w : World n) : Prop :=
  ∀ v s, w.file = some v → fromValue fl v = some s → Unended w s

theorem FileLaw.of_none (h : w.file = none) : FileLaw fl w := by
  intro v s hv
  rw [h] at hv
  cases hv

/-- A step that leaves the file, the ends of sessions and the threads that end them alone. -/
theorem FileLaw.stay (h : FileLaw fl w) (hf : w'.file = w.file) (hi : ∀ id ∈ w.history.issued, id ∈ w'.history.issued)
    (hu : ∀ u ∈ w'.history.updates, u ∈ w.history.updates ∨ u.final = false)
    (ht : ∀ p t, Owns w' (some p) t → Owns w (some p) t) (hr : w'.history.reported = w.history.reported) :
    FileLaw fl w' := by
  intro v s hv hs
  have hold := h v s (hf ▸ hv) hs
  refine ⟨hold.status, hi _ hold.issued, fun u hmem hid => ?_, fun p t hown => hold.taken p t (ht p t hown), ?_⟩
  · rcases hu u hmem with hmem | hfinal
    · exact hold.updates u hmem hid
    · exact hfinal
  · rw [hr]
    exact hold.reported

/-- The session of the options may be written. -/
theorem FileLaw.writeFile (h : FileLaw fl w) (law : Law w) (hr : w.history.reported = []) {s : Session}
    (hs : w.session = some s) (now : UInt64) (write : Write) : FileLaw fl (w.writeFile fl s now write) := by
  cases write with
  | nothing => exact h
  | torn =>
    intro v t hv ht
    cases hv
    cases ht
  | whole =>
    intro v t hv ht
    cases hv
    rw [fromValue_toValue] at ht
    cases ht
    have hk := law.kept none s hs
    refine ⟨hk.status, hk.issued, fun u hu hid => ((hk.ahead u hu) hid).1, fun p t' hown hid => ?_, fun r hmem => ?_⟩
    · exact absurd (law.single (some p) none t' s hown hs hid) nofun
    · rw [show (w.writeFile fl s now .whole).history.reported = [] from hr] at hmem
      cases hmem

theorem FileLaw.at (h : FileLaw fl w) (p : Fin n) {pc : Pc} (hpc : ∀ s status restarts, pc ≠ .taken s status restarts) :
    FileLaw fl (w.at p pc) :=
  h.stay rfl (fun _ hid => hid) (fun _ hu => .inl hu) (fun _ _ ho => (owns_at_other hpc ho).1) rfl

theorem FileLaw.settle (h : FileLaw fl w) (submitted dropped : List Nat) :
    FileLaw fl { w with history.submitted := submitted, history.dropped := dropped } :=
  h.stay rfl (fun _ hid => hid) (fun _ hu => .inl hu) (fun _ _ ho => ho) rfl

/-- The file is gone, or there was nothing to remove it for. -/
theorem FileLaw.endInternal (h : FileLaw fl w) : FileLaw fl (w.endInternal true) := by
  unfold World.endInternal
  split
  · exact .of_none rfl
  · exact h

theorem FileLaw.take {s : Session} (hs : w.current = some s) (p : Fin n) (pc : Pc) :
    FileLaw fl ((w.endInternal true).at p pc) := by
  refine .of_none ?_
  unfold World.endInternal
  rw [if_pos (current_some hs).1]
  rfl

/-- The session of a final update is not the one in the file. -/
theorem FileLaw.capture (h : FileLaw fl w) {p : Fin n} {s : Session} {status : Option Status} {restarts : Bool}
    (hp : w.threads p = .taken s status restarts) (made : Bool) :
    FileLaw fl ((w.addUpdate (s.ended status) true made).at p (.sending (w.updateNumber made) restarts)) := by
  cases made with
  | false => exact h.at p nofun
  | true =>
    intro v t hv ht
    have hold := h v t hv ht
    have hne := hold.taken p s ⟨status, restarts, hp⟩
    refine ⟨hold.status, hold.issued, fun u hu hid => ?_, fun q t' hown => ?_, hold.reported⟩
    · rcases List.mem_append.mp hu with hu | hu
      · exact hold.updates u hu hid
      · rw [List.mem_singleton.mp hu] at hid
        exact absurd hid hne
    · exact hold.taken q t' (owns_at_other (fun _ _ _ h => by cases h) hown).1

theorem FileLaw.newSession (h : FileLaw fl w) (law : Law w) (hr : w.history.reported = []) (scope : Scope) {id : Retry.Uuid}
    (hid : id ∉ w.history.issued) (now : UInt64) (allocated : Bool) (write : Write) :
    FileLaw fl (newSession fl w scope id now allocated write) := by
  have hlaw := @Law.newSession _ fl w law scope id hid now allocated .nothing
  unfold Sessions.newSession at hlaw ⊢
  split
  · rename_i he
    rw [if_pos he] at hlaw
    cases hnew : sessionNew scope id now allocated with
    | none => exact h.stay rfl (fun _ hid => hid) (fun _ hu => .inl hu) (fun _ _ ho => ho) rfl
    | some s =>
      rw [hnew] at hlaw
      refine FileLaw.writeFile ?_ hlaw hr rfl now write
      exact h.stay rfl (fun _ => List.mem_cons_of_mem _) (fun _ hu => .inl hu) (fun _ _ ho => ho) rfl
  · exact h

theorem FileLaw.setUser (h : FileLaw fl w) (law : Law w) (hr : w.history.reported = []) (user : Value)
    (installationId : Option CLib.Bytes) (now : UInt64) (write : Write) :
    FileLaw fl (setUser fl w user installationId now write) := by
  unfold Sessions.setUser
  split
  · rename_i s he hs
    have hlaw : Law { w with session := some (s.syncUser user installationId) } := by
      have := @Law.setUser _ fl w law user installationId now .nothing
      simpa only [Sessions.setUser, he, hs, World.writeFile] using this
    refine FileLaw.writeFile ?_ hlaw hr rfl now write
    exact h.stay rfl (fun _ hid => hid) (fun _ hu => .inl hu) (fun _ _ ho => ho) rfl
  · exact h

theorem FileLaw.recordError (h : FileLaw fl w) : FileLaw fl w.recordError := by
  unfold World.recordError
  split
  · exact h.stay rfl (fun _ hid => hid) (fun _ hu => .inl hu) (fun _ _ ho => ho) rfl
  · exact h

theorem FileLaw.addSession (h : FileLaw fl w) (p : Fin n) (made : Bool) : FileLaw fl (addSession w p made) := by
  unfold Sessions.addSession
  split
  · exact h.stay rfl (fun _ hid => hid) (fun _ hu => .inl hu) (fun _ _ ho => ho) rfl
  · exact h.at p nofun
  · rename_i s _ _
    refine FileLaw.at ?_ p nofun
    cases made with
    | false => exact h.stay rfl (fun _ hid => hid) (fun _ hu => .inl hu) (fun _ _ ho => ho) rfl
    | true =>
      refine h.stay rfl (fun _ hid => hid) (fun u hu => ?_) (fun _ _ ho => ho) rfl
      rcases List.mem_append.mp hu with hu | hu
      · exact .inl hu
      · rw [List.mem_singleton.mp hu]
        exact .inr rfl

theorem FileLaw.close (he : w.enabled = true) (made : Bool) : FileLaw fl (close w true made) := by
  have hfile : (w.endInternal true).file = none := by
    unfold World.endInternal
    rw [if_pos he]
    rfl
  refine .of_none ?_
  unfold Sessions.close
  split
  · cases made <;> exact hfile
  · exact hfile

theorem FileLaw.live (h : FileLaw fl w) (law : Law w) (hr : w.history.reported = []) {l : Label n}
    (hrem : l.removes = true) (hl : live fl w l = some w') : FileLaw fl w' := by
  cases l with
  | startSession p removed =>
    cases hrem
    simp only [Sessions.live] at hl
    split at hl
    · cases hl
      unfold Sessions.startSession
      split
      · rename_i hs
        exact .take hs p _
      · exact h.endInternal.at p (by simp)
    · cases hl
  | endSession p status removed =>
    cases hrem
    simp only [Sessions.live] at hl
    split at hl
    · cases hl
      unfold Sessions.endSession
      split
      · rename_i hs
        exact .take hs p _
      · exact h.endInternal
    · cases hl
  | capture p made =>
    simp only [Sessions.live] at hl
    split at hl
    · rename_i hp
      cases hl
      exact h.capture hp made
    · cases hl
  | submit p =>
    simp only [Sessions.live] at hl
    split at hl
    · cases hl
      refine FileLaw.at ?_ p (by split <;> simp)
      split <;> exact h.settle _ _
    · cases hl
  | newSession p scope id now allocated write =>
    simp only [Sessions.live] at hl
    split at hl
    · split at hl
      · cases hl
      · rename_i hid
        cases hl
        exact (h.newSession law hr scope hid now allocated write).at p (by simp)
    · cases hl
  | setUser p user installationId now write =>
    simp only [Sessions.live] at hl
    split at hl
    · cases hl
      exact h.setUser law hr user installationId now write
    · cases hl
  | recordError p =>
    simp only [Sessions.live] at hl
    split at hl
    · cases hl
      exact h.recordError
    · cases hl
  | event p isError kept =>
    simp only [Sessions.live] at hl
    split at hl
    · cases hl
      have hev : FileLaw fl (if isError then w.recordError else w) := by
        split
        · exact h.recordError
        · exact h
      split
      · exact hev.at p (by simp)
      · exact hev
    · cases hl
  | look p =>
    simp only [Sessions.live] at hl
    split at hl
    · cases hl
      exact h.at p (by split <;> simp)
    · cases hl
  | add p made =>
    simp only [Sessions.live] at hl
    split at hl
    · cases hl
      exact h.addSession p made
    · cases hl
  | roll p kept =>
    simp only [Sessions.live] at hl
    split at hl
    · cases hl
      refine FileLaw.at ?_ p (by simp)
      split <;> exact h.settle _ _
    · cases hl
  | close p removed made =>
    cases hrem
    simp only [Sessions.live] at hl
    split at hl
    · rename_i he
      cases hl
      exact .close he made
    · cases hl
  | die =>
    cases hl
    exact h.stay rfl (fun _ hid => hid) (fun _ hu => .inl hu) (fun _ _ ho => ho) rfl
  | restart lastCrash removed => cases hl

/-! ## Over the runs -/

/-- A step in which `session.json`, where it is removed, is gone afterwards. -/
def StepRemoving (fl : Floats) (w w' : World n) : Prop := ∃ l, l.removes = true ∧ act fl w l = some w'

/-- The sessions that have ended: by a final update, or by the report of a later run. -/
def ends (h : History) : List Retry.Uuid :=
  (h.updates.filter Update.final).map (·.session.sessionId) ++ h.reported.map Session.sessionId

structure Ended (fl : Floats) (w : World n) : Prop where
  law : Law w
  file : FileLaw fl w
  first : w.alive ∧ ¬w.faulted → w.history.reported = []
  distinct : (w.history.reported.map Session.sessionId).Nodup
  apart : ∀ r ∈ w.history.reported, ∀ u ∈ w.history.updates, u.session.sessionId = r.sessionId → u.final = false

theorem leftBehind_id (s : Session) (lastCrash : UInt64) : (leftBehind s lastCrash).sessionId = s.sessionId := by
  unfold leftBehind
  split
  · split <;> rfl
  · rfl

/-- Only a later run reports. -/
theorem reported_live {l : Label n} (hl : live fl w l = some w') : w'.history.reported = w.history.reported := by
  have hend : ∀ removed, (w.endInternal removed).history.reported = w.history.reported := fun removed => by
    rw [history_endInternal]
  cases l with
  | startSession p removed =>
    simp only [live, startSession] at hl
    split at hl
    · cases hl
      split <;> exact hend removed
    · cases hl
  | endSession p status removed =>
    simp only [live, endSession] at hl
    split at hl
    · cases hl
      split <;> exact hend removed
    · cases hl
  | capture p made =>
    simp only [live, World.addUpdate] at hl
    split at hl
    · cases hl
      split <;> rfl
    · cases hl
  | submit p =>
    simp only [live] at hl
    split at hl
    · cases hl
      cases w.enabled <;> rfl
    · cases hl
  | newSession p scope id now allocated write =>
    simp only [live, newSession] at hl
    split at hl
    · split at hl
      · cases hl
      · cases hl
        split
        · split
          · rfl
          · cases write <;> rfl
        · rfl
    · cases hl
  | setUser p user installationId now write =>
    simp only [live, setUser] at hl
    split at hl
    · cases hl
      split
      · cases write <;> rfl
      · rfl
    · cases hl
  | recordError p =>
    simp only [live] at hl
    split at hl
    · cases hl
      rw [history_recordError]
    · cases hl
  | event p isError kept =>
    simp only [live] at hl
    split at hl
    · cases hl
      cases isError <;> cases kept <;> first | rfl | exact congrArg History.reported history_recordError
    · cases hl
  | look p =>
    simp only [live] at hl
    split at hl
    · cases hl
      rfl
    · cases hl
  | add p made =>
    simp only [live, addSession] at hl
    split at hl
    · cases hl
      split
      · rfl
      · rfl
      · cases made <;> rfl
    · cases hl
  | roll p kept =>
    simp only [live] at hl
    split at hl
    · cases hl
      cases kept <;> rfl
    · cases hl
  | close p removed made =>
    simp only [live, close] at hl
    split at hl
    · cases hl
      split
      · cases made <;> exact hend removed
      · exact hend removed
    · cases hl
  | die =>
    cases hl
    rfl
  | restart lastCrash removed => cases hl

theorem Ended.act (h : Ended fl w) {l : Label n} (hrem : l.removes = true) (hl : act fl w l = some w') : Ended fl w' := by
  have hlaw := h.law.act hl
  unfold Sessions.act at hl
  split at hl
  · rename_i hlive
    have hnone := h.first hlive
    have hnone' : w'.history.reported = [] := (reported_live hl).trans hnone
    exact ⟨hlaw, h.file.live h.law hnone hrem hl, fun _ => hnone', by rw [hnone']; exact .nil, by rw [hnone']; nofun⟩
  · rename_i hdead
    split at hl
    · rename_i lastCrash removed
      cases hrem
      cases hl
      unfold restart at hlaw ⊢
      cases hv : w.file with
      | none => exact h
      | some v =>
        simp only [hv] at hlaw ⊢
        cases hs : fromValue fl v with
        | none =>
          rw [hs] at hlaw
          exact ⟨hlaw, .of_none rfl, h.first, h.distinct, h.apart⟩
        | some s =>
          have hold := h.file v s hv hs
          rw [hs] at hlaw
          refine ⟨hlaw, .of_none rfl, fun hlive => absurd hlive hdead, ?_, fun r hr u hu hid => ?_⟩
          · change ((w.history.reported ++ [leftBehind s lastCrash]).map Session.sessionId).Nodup
            rw [List.map_append, List.map_singleton, leftBehind_id, List.nodup_append]
            refine ⟨h.distinct, List.nodup_singleton _, fun a ha b hb hab => ?_⟩
            obtain ⟨r, hr, rfl⟩ := List.mem_map.mp ha
            exact hold.reported r hr (hab.trans (List.mem_singleton.mp hb))
          · rcases List.mem_append.mp hr with hr | hr
            · exact h.apart r hr u hu hid
            · rw [List.mem_singleton.mp hr, leftBehind_id] at hid
              exact hold.updates u hu hid
    · cases hl

theorem Ended.begin : Ended fl (begin : World n) where
  law := .begin
  file := .of_none rfl
  first _ := rfl
  distinct := .nil
  apart := nofun

theorem reachable_ended (h : Reachable (· = begin) (StepRemoving fl) w) : Ended fl w :=
  h.invariant (fun _ hs => hs ▸ .begin) fun _ _ hended ⟨_, hrem, hl⟩ => hended.act hrem hl

/-- **A session ends once**: whatever the threads do and whenever the process dies, no session has two final updates,
and none that had one is reported again by a later run. -/
theorem ended_once (h : Reachable (· = begin) (StepRemoving fl) w) : (ends w.history).Nodup := by
  obtain ⟨law, -, -, hdistinct, hapart⟩ := reachable_ended h
  rw [ends, List.nodup_append]
  refine ⟨?_, hdistinct, fun a ha b hb hab => ?_⟩
  · rw [List.Nodup, List.pairwise_map]
    refine (law.ordered.filter _).imp_of_mem fun {a b} ha _ hbefore hid => ?_
    have hfinal := (hbefore hid).1
    rw [(List.mem_filter.mp ha).2] at hfinal
    cases hfinal
  · obtain ⟨u, hu, rfl⟩ := List.mem_map.mp ha
    obtain ⟨r, hr, rfl⟩ := List.mem_map.mp hb
    have hfinal := hapart r hr u (List.mem_of_mem_filter hu) hab
    rw [(List.mem_filter.mp hu).2] at hfinal
    cases hfinal

/-- One session is ended, the next is left behind by a process that dies, and is reported once. -/
def twoLives (t : Fin n) : List (Label n) :=
  [.startSession t true, .newSession t someScope (fun _ => 1) 10 true .whole, .startSession t true, .capture t true,
    .submit t, .newSession t someScope (fun _ => 2) 20 true .whole, .die, .restart 0 true, .restart 0 true]

theorem ended_once_two : ∃ w : World 2,
    (ends w.history).map (fun id => id 0) = [1, 2] ∧ (ends w.history).Nodup := by
  obtain ⟨w, hw, hp⟩ := Reachable.exists_of_run (fun w l => if l.removes then act noFloats w l else none)
    (R := StepRemoving noFloats) (s := (begin : World 2)) (fun _ l _ h => by
      split at h
      · exact ⟨l, ‹_›, h⟩
      · cases h) (twoLives 0) (fun w => (ends w.history).map (fun id => id 0) = [1, 2]) (by decide +kernel)
  exact ⟨w, by simpa using hp, ended_once hw⟩

/-- A `session.json` that cannot be removed is reported by every later run. -/
example : (run (act noFloats) (begin : World 2) [.startSession 0 true, .newSession 0 someScope (fun _ => 1) 10 true .whole,
    .die, .restart 0 false, .restart 0 false]).any (fun w => (ends w.history).length = 2) = true := by decide +kernel

end SentryNative.Sessions
