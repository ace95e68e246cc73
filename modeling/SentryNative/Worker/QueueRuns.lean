import SentryNative.Worker.QueueSteps

/-!
# Every task is executed once, dropped or queued

The worker's own steps and the dropping of tasks keep the invariant, as long as
the worker does not mistake a later submission for the task it released.
-/

namespace SentryNative.Worker

open Linked

variable {s : State} {q l r : List Nat}

/-! ## The worker -/

theorem incref_taskData (a b : Nat) : ((s.incref a).mem b).taskData = (s.mem b).taskData := by
  simp only [State.incref, State.set]
  split
  · rename_i e
    rw [e]
  · rfl

theorem incref_executeAfter (a b : Nat) :
    ((s.incref a).mem b).executeAfter = (s.mem b).executeAfter := by
  simp only [State.incref, State.set]
  split
  · rename_i e
    rw [e]
  · rfl

theorem decref_taskData (a b : Nat) : ((s.decref a).mem b).taskData = (s.mem b).taskData := by
  simp only [State.decref, State.set]
  split
  · rename_i e
    rw [e]
  · rfl

theorem decref_executeAfter (a b : Nat) :
    ((s.decref a).mem b).executeAfter = (s.mem b).executeAfter := by
  simp only [State.decref, State.set]
  split
  · rename_i e
    rw [e]
  · rfl

theorem decref_nextTask (a b : Nat) : ((s.decref a).mem b).nextTask = (s.mem b).nextTask := by
  simp only [State.decref, State.set]
  split
  · rename_i e
    rw [e]
  · rfl

/-- The state in which the worker has taken the head of the queue. -/
def State.taken (s : State) (t : Nat) : State :=
  { s.incref t with currentTask := some t, worker := .exec t (s.mem t).taskData }

theorem Ledger.take {t : Nat} (h : Ledger s (t :: q)) (hw : s.worker = .idle) :
    Ledger (s.taken t) (t :: q) := by
  have hd : ∀ b, ((s.taken t).mem b).taskData = (s.mem b).taskData := incref_taskData t
  have hk : ∀ b, ((s.taken t).mem b).executeAfter = (s.mem b).executeAfter := incref_executeAfter t
  have hnone : s.currentTask = none := h.current (by simp [hw, WorkerPc.busy])
  have hun : ∀ b ∈ t :: q, (s.mem b).taskData ∉ s.executed := by
    intro b hb he
    have hc := h.unexecuted b hb he
    simp [hnone] at hc
  constructor
  · exact h.nodup
  · exact h.waiting_nodup
  · intro a ha
    obtain ⟨haq, -⟩ := h.waiting_fresh a ha
    refine ⟨haq, ?_⟩
    intro e
    cases e
    exact haq List.mem_cons_self
  · intro a
    refine (h.allocated a).trans ?_
    constructor
    · rintro (ha | ha | ha)
      · exact Or.inl ha
      · exact Or.inr (Or.inl ha)
      · simp [hw, WorkerPc.holds] at ha
    · rintro (ha | ha | ha)
      · exact Or.inl ha
      · exact Or.inr (Or.inl ha)
      · cases ha
        exact Or.inl List.mem_cons_self
  · intro a ha
    have hr := h.refcount a ha
    by_cases hat : a = t
    · subst hat
      simp only [State.taken, State.incref, State.set, ↓reduceIte, hr, State.refs, hw,
        WorkerPc.holds]
      simp
    · have hta : t ≠ a := fun e => hat e.symm
      simp only [State.taken, State.incref, State.set, hat, ↓reduceIte, hr, State.refs, hw,
        WorkerPc.holds]
      simp [hta]
  · simp only [hd]
    exact h.numbers
  · simp only [hd]
    exact h.numbered
  · intro a i hb hh
    cases hb
    exact hd t
  · intro a i hb
    cases hb
    exact Or.inl ⟨rfl, rfl, hd t⟩
  · intro hb
    cases hb
  · intro a i hb
    cases hb
    exact h.numbered t List.mem_cons_self
  · have hs : (t :: q).Pairwise s.Before := by simpa [State.rest, hnone] using h.sorted
    refine pairwise_before (List.pairwise_cons.mp hs).2 fun b _ => ⟨hk b, hd b⟩
  · exact h.once
  · exact h.executed_lt
  · intro a i hb
    cases hb
    have hn : (s.mem t).taskData ∉ s.executed := hun t List.mem_cons_self
    exact ⟨fun he => absurd he hn, fun hr => by cases hr⟩
  · intro a ha he
    rw [hd a] at he
    exact absurd he (hun a ha)
  · simp only [hd]
    exact h.kept
  · exact h.popped

theorem Ledger.exec {t i : Nat} (h : Ledger s q) (hw : s.worker = .exec t i) :
    Ledger { s with executed := s.executed ++ [(s.mem t).taskData], worker := .release t i } q := by
  have hbusy : s.worker.busy = some (t, i) := by rw [hw]; rfl
  have hholds : s.worker.holds = some t := by rw [hw]; rfl
  have hi : (s.mem t).taskData = i := h.holds t i hbusy hholds
  have hni : i ∉ s.executed := by
    rw [h.hasRun t i hbusy, hw]
    simp [WorkerPc.hasRun]
  have hholds' : WorkerPc.holds (.release t i) = s.worker.holds := hholds.symm
  have hbusy' : WorkerPc.busy (.release t i) = s.worker.busy := hbusy.symm
  rw [hi]
  constructor
  · exact h.nodup
  · exact h.waiting_nodup
  · intro a ha
    rw [hholds']
    exact h.waiting_fresh a ha
  · intro a
    rw [hholds']
    exact h.allocated a
  · intro a ha
    have hr := h.refcount a ha
    simpa only [State.refs, hholds'] using hr
  · exact h.numbers
  · exact h.numbered
  · intro a j hb hh
    rw [hbusy'] at hb
    rw [hholds'] at hh
    exact h.holds a j hb hh
  · intro a j hb
    rw [hbusy'] at hb
    exact h.busy a j hb
  · intro hb
    cases hb
  · intro a j hb
    rw [hbusy'] at hb
    exact h.busy_lt a j hb
  · exact h.sorted
  · refine List.nodup_append.mpr ⟨h.once, by simp, ?_⟩
    intro a ha b hb e
    rw [List.mem_singleton.mp hb] at e
    exact hni (e ▸ ha)
  · intro j hj
    rcases List.mem_append.mp hj with hj | hj
    · exact h.executed_lt j hj
    · rw [List.mem_singleton.mp hj]
      exact h.busy_lt t i hbusy
  · intro a j hb
    cases hb
    simp [WorkerPc.hasRun]
  · intro a ha he
    rcases List.mem_append.mp he with he | he
    · exact h.unexecuted a ha he
    · rcases h.busy t i hbusy with ⟨hc, hh, hti⟩ | ⟨-, hn⟩
      · have hta : t = a := h.eq_of_taskData (List.mem_of_mem_head? hh) ha
          (hti.trans (List.mem_singleton.mp he).symm)
        rw [← hta]
        exact hc
      · exact absurd (List.mem_singleton.mp he) (hn a ha)
  · intro j hj
    rcases h.kept j hj with he | hd | hq
    · exact Or.inl (List.mem_append_left _ he)
    · exact Or.inr (Or.inl hd)
    · exact Or.inr (Or.inr hq)
  · exact fun j hj => List.mem_append_left _ (h.popped j hj)

theorem Ledger.release {t i : Nat} (h : Ledger s q) (hw : s.worker = .release t i) :
    Ledger { s.decref t with worker := .pop t i } q := by
  have hbusy : s.worker.busy = some (t, i) := by rw [hw]; rfl
  have hholds : s.worker.holds = some t := by rw [hw]; rfl
  have hrun : s.worker.hasRun = true := by rw [hw]; rfl
  have hbusy' : WorkerPc.busy (.pop t i) = s.worker.busy := hbusy.symm
  have hd : ∀ b, ((s.decref t).mem b).taskData = (s.mem b).taskData := decref_taskData t
  have hk : ∀ b, ((s.decref t).mem b).executeAfter = (s.mem b).executeAfter :=
    decref_executeAfter t
  have htw : t ∉ s.waiting := fun ht => (h.waiting_fresh t ht).2 hholds
  have halloc : s.allocated t = true := (h.allocated t).mpr (Or.inr (Or.inr hholds))
  have href : (s.mem t).refcount = (if t ∈ q then 1 else 0) + 1 := by
    rw [h.refcount t halloc]
    simp [State.refs, htw, hholds]
  constructor
  · exact h.nodup
  · exact h.waiting_nodup
  · exact fun a ha => ⟨(h.waiting_fresh a ha).1, by simp [WorkerPc.holds]⟩
  · intro a
    by_cases hat : a = t
    · subst hat
      by_cases haq : a ∈ q
      · simp [State.decref, State.set, href, haq, halloc]
      · simp [State.decref, State.set, href, haq, htw, WorkerPc.holds]
    · have hta : t ≠ a := fun e => hat e.symm
      have hal := h.allocated a
      rw [hholds] at hal
      simpa [State.decref, State.set, hat, WorkerPc.holds, hta] using hal
  · intro a ha
    by_cases hat : a = t
    · subst hat
      simp [State.decref, State.set, href, State.refs, htw, WorkerPc.holds]
    · have hta : t ≠ a := fun e => hat e.symm
      have haa : s.allocated a = true := by simpa [State.decref, hat] using ha
      have hr := h.refcount a haa
      rw [State.refs, hholds] at hr
      simpa [State.decref, State.set, hat, State.refs, WorkerPc.holds, hta] using hr
  · simp only [hd]
    exact h.numbers
  · simp only [hd]
    exact h.numbered
  · intro a j hb hh
    cases hh
  · intro a j hb
    rw [hbusy'] at hb
    simp only [hd]
    exact h.busy a j hb
  · intro hb
    cases hb
  · intro a j hb
    rw [hbusy'] at hb
    exact h.busy_lt a j hb
  · exact pairwise_before h.sorted fun b _ => ⟨hk b, hd b⟩
  · exact h.once
  · exact h.executed_lt
  · intro a j hb
    rw [hbusy'] at hb
    rw [show (s.decref t).executed = s.executed from rfl, h.hasRun a j hb, hrun]
    simp [WorkerPc.hasRun]
  · simp only [hd]
    exact h.unexecuted
  · simp only [hd]
    exact h.kept
  · exact h.popped

/-! ## Taking a task off the list -/

/-- The list gives up its reference to a task, which ends as dropped or as popped. -/
def State.without (s : State) (t : Nat) (dropped popped : List Nat) : State :=
  { s with
    currentTask := if s.currentTask = some t then none else s.currentTask
    dropped := dropped
    popped := popped }.decref t

theorem Ledger.without {t : Nat} {dropped popped : List Nat} (h : Ledger s (l ++ t :: r))
    (hdrop : s.dropped ⊆ dropped)
    (ht : (s.mem t).taskData ∈ s.executed ∨ (s.mem t).taskData ∈ dropped)
    (hpop : ∀ i ∈ popped, i ∈ s.executed) :
    Ledger (s.without t dropped popped) (l ++ r) := by
  have hd : ∀ b, ((s.without t dropped popped).mem b).taskData = (s.mem b).taskData :=
    decref_taskData t
  have hk : ∀ b, ((s.without t dropped popped).mem b).executeAfter = (s.mem b).executeAfter :=
    decref_executeAfter t
  have hsub : (l ++ r).Sublist (l ++ t :: r) := (List.sublist_cons_self t r).append_left l
  have hmem : ∀ b, b ∈ l ++ t :: r ↔ b = t ∨ b ∈ l ++ r := by
    intro b
    simp only [List.mem_append, List.mem_cons]
    tauto
  have htq : t ∈ l ++ t :: r := (hmem t).mpr (Or.inl rfl)
  have htn : t ∉ l ++ r := (List.nodup_cons.mp (List.perm_middle.nodup_iff.mp h.nodup)).1
  have htw : t ∉ s.waiting := fun hw => (h.waiting_fresh t hw).1 htq
  have halloc : s.allocated t = true := (h.allocated t).mpr (Or.inl htq)
  have href : (s.mem t).refcount = 1 + if s.worker.holds = some t then 1 else 0 := by
    rw [h.refcount t halloc]
    simp [State.refs, htq]
  have hcur : ∀ c, s.currentTask = some c → c ≠ t → ∃ l', l = c :: l' := by
    intro c hc hct
    obtain ⟨hh, -⟩ := h.current_head hc
    cases l with
    | nil => exact absurd (Option.some.inj hh).symm hct
    | cons d l' => exact ⟨l', by rw [Option.some.inj hh]⟩
  constructor
  · exact h.nodup.sublist hsub
  · exact h.waiting_nodup
  · exact fun a ha => ⟨fun hq => (h.waiting_fresh a ha).1 (hsub.subset hq), (h.waiting_fresh a ha).2⟩
  · intro a
    by_cases hat : a = t
    · subst hat
      by_cases hh : s.worker.holds = some a
      · simp [State.without, State.decref, State.set, href, hh, halloc]
      · simp only [List.mem_append, not_or] at htn
        simp [State.without, State.decref, State.set, href, hh, htn, htw]
    · have hal := h.allocated a
      rw [hmem] at hal
      simpa [State.without, State.decref, State.set, hat] using hal
  · intro a ha
    by_cases hat : a = t
    · subst hat
      simp only [List.mem_append, not_or] at htn
      simp [State.without, State.decref, State.set, href, State.refs, htn, htw]
    · have haa : s.allocated a = true := by simpa [State.without, State.decref, hat] using ha
      have hr := h.refcount a haa
      simpa [State.without, State.decref, State.set, State.refs, hat] using hr
  · simp only [hd]
    exact h.numbers.sublist (hsub.map _)
  · simp only [hd]
    exact fun a ha => h.numbered a (hsub.subset ha)
  · simp only [hd]
    exact h.holds
  · intro a i hb
    simp only [hd]
    rcases h.busy a i hb with ⟨hc, hh, hi⟩ | ⟨hc, hi⟩
    · by_cases hat : a = t
      · subst hat
        refine Or.inr ⟨?_, fun b hb' hbi => ?_⟩
        · simp [State.without, State.decref, State.set, hc]
        · have hba : b = a := h.eq_of_taskData (hsub.subset hb') htq (hbi.trans hi.symm)
          exact htn (hba ▸ hb')
      · obtain ⟨l', rfl⟩ := hcur a hc hat
        refine Or.inl ⟨?_, rfl, hi⟩
        simp [State.without, State.decref, State.set, hc, hat]
    · refine Or.inr ⟨?_, fun b hb' => hi b (hsub.subset hb')⟩
      simp [State.without, State.decref, State.set, hc]
  · intro hb
    simp [State.without, State.decref, State.set, h.current hb]
  · exact h.busy_lt
  · have hs : ((s.without t dropped popped).rest (l ++ r)).Pairwise s.Before := by
      cases hc : s.currentTask with
      | none =>
        have hs : (l ++ t :: r).Pairwise s.Before := by simpa [State.rest, hc] using h.sorted
        simpa [State.rest, State.without, State.decref, State.set, hc] using hs.sublist hsub
      | some c =>
        have hs : (l ++ t :: r).tail.Pairwise s.Before := by simpa [State.rest, hc] using h.sorted
        by_cases hct : c = t
        · subst hct
          have hnil : l = [] := by
            cases l with
            | nil => rfl
            | cons d l' =>
              have hdc : d = c := Option.some.inj (h.current_head hc).1
              exact absurd (List.mem_append_left r (hdc ▸ List.mem_cons_self)) htn
          subst hnil
          simpa [State.rest, State.without, State.decref, State.set, hc] using hs
        · obtain ⟨l', rfl⟩ := hcur c hc hct
          have hs' : (l' ++ r).Pairwise s.Before :=
            hs.sublist ((List.sublist_cons_self t r).append_left l')
          simpa [State.rest, State.without, State.decref, State.set, hc, hct] using hs'
    exact pairwise_before hs fun b _ => ⟨hk b, hd b⟩
  · exact h.once
  · exact h.executed_lt
  · exact h.hasRun
  · intro a ha he
    rw [hd a] at he
    have hc := h.unexecuted a (hsub.subset ha) he
    have hat : a ≠ t := fun e => htn (e ▸ ha)
    simp [State.without, State.decref, State.set, hc, hat]
  · intro i hi
    simp only [hd]
    rcases h.kept i hi with he | hdr | ⟨a, ha, hai⟩
    · exact Or.inl he
    · exact Or.inr (Or.inl (hdrop hdr))
    · rcases (hmem a).mp ha with rfl | ha
      · rw [← hai]
        rcases ht with ht | ht
        · exact Or.inl ht
        · exact Or.inr (Or.inl ht)
      · exact Or.inr (Or.inr ⟨a, ha, hai⟩)
  · exact hpop

theorem SameTasks.decref {t : State} (e : SameTasks s t) (a : Nat) :
    SameTasks (s.decref a) (t.decref a) := by
  obtain ⟨hr, hx, hf, hd, ha, hw, hc, hk, hs, he, hdr, hp⟩ := e
  constructor <;> try assumption
  · intro b
    simp only [State.decref, State.set]
    split
    · simp only [hr]
    · exact hr b
  · simp only [decref_executeAfter, hx, implies_true]
  · intro b
    simp only [State.decref, State.set]
    split
    · exact hf a
    · exact hf b
  · simp only [decref_taskData, hd, implies_true]
  · simp only [State.decref, hr, ha]

/-- The first write of `unlink`. -/
def State.bypass (s : State) (prev next : Option Nat) : State :=
  match prev with
  | some p => s.setNext p next
  | none => { s with firstTask := next }

/-- The second write of `unlink`. -/
def State.letGo (s : State) (task : Nat) (next : Option Nat) : State :=
  match s.currentTask with
  | none => s
  | some c =>
    if c = task then { s with currentTask := none }
    else if s.next c = some task then s.setNext c next
    else s

theorem unlink_eq_letGo (s : State) (prev : Option Nat) (task : Nat) (next : Option Nat) :
    s.unlink prev task next = (s.bypass prev next).letGo task next := rfl

theorem bypass_sameTasks (s : State) (prev next : Option Nat) :
    SameTasks s (s.bypass prev next) := by
  cases prev with
  | none => constructor <;> intros <;> rfl
  | some p => exact SameTasks.setNext s p next

theorem bypass_next (prev next : Option Nat) (b : Nat) :
    (s.bypass prev next).next b = if prev = some b then next else s.next b := by
  cases prev with
  | none => simp [State.bypass, State.next]
  | some p => simp [State.bypass, setNext_next, eq_comm]

theorem bypass_linked {t : Nat} (h : Segment s.next s.firstTask (l ++ t :: r) none)
    (hd : (l ++ t :: r).Nodup) :
    Segment (s.bypass l.getLast? r.head?).next (s.bypass l.getLast? r.head?).firstTask
      (l ++ r) none := by
  obtain ⟨m, hl, hm, hr⟩ := segment_append.mp h
  have hn : s.next t = r.head? := hr.start_eq
  have hdis := List.disjoint_of_nodup_append hd
  have htail : Segment (s.bypass l.getLast? r.head?).next r.head? r none := by
    rw [← hn]
    refine hr.congr fun b hb => ?_
    rw [bypass_next, if_neg]
    intro e
    exact hdis (List.mem_of_getLast? e) (List.mem_cons_of_mem t hb)
  refine segment_append.mpr ⟨r.head?, ?_, htail⟩
  rcases List.eq_nil_or_concat l with rfl | ⟨l', p, rfl⟩
  · rfl
  · rw [List.concat_eq_append] at hl hd ⊢
    have hlast : (l' ++ [p]).getLast? = some p := by simp
    rw [hlast]
    refine hl.relink (fun b hb => ?_) ?_
    · rw [bypass_next, if_neg]
      intro e
      have hnd : (l' ++ [p]).Nodup := (List.nodup_append.mp hd).1
      exact (List.disjoint_of_nodup_append hnd) hb (by simp [Option.some.inj e])
    · rw [bypass_next, if_pos rfl]

/-- Once its predecessor was written, nothing on the list leads to a task any more. -/
theorem bypass_next_ne {t c : Nat} (h : Segment s.next s.firstTask (l ++ t :: r) none)
    (hd : (l ++ t :: r).Nodup) (hc : c ∈ l) :
    (s.bypass l.getLast? r.head?).next c ≠ some t := by
  obtain ⟨m, hl, -, hr⟩ := segment_append.mp h
  obtain ⟨l', p, rfl⟩ := (List.eq_nil_or_concat l).resolve_left (List.ne_nil_of_mem hc)
  rw [List.concat_eq_append] at *
  have hdis := List.disjoint_of_nodup_append hd
  rw [bypass_next]
  split
  · intro e
    have htr : t ∈ r := List.mem_of_mem_head? e
    have hnd : (t :: r).Nodup := (List.nodup_append.mp hd).2.1
    exact (List.nodup_cons.mp hnd).1 htr
  · rename_i hne
    have hcl : c ∈ l' := by
      rcases List.mem_append.mp hc with hc | hc
      · exact hc
      · refine absurd ?_ hne
        rw [List.mem_singleton.mp hc]
        simp
    obtain ⟨d, hdm, hdn⟩ := hl.next_mem hcl
    intro e
    rw [hdn] at e
    exact hdis hdm (by rw [Option.some.inj e]; exact List.mem_cons_self)

/-- What dropping a task does to the list, as seen by the rest of the invariant. -/
theorem Inv.unlink_eq {t : Nat} (h : Inv s (l ++ t :: r)) :
    s.unlink l.getLast? t r.head? =
      { s.bypass l.getLast? r.head? with
        currentTask := if s.currentTask = some t then none else s.currentTask } := by
  have hcur := (bypass_sameTasks s l.getLast? r.head?).currentTask
  rw [unlink_eq_letGo, State.letGo, hcur]
  cases hc : s.currentTask with
  | none =>
    rw [hc] at hcur
    simp [← hcur]
  | some c =>
    rw [hc] at hcur
    by_cases hct : c = t
    · simp [hct]
    · have hcl : c ∈ l := by
        obtain ⟨hh, -⟩ := h.current_head hc
        cases l with
        | nil => exact absurd (Option.some.inj hh).symm hct
        | cons d l' => exact Option.some.inj hh ▸ List.mem_cons_self
      simp only [hct, bypass_next_ne h.linked h.nodup hcl, ↓reduceIte, Option.some.injEq]
      rw [← hcur]

theorem Inv.drop {t : Nat} (h : Inv s (l ++ t :: r)) : Inv (s.drop l.getLast? t) (l ++ r) := by
  obtain ⟨m, -, -, hr⟩ := segment_append.mp h.linked
  have hn : (s.mem t).nextTask = r.head? := hr.start_eq
  have hsame := bypass_sameTasks s l.getLast? r.head?
  have hdrop : s.drop l.getLast? t =
      ({ s.bypass l.getLast? r.head? with
        currentTask := if s.currentTask = some t then none else s.currentTask
        dropped := s.dropped ++ [(s.mem t).taskData] } : State).decref t := by
    rw [State.drop, hn, h.unlink_eq, hsame.dropped, hsame.taskData]
  have hwithout : SameTasks (s.without t (s.dropped ++ [(s.mem t).taskData]) s.popped)
      (s.drop l.getLast? t) := by
    rw [hdrop]
    refine SameTasks.decref ?_ t
    exact ⟨hsame.refcount, hsame.executeAfter, hsame.execFunc, hsame.taskData, hsame.allocated,
      hsame.waiting, rfl, hsame.worker, hsame.submitted, hsame.executed, rfl, hsame.popped⟩
  have hnext : ∀ b, (s.drop l.getLast? t).next b = (s.bypass l.getLast? r.head?).next b := by
    intro b
    rw [hdrop]
    exact decref_nextTask t b
  refine ⟨hwithout.ledger (h.toLedger.without (by simp) (Or.inr (by simp)) h.popped), ?_, ?_⟩
  · have hfirst : (s.drop l.getLast? t).firstTask = (s.bypass l.getLast? r.head?).firstTask := by
      rw [hdrop]
      rfl
    rw [hfirst]
    exact (bypass_linked h.linked h.nodup).congr fun b _ => hnext b
  · intro b hb
    rw [hwithout.waiting] at hb
    have hbn : (s.drop l.getLast? t).next b = s.next b := by
      rw [hnext, bypass_next, if_neg]
      intro e
      exact (h.waiting_fresh b hb).1 (List.mem_append_left _ (List.mem_of_getLast? e))
    exact hbn.trans (h.waiting_next b hb)

/-- The loop always ends, and leaves the tasks it was not asked to drop. -/
theorem Inv.foreachLoop (dropTask : Task → Bool) {n : Nat} (h : Inv s (l ++ r))
    (hn : r.length ≤ n) :
    ∃ t q', State.foreachLoop dropTask n s l.getLast? r.head? = some t ∧ Inv t q' ∧
      t.lastTask = q'.getLast? := by
  induction r generalizing s l n with
  | nil =>
    refine ⟨{ s with lastTask := l.getLast? }, l, ?_, ?_, rfl⟩
    · cases n <;> rfl
    · rw [List.append_nil] at h
      obtain ⟨hl, hlinked, hnext⟩ := h
      refine ⟨?_, hlinked, hnext⟩
      have hsame : SameTasks s { s with lastTask := l.getLast? } := by
        constructor <;> intros <;> rfl
      exact hsame.ledger hl
  | cons t r ih =>
    cases n with
    | zero => simp at hn
    | succ n =>
      have hlen : r.length ≤ n := by simpa using hn
      obtain ⟨m, -, -, hr⟩ := segment_append.mp h.linked
      have hnt : (s.mem t).nextTask = r.head? := hr.start_eq
      simp only [List.head?_cons, State.foreachLoop, hnt]
      split
      · exact ih h.drop hlen
      · have h' : Inv s ((l ++ [t]) ++ r) := by simpa using h
        have hlast : (l ++ [t]).getLast? = some t := by simp
        rw [← hlast]
        exact ih h' hlen

theorem Ledger.idle {t i : Nat} (h : Ledger s q) (hw : s.worker = .pop t i)
    (hc : s.currentTask = none) : Ledger { s with worker := .idle } q := by
  have hh : s.worker.holds = none := by rw [hw]; rfl
  have hh' : WorkerPc.holds .idle = s.worker.holds := hh.symm
  constructor
  · exact h.nodup
  · exact h.waiting_nodup
  · rw [hh']
    exact h.waiting_fresh
  · rw [hh']
    exact h.allocated
  · simp only [State.refs, hh']
    exact h.refcount
  · exact h.numbers
  · exact h.numbered
  · exact fun a i hb => by cases hb
  · exact fun a i hb => by cases hb
  · exact fun _ => hc
  · exact fun a i hb => by cases hb
  · exact h.sorted
  · exact h.once
  · exact h.executed_lt
  · exact fun a i hb => by cases hb
  · exact h.unexecuted
  · exact h.kept
  · exact h.popped

/-! ## Runs -/

/-- The invariant between two steps. -/
def Queued (s : State) : Prop := ∃ q, Inv s q ∧ s.lastTask = q.getLast?

theorem Queued.take {t : Nat} (h : Queued s) (hw : s.worker = .idle) (ht : s.firstTask = some t) :
    Queued (s.taken t) := by
  obtain ⟨q, hi, hl⟩ := h
  have hq : q.head? = some t := hi.linked.start_eq ▸ ht
  obtain ⟨x, rfl⟩ := List.head?_eq_some_iff.mp hq
  have hn : ∀ b, (s.taken t).next b = s.next b := by
    intro b
    simp only [State.next, State.taken, State.incref, State.set]
    split
    · rename_i e
      rw [e]
    · rfl
  refine ⟨t :: x, ⟨hi.toLedger.take hw, hi.linked.congr fun b _ => hn b, fun a ha => ?_⟩, hl⟩
  exact (hn a).trans (hi.waiting_next a ha)

theorem Queued.release {t i : Nat} (h : Queued s) (hw : s.worker = .release t i) :
    Queued { s.decref t with worker := .pop t i } := by
  obtain ⟨q, hi, hl⟩ := h
  refine ⟨q, ⟨hi.toLedger.release hw, hi.linked.congr fun b _ => decref_nextTask t b, ?_⟩, hl⟩
  exact fun a ha => (decref_nextTask t a).trans (hi.waiting_next a ha)

/-- The worker pops the task it has executed. -/
theorem Queued.pop_head {t i : Nat} (h : Queued s) (hw : s.worker = .pop t i)
    (hf : s.firstTask = some t) (hi : (s.mem t).taskData = i) :
    Queued (({ s with
      currentTask := none
      worker := .idle
      firstTask := (s.mem t).nextTask
      lastTask := if s.lastTask = some t then none else s.lastTask
      popped := s.popped ++ [(s.mem t).taskData] } : State).decref t) := by
  obtain ⟨q, h, hl⟩ := h
  have hbusy : s.worker.busy = some (t, i) := by rw [hw]; rfl
  have hq : q.head? = some t := h.linked.start_eq ▸ hf
  obtain ⟨x, rfl⟩ := List.head?_eq_some_iff.mp hq
  have hcur : s.currentTask = some t := by
    rcases h.busy t i hbusy with ⟨hc, -, -⟩ | ⟨-, hn⟩
    · exact hc
    · exact absurd hi (hn t List.mem_cons_self)
  have hexec : (s.mem t).taskData ∈ s.executed := by
    rw [hi, h.hasRun t i hbusy, hw]
    rfl
  have hled := @Ledger.without s [] x t s.dropped (s.popped ++ [(s.mem t).taskData]) h.toLedger
    (List.Subset.refl _) (Or.inl hexec) (fun j hj => by
      rcases List.mem_append.mp hj with hj | hj
      · exact h.popped j hj
      · rw [List.mem_singleton.mp hj]
        exact hexec)
  have hidle := @Ledger.idle _ _ t i hled hw
    (by simp [State.without, State.decref, State.set, hcur])
  refine ⟨x, ⟨?_, ?_, ?_⟩, ?_⟩
  · refine SameTasks.ledger ?_ hidle
    constructor <;> intros <;> try rfl
    simp [State.without, State.decref, State.set, hcur]
  · exact h.linked.2.congr fun b _ => decref_nextTask t b
  · exact fun a ha => (decref_nextTask t a).trans (h.waiting_next a ha)
  · have hnt : t ∉ x := (List.nodup_cons.mp h.nodup).1
    have hlast : (if s.lastTask = some t then none else s.lastTask) = x.getLast? := by
      rw [hl]
      cases hx : x.getLast? with
      | none =>
        rw [List.getLast?_eq_none_iff] at hx
        simp [hx]
      | some p =>
        have hpt : p ≠ t := fun e => hnt (e ▸ List.mem_of_getLast? hx)
        simp [List.getLast?_cons, hx, hpt]
    exact hlast

/-- The task was dropped while it was executing: the worker leaves the list alone. -/
theorem Queued.pop_other {t i : Nat} (h : Queued s) (hw : s.worker = .pop t i)
    (hf : s.firstTask ≠ some t) : Queued { s with currentTask := none, worker := .idle } := by
  obtain ⟨q, h, hl⟩ := h
  have hbusy : s.worker.busy = some (t, i) := by rw [hw]; rfl
  have hcur : s.currentTask = none := by
    rcases h.busy t i hbusy with ⟨-, hh, -⟩ | ⟨hn, -⟩
    · exact absurd (h.linked.start_eq.trans hh) hf
    · exact hn
  have heq : ({ s with currentTask := none, worker := .idle } : State) =
      { s with worker := .idle } := by rw [← hcur]
  rw [heq]
  exact ⟨q, ⟨h.toLedger.idle hw hcur, h.linked, h.waiting_next⟩, hl⟩

/-- Flags do not touch the queue. -/
theorem Queued.congr {t : State} (h : Queued s) (e : SameTasks s t) (hm : t.mem = s.mem)
    (hf : t.firstTask = s.firstTask) (hl : t.lastTask = s.lastTask) : Queued t := by
  obtain ⟨q, h, hlast⟩ := h
  refine ⟨q, ⟨e.ledger h.toLedger, ?_, ?_⟩, hl.trans hlast⟩
  · rw [hf]
    exact h.linked.congr fun b _ => by rw [State.next, State.next, hm]
  · rw [e.waiting, hm]
    exact h.waiting_next

/-- No critical section gets stuck. -/
theorem Queued.foreachMatching (h : Queued s) (execFunc : Nat)
    (callback : Option (Nat → Bool)) :
    ∃ t, s.foreachMatching execFunc callback = some t ∧ Queued t := by
  obtain ⟨q, h, hl⟩ := h
  have hlen := h.length_le
  obtain ⟨t, q', ht, hi, hlast⟩ := @Inv.foreachLoop s [] q
    (fun t => t.execFunc == execFunc && callback.all (· t.taskData)) (s.submitted + 1)
    h (by omega)
  refine ⟨t, ?_, q', hi, hlast⟩
  rw [State.foreachMatching, h.linked.start_eq]
  exact ht

theorem Queued.link (h : Queued s) {a : Nat} (ha : a ∈ s.waiting) :
    ∃ t, (s.number a).submitAt a = some t ∧ Queued t := by
  obtain ⟨q, h, hl⟩ := h
  obtain ⟨t, q', ht, hi, hlast⟩ := h.link hl ha
  exact ⟨t, ht, q', hi, hlast⟩

theorem Queued.stop (h : Queued s) (hw : s.worker = .idle) :
    Queued { s with worker := .stopped } := by
  obtain ⟨q, h, hl⟩ := h
  have hc : s.currentTask = none := h.current (by rw [hw]; rfl)
  have hh : WorkerPc.holds .stopped = s.worker.holds := by rw [hw]; rfl
  have hb : WorkerPc.busy .stopped = s.worker.busy := by rw [hw]; rfl
  refine ⟨q, ⟨⟨h.nodup, h.waiting_nodup, ?_, ?_, ?_, h.numbers, h.numbered, ?_, ?_, fun _ => hc, ?_,
    h.sorted, h.once, h.executed_lt, ?_, h.unexecuted, h.kept, h.popped⟩, h.linked,
    h.waiting_next⟩, hl⟩
  · rw [hh]
    exact h.waiting_fresh
  · rw [hh]
    exact h.allocated
  · simp only [State.refs, hh]
    exact h.refcount
  all_goals
    intro a i hbusy
    cases hbusy

theorem Queued.step {t : State} (h : Queued s) {l : Label} (hn : NotReused s l)
    (hs : Worker.step s l = some t) : Queued t := by
  cases l with
  | alloc a k f =>
    simp only [Worker.step] at hs
    split at hs
    · cases hs
    · rename_i ha
      cases hs
      obtain ⟨q, hi, hl⟩ := h
      exact ⟨q, hi.alloc (by simpa using ha), hl⟩
  | link a =>
    simp only [Worker.step] at hs
    split at hs
    · rename_i ha
      obtain ⟨u, hu, hq⟩ := h.link ha
      rw [hu] at hs
      cases hs
      exact hq
    · cases hs
  | take checked now =>
    simp only [Worker.step] at hs
    split at hs
    · rename_i u hw hf
      split at hs
      · cases hs
      · cases hs
        exact h.take hw hf
    · cases hs
  | exec =>
    simp only [Worker.step] at hs
    split at hs
    · rename_i u i hw
      cases hs
      obtain ⟨q, hi, hl⟩ := h
      exact ⟨q, ⟨hi.toLedger.exec hw, hi.linked, hi.waiting_next⟩, hl⟩
    · cases hs
  | release =>
    simp only [Worker.step] at hs
    split at hs
    · rename_i u i hw
      cases hs
      exact h.release hw
    · cases hs
  | pop =>
    simp only [Worker.step] at hs
    split at hs
    · rename_i u i hw
      split at hs
      · rename_i hf
        cases hs
        exact h.pop_head hw hf (hn u i hw hf)
      · rename_i hf
        cases hs
        exact h.pop_other hw hf
    · cases hs
  | foreachMatching execFunc callback =>
    obtain ⟨u, hu, hq⟩ := h.foreachMatching execFunc callback
    simp only [Worker.step, hu] at hs
    cases hs
    exact hq
  | shutdown =>
    cases hs
    exact h.congr (by constructor <;> intros <;> rfl) rfl rfl rfl
  | drain =>
    cases hs
    exact h.congr (by constructor <;> intros <;> rfl) rfl rfl rfl
  | stop now =>
    simp only [Worker.step] at hs
    split at hs
    · rename_i hw
      cases hs
      exact h.stop hw.1
    · cases hs

theorem ReachableNotReused.queued (h : ReachableNotReused s) : Queued s :=
  Machine.Reachable.invariant (by rintro s rfl; exact ⟨[], inv_start, rfl⟩)
    (fun _ _ hi ⟨_, hn, hs⟩ => hi.step hn hs) h

/-- **Every task is executed once, dropped or queued** in every run in which the
head of the queue is never a later submission at the address of the task the
worker has released. The list stays in order, and no critical section fails. -/
theorem queue_sound_of_not_reused (h : ReachableNotReused s) :
    (∃ q, s.Sound q) ∧ (∀ a ∈ s.waiting, (step s (.link a)).isSome = true) ∧
      ∀ f cb, (step s (.foreachMatching f cb)).isSome = true := by
  have hq := h.queued
  refine ⟨?_, fun a ha => ?_, fun f cb => ?_⟩
  · obtain ⟨q, hi, hl⟩ := hq
    exact ⟨q, hi.sound hl⟩
  · obtain ⟨t, ht, -⟩ := hq.link ha
    simp [Worker.step, ha, ht]
  · obtain ⟨t, ht, -⟩ := hq.foreachMatching f cb
    simp [Worker.step, ht]

/-- The steps of a run without a reused head. -/
def stepNotReused (s : State) (l : Label) : Option State :=
  if s.worker.busy.all fun p => s.firstTask ≠ some p.1 ∨ (s.mem p.1).taskData = p.2 then step s l
  else none

theorem stepNotReused_cases (s : State) (l : Label) (t : State)
    (h : stepNotReused s l = some t) : ∃ l, NotReused s l ∧ step s l = some t := by
  simp only [stepNotReused] at h
  split at h
  · rename_i hall
    refine ⟨l, ?_, h⟩
    cases l with
    | pop =>
      intro a i hw hf
      simpa [hw, WorkerPc.busy, hf] using hall
    | _ => trivial
  · cases h

/-- A task submitted during an execution goes behind the executing one and is dropped. -/
theorem queue_sound_of_not_reused_dropped :
    ∃ s, ReachableNotReused s ∧ (s.executed = [1] ∧ s.dropped = [2] ∧ s.popped = [1]) ∧
      ((∃ q, s.Sound q) ∧ (∀ a ∈ s.waiting, (step s (.link a)).isSome = true) ∧
        ∀ f cb, (step s (.foreachMatching f cb)).isSome = true) := by
  obtain ⟨s, hs, he⟩ : ∃ s, ReachableNotReused s ∧
      decide (s.executed = [1] ∧ s.dropped = [2] ∧ s.popped = [1]) = true :=
    Machine.Reachable.exists_of_run stepNotReused stepNotReused_cases
      [.alloc 10 5 1, .link 10, .alloc 11 3 1, .link 11, .take 9 9, .alloc 12 1 7, .link 12, .exec,
        .foreachMatching 7 none, .release, .pop]
      (fun s => decide (s.executed = [1] ∧ s.dropped = [2] ∧ s.popped = [1])) (by decide)
  exact ⟨s, hs, of_decide_eq_true he, queue_sound_of_not_reused hs⟩

/-- The executing task is dropped and released, its address is handed to a new
submission, and the worker pops that one unexecuted. -/
theorem popped_unexecuted : ∃ s, Reachable s ∧ ∀ q, ¬ s.Sound q := by
  obtain ⟨s, hs, he⟩ : ∃ s, Reachable s ∧ decide (1 ∈ s.popped ∧ 1 ∉ s.executed) = true :=
    Machine.Reachable.exists_of_run step (fun _ l _ h => ⟨l, h⟩)
      [.alloc 10 0 1, .link 10, .take 9 9, .exec, .foreachMatching 1 none, .release,
        .alloc 10 0 1, .link 10, .pop]
      (fun s => decide (1 ∈ s.popped ∧ 1 ∉ s.executed)) (by decide)
  obtain ⟨hp, hn⟩ := of_decide_eq_true he
  exact ⟨s, hs, fun q hq => hn (hq.popped 1 hp)⟩

end SentryNative.Worker
