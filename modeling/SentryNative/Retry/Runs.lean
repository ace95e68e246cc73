import Mathlib.Data.List.Chain
import SentryNative.Retry.Round

/-!
# The life of an enqueued envelope

From the write of its file an envelope is queued under a name that counts its
failures, until an event takes it out of the queue for good.
-/

namespace SentryNative.Retry

open CLib

variable {keep : CacheKeep} {s : State} {d : Dir}

instance (v : Event) : Decidable v.Failed :=
  match hr : v.reply with
  | none => isFalse fun ⟨r, h, _⟩ => by simp [hr] at h
  | some r => decidable_of_iff (r.status < 0) ⟨fun h => ⟨r, hr, h⟩, fun ⟨r', h, hs⟩ => by
      rw [hr] at h
      cases h
      exact hs⟩

/-- The file could not be read, was answered, or failed for the last time. -/
def Event.Leaves (v : Event) : Prop :=
  ∀ r, v.reply = some r → 0 ≤ r.status ∨ retryAttempts ≤ v.item.count + 1

/-- The second of two attempts kept the backoff, if it was asked to. -/
def KeepsBackoff (a b : Event) : Prop :=
  b.before = 0 → ∀ r, a.reply = some r → r.now + retryBackoff b.item.count ≤ b.now

/-- What happened to an envelope. -/
def State.events (s : State) (e : Envelope) : List Event := s.log.filter (·.envelope = some e)

/-- The calls of `send_cb` with an envelope. -/
def State.attempts (s : State) (e : Envelope) : List Event := (s.events e).filter (·.reply.isSome)

def State.failures (s : State) (e : Envelope) : Nat := (s.events e).countP fun v => v.Failed

/-- An envelope is queued under its number of failures, or left after an event. -/
inductive Life (s : State) (q : Enqueued) : Prop where
  | queued (ts : Nat) (hts : ts < 2 ^ 64) (hlen : (s.events q.envelope).length < 6)
      (hmem : (makeCachePath ts (s.events q.envelope).length q.uuid.asString, q.envelope) ∈
        s.dir.queue)
      (hfail : ∀ v ∈ s.events q.envelope, v.Failed)
      (hlast : ∀ v ∈ (s.events q.envelope).getLast?, ∀ r, v.reply = some r → ts = r.now)
  | gone (hlen : (s.events q.envelope).length ≤ 6)
      (hearly : ∀ v ∈ (s.events q.envelope).dropLast, v.Failed)
      (hout : ∀ f ∈ s.dir.queue, f.2.id ≠ q.envelope.id)
      (v : Event) (hv : (s.events q.envelope).getLast? = some v) (hleaves : v.Leaves)

structure Inv (s : State) : Prop where
  tidy : Tidy s.dir
  queue_lt : ∀ f ∈ s.dir.queue, f.2.id < s.next
  log_lt : ∀ v ∈ s.log, ∀ e ∈ v.envelope, e.id < s.next
  enqueued_lt : ∀ q ∈ s.enqueued, q.envelope.id < s.next
  life : ∀ q ∈ s.enqueued, Life s q
  backoff : ∀ q ∈ s.enqueued, (s.events q.envelope).IsChain KeepsBackoff

theorem Start.inv (h : Start s) : Inv s := by
  obtain ⟨htidy, hlt, hlog, henq⟩ := h
  refine ⟨htidy, hlt, ?_, ?_, ?_, ?_⟩
  · simp [hlog]
  · simp [henq]
  · simp [henq]
  · simp [henq]

/-! ## Enqueueing -/

theorem Inv.enqueue (h : Inv s) {eventId : Option Uuid} {fresh : Uuid} {usec : UInt64}
    (hfree : (s.enqueue eventId fresh usec).name ∉ s.dir.names) :
    Inv (step keep s (.enqueue eventId fresh usec)) := by
  have hlt : usec.toNat / 1000 < 2 ^ 64 := by
    have hu : usec.toNat < 2 ^ 64 := usec.toNat_lt
    omega
  generalize hq : s.enqueue eventId fresh usec = q at hfree
  have hid : q.envelope.id = s.next := by rw [← hq]; rfl
  have hname : q.name = makeCachePath (usec.toNat / 1000) (0 : Nat) q.uuid.asString := by
    rw [← hq]
    rfl
  have hstep : step keep s (.enqueue eventId fresh usec) = { s with
      dir := s.dir.write q.name q.envelope
      enqueued := s.enqueued ++ [q]
      next := s.next + 1 } := by
    rw [← hq]
    rfl
  have hretry : (retryItem q.name).isSome = true := by
    rw [hname, retryItem_make q.uuid hlt (by decide)]
    rfl
  have hqueue : (s.dir.write q.name q.envelope).queue = s.dir.queue ++ [(q.name, q.envelope)] := by
    refine Dir.queue_write hretry (fun hc => hfree ?_) _
    obtain ⟨f, hf, hfn⟩ := List.mem_map.mp hc
    exact hfn ▸ List.mem_map_of_mem (Dir.mem_queue.mp hf).1
  have hnone : s.events q.envelope = [] := by
    refine List.filter_eq_nil_iff.mpr fun v hv he => ?_
    have hve : v.envelope = some q.envelope := by simpa using he
    exact absurd (h.log_lt v hv q.envelope hve) (by omega)
  rw [hstep]
  refine ⟨⟨Dir.nodup_write h.tidy.nodup _ _, ?_, ?_⟩, ?_, ?_, ?_, ?_, ?_⟩
  · intro f hf
    rw [hqueue] at hf
    rcases List.mem_append.mp hf with hf | hf
    · exact h.tidy.named f hf
    · rw [List.mem_singleton.mp hf]
      exact ⟨_, 0, q.uuid, hlt, by decide, hname⟩
  · rw [hqueue, List.map_append]
    refine List.nodup_append.mpr ⟨h.tidy.distinct, by simp, ?_⟩
    intro a ha b hb e
    obtain ⟨f, hf, rfl⟩ := List.mem_map.mp ha
    simp only [List.map_cons, List.map_nil, List.mem_singleton] at hb
    exact absurd (h.queue_lt f hf) (by omega)
  · intro f hf
    rw [hqueue] at hf
    rcases List.mem_append.mp hf with hf | hf
    · exact Nat.lt_succ_of_lt (h.queue_lt f hf)
    · rw [List.mem_singleton.mp hf]
      exact hid ▸ Nat.lt_succ_self _
  · exact fun v hv e he => Nat.lt_succ_of_lt (h.log_lt v hv e he)
  · intro p hp
    rcases List.mem_append.mp hp with hp | hp
    · exact Nat.lt_succ_of_lt (h.enqueued_lt p hp)
    · rw [List.mem_singleton.mp hp]
      exact hid ▸ Nat.lt_succ_self _
  · intro p hp
    rcases List.mem_append.mp hp with hp | hp
    · cases h.life p hp with
      | queued ts hts hlen hmem hfail hlast =>
        exact .queued ts hts hlen (by rw [hqueue]; exact List.mem_append_left _ hmem) hfail hlast
      | gone hlen hearly hout v hv hleaves =>
        refine .gone hlen hearly (fun f hf => ?_) v hv hleaves
        rw [hqueue] at hf
        rcases List.mem_append.mp hf with hf | hf
        · exact hout f hf
        · rw [List.mem_singleton.mp hf]
          intro e
          have he : q.envelope.id = p.envelope.id := e
          exact absurd (h.enqueued_lt p hp) (by omega)
    · rw [List.mem_singleton.mp hp]
      refine .queued (usec.toNat / 1000) hlt ?_ ?_ ?_ ?_
      · exact lt_of_eq_of_lt (congrArg List.length hnone) (by decide)
      · have hlen : (s.events q.envelope).length = 0 := by rw [hnone]; rfl
        refine hqueue ▸ List.mem_append_right _ (List.mem_singleton.mpr ?_)
        rw [hname]
        exact congrArg (fun n : Nat => (makeCachePath _ n q.uuid.asString, q.envelope)) hlen
      · intro v hv
        have hv' : v ∈ s.events q.envelope := hv
        rw [hnone] at hv'
        cases hv'
      · intro v hv
        have hv' : v ∈ (s.events q.envelope).getLast? := hv
        rw [hnone] at hv'
        cases hv'
  · intro p hp
    rcases List.mem_append.mp hp with hp | hp
    · exact h.backoff p hp
    · rw [List.mem_singleton.mp hp]
      have hchain : (s.events q.envelope).IsChain KeepsBackoff := by
        rw [hnone]
        exact List.IsChain.nil
      exact hchain

/-! ## A round -/

theorem filter_eq_singleton {α β : Type*} [DecidableEq β] {f : α → β} {l : List α}
    (h : (l.map f).Nodup) {a : α} (ha : a ∈ l) : l.filter (fun x => f x = f a) = [a] := by
  obtain ⟨x, y, rfl⟩ := List.append_of_mem ha
  have hmap : (x.map f ++ f a :: y.map f).Nodup := by simpa using h
  have hdis := (List.nodup_cons.mp (List.perm_middle.nodup_iff.mp hmap)).1
  rw [List.mem_append, not_or] at hdis
  have hnil : ∀ z : List α, f a ∉ z.map f → z.filter (fun x => f x = f a) = [] := by
    intro z hz
    refine List.filter_eq_nil_iff.mpr fun b hb he => hz ?_
    have hba : f b = f a := by simpa using he
    exact hba ▸ List.mem_map_of_mem hb
  rw [List.filter_append, List.filter_cons_of_pos (by simp), hnil x hdis.1, hnil y hdis.2]
  rfl

section Round

variable {c : Call} {items : List Item} {q q' : Dir} {events : List Event}

/-- Every file that a round leaves in the queue is there for an envelope that was. -/
theorem Rounded.from_queue (h : Rounded c items q events q') {g : Bytes × Envelope} (hg : g ∈ q') :
    ∃ f ∈ q, f.2 = g.2 := by
  rw [h.queue] at hg
  rcases List.mem_append.mp hg with hg | hg
  · exact ⟨g, List.mem_of_mem_filter hg, rfl⟩
  · obtain ⟨v, hv, hvg⟩ := List.mem_filterMap.mp hg
    obtain ⟨e, hve, hmem⟩ := h.here v hv
    refine ⟨_, hmem, ?_⟩
    simp only [Event.renamed, hve, Option.bind_eq_some_iff] at hvg
    obtain ⟨r, -, e', he', hif⟩ := hvg
    cases he'
    split at hif
    · cases hif
      rfl
    · cases hif

/-- An event belongs to an envelope when it is about its file. -/
theorem Rounded.envelope_iff (h : Rounded c items q events q') (hq : q.names.Nodup)
    (hid : (q.map fun f => f.2.id).Nodup) {f : Bytes × Envelope} (hf : f ∈ q) {v : Event}
    (hv : v ∈ events) : v.envelope = some f.2 ↔ v.item.name = f.1 := by
  obtain ⟨e, hve, hmem⟩ := h.here v hv
  rw [hve]
  constructor
  · intro he
    have hef : e = f.2 := Option.some.inj he
    have hsame : (v.item.name, e) = f := List.inj_on_of_nodup_map hid hmem hf (by rw [hef])
    rw [← hsame]
  · intro hn
    obtain ⟨n, e'⟩ := f
    subst hn
    have hlook := (Dir.lookup_of_mem hq hmem).symm.trans (Dir.lookup_of_mem hq hf)
    rw [hlook]

/-- A round has at most one event for a queued file. -/
theorem Rounded.events_of (h : Rounded c items q events q') (hq : q.names.Nodup)
    (hid : (q.map fun f => f.2.id).Nodup) (hnd : (items.map Item.name).Nodup)
    {f : Bytes × Envelope} (hf : f ∈ q) :
    (∃ v ∈ events, v.item.name = f.1 ∧ events.filter (·.envelope = some f.2) = [v]) ∨
      f.1 ∉ events.map (·.item.name) ∧ events.filter (·.envelope = some f.2) = [] := by
  have hev : (events.map (·.item.name)).Nodup := by
    have hsub := (h.inOrder.map Item.name).sublist
    rw [List.map_map] at hsub
    exact hnd.sublist hsub
  by_cases hout : f.1 ∈ events.map (·.item.name)
  · obtain ⟨v, hv, hvn⟩ := List.mem_map.mp hout
    refine Or.inl ⟨v, hv, hvn, ?_⟩
    rw [← filter_eq_singleton hev hv]
    refine List.filter_congr fun w hw => ?_
    rw [decide_eq_decide, h.envelope_iff hq hid hf hw, hvn]
  · refine Or.inr ⟨hout, List.filter_eq_nil_iff.mpr fun w hw he => hout ?_⟩
    have hwn := (h.envelope_iff hq hid hf hw).mp (by simpa using he)
    exact hwn ▸ List.mem_map_of_mem (f := fun x : Event => x.item.name) hw

end Round

theorem events_append (s : State) (r : Round) (e : Envelope) :
    ({ s with dir := r.dir, log := s.log ++ r.events } : State).events e =
      s.events e ++ r.events.filter (·.envelope = some e) := List.filter_append ..

/-- A round keeps the backoff of a file whose timestamp is its last failure. -/
theorem keepsBackoff_of_eligible {c : Call} {v w : Event} (hv : v.item ∈ c.items)
    (hcall : v.before = c.before ∧ v.now = c.now)
    (hts : ∀ r, w.reply = some r → v.item.ts = r.now) : KeepsBackoff w v := by
  intro hb r hr
  have he := (items_eligible hv).2
  have hbc : c.before = 0 := hcall.1 ▸ hb
  simp only [Call.eligible, hbc, ne_eq, not_true_eq_false, false_or, decide_eq_true_eq] at he
  rw [hcall.2, ← hts r hr]
  omega

/-- The event of a queued envelope renames its file or takes it out of the queue. -/
theorem Life.event {q : Enqueued} {c : Call} {r : Round} {v : Event} (h : Inv s)
    (hl : c.listing.Perm s.dir.names)
    (hr : Rounded c c.items s.dir.queue r.events r.dir.queue) {ts : Nat} (hts : ts < 2 ^ 64)
    (hlen : (s.events q.envelope).length < 6)
    (hmem : (makeCachePath ts (s.events q.envelope).length q.uuid.asString, q.envelope) ∈ s.dir.queue)
    (hfail : ∀ v ∈ s.events q.envelope, v.Failed) (hv : v ∈ r.events)
    (hvn : v.item.name = makeCachePath ts (s.events q.envelope).length q.uuid.asString)
    (hev : ({ s with dir := r.dir, log := s.log ++ r.events } : State).events q.envelope =
      s.events q.envelope ++ [v])
    (hitem : v.item = itemOf ts (s.events q.envelope).length q.uuid) :
    Life { s with dir := r.dir, log := s.log ++ r.events } q := by
  have hq := Dir.queue_nodup h.tidy.nodup
  have hvenv : v.envelope = some q.envelope :=
    (hr.envelope_iff hq h.tidy.distinct hmem hv).mpr hvn
  have hcount : v.item.count = (s.events q.envelope).length := by rw [hitem]; rfl
  cases hren : v.renamed with
  | some g =>
    obtain ⟨reply, hreply, hstatus, hsix, hg⟩ : ∃ reply, v.reply = some reply ∧ reply.status < 0 ∧
        v.item.count + 1 < retryAttempts ∧
        (makeCachePath reply.now (v.item.count + 1) v.item.uuid, q.envelope) = g := by
      simp only [Event.renamed, hvenv, Option.bind_eq_some_iff] at hren
      obtain ⟨reply, hreply, e', he', hif⟩ := hren
      cases he'
      split at hif
      · rename_i hc
        exact ⟨reply, hreply, hc.1, hc.2, Option.some.inj hif⟩
      · cases hif
    refine .queued reply.now reply.now_lt ?_ ?_ ?_ ?_
    · rw [hev, List.length_append, List.length_singleton]
      rw [hcount, retryAttempts] at hsix
      omega
    · rw [hev, List.length_append, List.length_singleton]
      have hgq : g ∈ r.dir.queue := by
        rw [hr.queue]
        exact List.mem_append_right _ (List.mem_filterMap.mpr ⟨v, hv, hren⟩)
      rw [← hg, hitem] at hgq
      exact hgq
    · rw [hev]
      intro w hw
      rcases List.mem_append.mp hw with hw | hw
      · exact hfail w hw
      · rw [List.mem_singleton.mp hw]
        exact ⟨reply, hreply, hstatus⟩
    · rw [hev]
      intro w hw x hx
      have hwv : v = w := by simpa using hw
      rw [← hwv, hreply] at hx
      cases hx
      rfl
  | none =>
    refine .gone ?_ ?_ ?_ v ?_ ?_
    · rw [hev, List.length_append, List.length_singleton]
      omega
    · rw [hev, List.dropLast_concat]
      exact hfail
    · have hnot := mt (hr.still_iff hq h.tidy.distinct (items_names_nodup h.tidy.nodup hl) hmem).mp
      intro g hg hgid
      refine hnot (not_not.mpr ?_) (List.mem_map.mpr ⟨g, hg, hgid⟩)
      exact List.mem_map.mpr ⟨v, List.mem_filter.mpr ⟨hv, by simp [hren]⟩, hvn⟩
    · rw [hev]
      simp
    · intro x hx
      by_contra hc
      rw [not_or, not_le, not_le] at hc
      simp [Event.renamed, hvenv, hx, hc] at hren

theorem Life.send {q : Enqueued} {c : Call} {r : Round} (h : Inv s)
    (hl : c.listing.Perm s.dir.names)
    (hr : Rounded c c.items s.dir.queue r.events r.dir.queue) (hq : q ∈ s.enqueued) :
    Life { s with dir := r.dir, log := s.log ++ r.events } q ∧
      (({ s with dir := r.dir, log := s.log ++ r.events } : State).events q.envelope).IsChain
        KeepsBackoff := by
  have hchain := h.backoff q hq
  have hqn := Dir.queue_nodup h.tidy.nodup
  have hnd := items_names_nodup h.tidy.nodup hl
  have hev := events_append s r q.envelope
  cases h.life q hq with
  | queued ts hts hlen hmem hfail hlast =>
    rcases hr.events_of hqn h.tidy.distinct hnd hmem with ⟨v, hv, hvn, hone⟩ | ⟨hout, hnil⟩
    · rw [hone] at hev
      have hvi : v.item ∈ c.items := hr.inOrder.subset (List.mem_map_of_mem hv)
      have hitem : v.item = itemOf ts (s.events q.envelope).length q.uuid := by
        obtain ⟨f, -, hfi⟩ := mem_items hl hvi
        rw [← retryItem_name hfi, hvn, retryItem_make q.uuid hts hlen] at hfi
        exact (Option.some.inj hfi).symm
      refine ⟨.event h hl hr hts hlen hmem hfail hv hvn hev hitem, ?_⟩
      rw [hev]
      refine hchain.append (List.IsChain.singleton v) ?_
      intro w hw x hx
      cases hx
      refine keepsBackoff_of_eligible hvi (hr.call v hv) fun reply hreply => ?_
      rw [hitem]
      exact hlast w hw reply hreply
    · rw [hnil, List.append_nil] at hev
      rw [hev]
      refine ⟨.queued ts hts ?_ ?_ ?_ ?_, hchain⟩
      · rw [hev]
        exact hlen
      · rw [hev]
        have hgoal := hr.queue
        rw [hgoal]
        exact List.mem_append_left _ (List.mem_filter.mpr ⟨hmem, decide_eq_true hout⟩)
      · rw [hev]
        exact hfail
      · rw [hev]
        exact hlast
  | gone hlen hearly hout v hv hleaves =>
    have hnil : r.events.filter (·.envelope = some q.envelope) = [] := by
      refine List.filter_eq_nil_iff.mpr fun w hw he => ?_
      obtain ⟨e, hwe, hmem⟩ := hr.here w hw
      have heq : w.envelope = some q.envelope := by simpa using he
      rw [hwe] at heq
      exact hout _ hmem (by rw [Option.some.inj heq])
    rw [hnil, List.append_nil] at hev
    rw [hev]
    refine ⟨.gone ?_ ?_ (fun g hg => ?_) v ?_ hleaves, hchain⟩
    · rw [hev]
      exact hlen
    · rw [hev]
      exact hearly
    · obtain ⟨f, hf, hfg⟩ := hr.from_queue hg
      rw [← hfg]
      exact hout f hf
    · rw [hev]
      exact hv

theorem Inv.send (h : Inv s) {c : Call} (hl : c.listing.Perm s.dir.names)
    (hfree : ∀ n ∈ renamedTo (retrySend keep s.dir c), n ∉ s.dir.names) :
    Inv (step keep s (.send c)) := by
  cases hs : c.skipUpload with
  | true =>
    have hstep : step keep s (.send c) = s := by
      simp [step, retrySend, hs]
    rw [hstep]
    exact h
  | false =>
    obtain ⟨hr, htidy, -⟩ := retrySend_spec h.tidy hl hs hfree
    have hq := Dir.queue_nodup h.tidy.nodup
    have hid := h.tidy.distinct
    have hnd := items_names_nodup h.tidy.nodup hl
    generalize hround : retrySend keep s.dir c = r at hr htidy
    have hstep : step keep s (.send c) = { s with dir := r.dir, log := s.log ++ r.events } := by
      rw [← hround]
      rfl
    rw [hstep]
    refine ⟨htidy, ?_, ?_, h.enqueued_lt, ?_, ?_⟩
    · intro g hg
      obtain ⟨f, hf, hfg⟩ := hr.from_queue hg
      rw [← hfg]
      exact h.queue_lt f hf
    · intro v hv e he
      rcases List.mem_append.mp hv with hv | hv
      · exact h.log_lt v hv e he
      · obtain ⟨e', hve, hmem⟩ := hr.here v hv
        rw [Option.mem_def, hve] at he
        cases he
        exact h.queue_lt _ hmem
    · exact fun q hq' => (Life.send h hl hr hq').1
    · exact fun q hq' => (Life.send h hl hr hq').2

theorem Reachable.inv (h : Reachable keep s) : Inv s := by
  apply Machine.Reachable.invariant (I := Inv) (fun _ hs => Start.inv hs) ?_ h
  rintro s t hi ⟨l, ha, rfl⟩
  cases l with
  | enqueue eventId fresh usec => exact hi.enqueue ha
  | send c => exact hi.send ha.1 ha.2

/-! ## What is asked of the retries -/

/-- An enqueued envelope: its attempts are bounded, its name counts its failures,
its attempts keep the backoff, and it leaves the queue for a reason only. -/
structure Kept (s : State) (q : Enqueued) : Prop where
  bounded : ((s.attempts q.envelope).length : Int) ≤ retryAttempts
  named : ∀ f ∈ s.dir.queue, f.2 = q.envelope →
    ∃ ts, parseCacheFilename f.1 = some ⟨ts, s.failures q.envelope, q.uuid.asString⟩
  backoff : (s.attempts q.envelope).IsChain KeepsBackoff
  left : (∃ f ∈ s.dir.queue, f.2 = q.envelope) ∨
    ∃ v, (s.events q.envelope).getLast? = some v ∧ v.Leaves

/-- A round: it takes the eligible files in increasing order up to the first
network failure, leaves the others alone and counts what is still queued. -/
structure RoundKept (keep : CacheKeep) (d : Dir) (c : Call) : Prop where
  eligible : ∀ i, i ∈ c.items ↔
    (∃ f ∈ d.queue, retryItem f.1 = some i) ∧ c.counts i = true ∧ c.eligible i = true
  increasing : c.items.Pairwise fun a b => compareRetryItems a b < 0
  inOrder : (retrySend keep d c).events.map Event.item <+: c.items
  stopped : ∀ v ∈ (retrySend keep d c).events.dropLast, ¬ v.Failed
  went : (retrySend keep d c).events.map Event.item ≠ c.items →
    ∃ v ∈ (retrySend keep d c).events.getLast?, v.Failed
  untouched : ∀ f ∈ d.queue, f.1 ∉ (retrySend keep d c).events.map (·.item.name) →
    f ∈ (retrySend keep d c).dir.queue
  total : (retrySend keep d c).total =
    ((counted c d.queue).filter fun f =>
      f.2.id ∈ (retrySend keep d c).dir.queue.map fun g => g.2.id).length

theorem attempts_of_failed {l : List Event} (h : ∀ v ∈ l, v.Failed) :
    l.filter (·.reply.isSome) = l := by
  rw [List.filter_eq_self]
  intro v hv
  obtain ⟨r, hr, -⟩ := h v hv
  rw [hr]
  rfl

theorem Inv.kept (h : Inv s) {q : Enqueued} (hq : q ∈ s.enqueued) : Kept s q := by
  have hle : (s.attempts q.envelope).length ≤ (s.events q.envelope).length :=
    List.length_filter_le ..
  have hchain := h.backoff q hq
  cases h.life q hq with
  | queued ts hts hlen hmem hfail hlast =>
    refine ⟨?_, ?_, ?_, Or.inl ⟨_, hmem, rfl⟩⟩
    · simp only [retryAttempts]
      omega
    · intro f hf hfe
      have hsame : f = _ := List.inj_on_of_nodup_map h.tidy.distinct hf hmem (by rw [hfe])
      have hcount : s.failures q.envelope = (s.events q.envelope).length := by
        refine List.countP_eq_length.mpr fun v hv => ?_
        simpa using hfail v hv
      refine ⟨ts, ?_⟩
      rw [hsame, hcount]
      exact parse_makeCachePath q.uuid hts (by omega)
    · rw [State.attempts, attempts_of_failed hfail]
      exact hchain
  | gone hlen hearly hout v hv hleaves =>
    refine ⟨?_, ?_, ?_, Or.inr ⟨v, hv, hleaves⟩⟩
    · simp only [retryAttempts]
      omega
    · intro f hf hfe
      exact absurd (by rw [hfe]) (hout f hf)
    · obtain ⟨l, hl⟩ := List.getLast?_eq_some_iff.mp hv
      rw [hl, List.dropLast_concat] at hearly
      rw [hl] at hchain
      rw [State.attempts, hl, List.filter_append, attempts_of_failed hearly]
      by_cases hs : v.reply.isSome = true
      · simpa [hs] using hchain
      · simpa [hs] using (List.isChain_append.mp hchain).1

theorem Inv.roundKept (h : Inv s) {c : Call} (ha : Allowed keep s (.send c))
    (hs : c.skipUpload = false) : RoundKept keep s.dir c := by
  obtain ⟨hr, -, htotal⟩ := retrySend_spec h.tidy ha.1 hs ha.2
  refine ⟨fun i => ⟨fun hi => ⟨mem_items ha.1 hi, items_eligible hi⟩, ?_⟩,
    items_increasing h.tidy ha.1, hr.inOrder, hr.stopped, hr.went, ?_, htotal⟩
  · rintro ⟨⟨f, hf, hfi⟩, hcounts, heligible⟩
    have hname : f.1 ∈ c.listing :=
      ha.1.symm.subset (List.mem_map_of_mem (Dir.mem_queue.mp hf).1)
    refine (List.mem_insertionSort _).mpr (List.mem_filter.mpr ⟨?_, heligible⟩)
    exact List.mem_filter.mpr ⟨List.mem_filterMap.mpr ⟨f.1, hname, hfi⟩, hcounts⟩
  · intro f hf hout
    rw [hr.queue]
    exact List.mem_append_left _ (List.mem_filter.mpr ⟨hf, decide_eq_true hout⟩)

/-- **Retries are bounded and lose nothing**, in every run in which no file takes
the name of another; a round that is to skip uploads does nothing and returns 1. -/
theorem retry_bounded_conserving (h : Reachable keep s) :
    (∀ q ∈ s.enqueued, Kept s q) ∧
      ∀ c, Allowed keep s (.send c) →
        if c.skipUpload then retrySend keep s.dir c = ⟨s.dir, 1, []⟩ else RoundKept keep s.dir c := by
  have hi := h.inv
  refine ⟨fun q hq => hi.kept hq, fun c ha => ?_⟩
  cases hs : c.skipUpload with
  | true => simp [retrySend, hs]
  | false => simpa using hi.roundKept ha hs

/-- An envelope is enqueued and fails once in a round that takes every file. -/
theorem retry_bounded_conserving_failed :
    ∃ s, Reachable .none s ∧ s.failures ⟨0, none⟩ = 1 ∧
      ((∀ q ∈ s.enqueued, Kept s q) ∧
        ∀ c, Allowed .none s (.send c) →
          if c.skipUpload then retrySend .none s.dir c = ⟨s.dir, 1, []⟩
          else RoundKept .none s.dir c) := by
  let u : Uuid := fun _ => 7
  let s0 : State := ⟨[], [], [], 0⟩
  let s1 : State := step .none s0 (.enqueue none u 0)
  let c : Call := ⟨false, 5, 0, s1.dir.names, fun _ => some ⟨-1, 5000, true, u⟩⟩
  have h0 : Reachable .none s0 :=
    .start ⟨⟨List.nodup_nil, by simp [s0, Dir.queue], by simp [s0, Dir.queue]⟩,
      by simp [s0, Dir.queue], rfl, rfl⟩
  have h1 : Reachable .none s1 := .next h0 ⟨.enqueue none u 0, by simp [Allowed, s0, Dir.names], rfl⟩
  have hfree : ∀ n ∈ renamedTo (retrySend .none s1.dir c), n ∉ s1.dir.names := by decide
  have h2 : Reachable .none (step .none s1 (.send c)) :=
    .next h1 ⟨.send c, ⟨List.Perm.refl _, hfree⟩, rfl⟩
  exact ⟨_, h2, by decide, retry_bounded_conserving h2⟩

/-- A round that is to skip uploads returns 1 for an empty directory; and of two
envelopes with one event id and one timestamp the second takes the first's name,
so that the first leaves the queue without an event. -/
theorem retry_not_conserving :
    (retrySend .none [] ⟨true, 0, 0, [], fun _ => none⟩).total ≠
        ((counted ⟨true, 0, 0, [], fun _ => none⟩ (Dir.queue [])).filter fun f =>
          f.2.id ∈ (retrySend .none [] ⟨true, 0, 0, [], fun _ => none⟩).dir.queue.map
            fun g => g.2.id).length ∧
      ∃ s q, q ∈ s.enqueued ∧
        s = step .none (step .none ⟨[], [], [], 0⟩ (.enqueue none (fun _ => 7) 0))
          (.enqueue none (fun _ => 7) 0) ∧
        s.events q.envelope = [] ∧ ∀ f ∈ s.dir.queue, f.2 ≠ q.envelope := by
  refine ⟨by decide, _, ⟨⟨0, none⟩, fun _ => 7, 0⟩, ?_, rfl, ?_, ?_⟩
  · decide
  · decide
  · decide

end SentryNative.Retry
