import SentryNative.Retry.Send

/-!
# One round of retries

Only the queued files matter: what a round does to them, whatever it does to the
other files of the directory.
-/

namespace SentryNative.Retry

open CLib

variable {d : Dir} {keep : CacheKeep}

/-! ## Queued files -/

theorem retryItem_name {name : Bytes} {i : Item} (h : retryItem name = some i) : i.name = name := by
  simp only [retryItem] at h
  split at h
  · split at h
    · cases h
    · cases h
      rfl
  · cases h

theorem retryItem_make {ts n : Nat} (u : Uuid) (hts : ts < 2 ^ 64) (hn : n < 6) :
    retryItem (makeCachePath ts n u.asString) =
      some ⟨makeCachePath ts n u.asString, ts, n, u.asString⟩ := by
  rw [retryItem, parse_makeCachePath u hts (by omega)]
  simp only
  rw [if_neg (by omega)]

theorem retryItem_bare (u : Uuid) : retryItem (u.asString ++ extension) = none := by
  rw [← makeCachePath_bare 0, retryItem, parse_bare]
  rfl

namespace Dir

theorem queue_remove (d : Dir) (n : Bytes) : (d.remove n).queue = d.queue.filter (·.1 ≠ n) := by
  simp only [queue, remove, List.filter_filter, Bool.and_comm]

theorem mem_queue {f : Bytes × Envelope} : f ∈ d.queue ↔ f ∈ d ∧ (retryItem f.1).isSome = true :=
  List.mem_filter

theorem queue_write_bare {n : Bytes} (hn : retryItem n = none) (e : Envelope) :
    (d.write n e).queue = d.queue := by
  have hself : d.queue.filter (·.1 ≠ n) = d.queue := by
    rw [List.filter_eq_self]
    intro f hf
    have hs := (mem_queue.mp hf).2
    have hne : f.1 ≠ n := by
      intro e
      rw [e, hn] at hs
      cases hs
    simpa using hne
  have happ : (d.write n e).queue = (d.remove n).queue ++ Dir.queue [(n, e)] := List.filter_append ..
  rw [happ, queue_remove, hself]
  simp [queue, hn]

theorem queue_write {n : Bytes} (hn : (retryItem n).isSome = true) (hfree : n ∉ d.queue.names)
    (e : Envelope) : (d.write n e).queue = d.queue ++ [(n, e)] := by
  have hself : d.queue.filter (·.1 ≠ n) = d.queue := by
    rw [List.filter_eq_self]
    intro f hf
    have hne : f.1 ≠ n := fun e => hfree (e ▸ List.mem_map_of_mem hf)
    simpa using hne
  have happ : (d.write n e).queue = (d.remove n).queue ++ Dir.queue [(n, e)] := List.filter_append ..
  rw [happ, queue_remove, hself]
  simp [queue, hn]

theorem lookup_of_mem (hd : d.names.Nodup) {n : Bytes} {e : Envelope} (h : (n, e) ∈ d) :
    d.lookup n = some e := by
  induction d with
  | nil => cases h
  | cons f d ih =>
    obtain ⟨hf, hd⟩ := List.nodup_cons.mp hd
    rcases List.mem_cons.mp h with rfl | h
    · simp
    · have hne : (n == f.1) = false := by
        rw [beq_eq_false_iff_ne]
        intro e
        exact hf (e ▸ List.mem_map_of_mem h)
      rw [List.lookup_cons, hne]
      exact ih hd h

theorem nodup_filter (hd : d.names.Nodup) (p : Bytes × Envelope → Bool) :
    (names (d.filter p)).Nodup :=
  hd.sublist (List.filter_sublist.map Prod.fst)

theorem nodup_remove (hd : d.names.Nodup) (n : Bytes) : (d.remove n).names.Nodup := nodup_filter hd _

theorem nodup_write (hd : d.names.Nodup) (n : Bytes) (e : Envelope) :
    (d.write n e).names.Nodup := by
  have happ : (d.write n e).names = (d.remove n).names ++ [n] := List.map_append
  rw [happ]
  refine List.nodup_append.mpr ⟨nodup_remove hd n, by simp, ?_⟩
  intro a ha b hb e
  obtain ⟨f, hf, rfl⟩ := List.mem_map.mp ha
  rw [List.mem_singleton.mp hb] at e
  simp [remove, e] at hf

theorem nodup_rename (hd : d.names.Nodup) (old new : Bytes) : (d.rename old new).names.Nodup := by
  simp only [rename]
  split
  · exact nodup_write (nodup_remove hd old) new _
  · exact hd

theorem nodup_removeEnvelope (hd : d.names.Nodup) (n : Bytes) : (d.removeEnvelope n).names.Nodup := by
  simp only [removeEnvelope]
  split
  · exact nodup_remove (nodup_filter hd _) n
  · exact nodup_remove hd n

/-- No queued file is a sibling, so only the file itself leaves the queue. -/
theorem queue_removeEnvelope (hd : Tidy d) {ts n : Nat} {u : Uuid} (hts : ts < 2 ^ 64) (hn : n < 6) :
    (d.removeEnvelope (makeCachePath ts n u.asString)).queue =
      d.queue.filter (·.1 ≠ makeCachePath ts n u.asString) := by
  have hkeep : queue (d.filter fun f => !isCacheSibling f.1 u.asString) = d.queue := by
    simp only [queue, List.filter_filter]
    refine List.filter_congr fun f hf => ?_
    cases hr : (retryItem f.1).isSome with
    | false => rfl
    | true =>
      obtain ⟨ts', n', v, -, hn', hname⟩ := hd.named f (mem_queue.mpr ⟨hf, hr⟩)
      rw [hname, makeCachePath_not_sibling ts' (by omega) v u]
      rfl
  simp only [removeEnvelope, parse_makeCachePath u hts (show n < 2 ^ 31 by omega)]
  rw [queue_remove, hkeep]

end Dir

/-! ## What becomes of a file -/

/-- The item of a file the retries named. -/
def itemOf (ts n : Nat) (u : Uuid) : Item := ⟨makeCachePath ts n u.asString, ts, n, u.asString⟩

theorem Reply.now_lt (r : Reply) : r.now < 2 ^ 64 := by
  have h : r.usec.toNat < 2 ^ 64 := r.usec.toNat_lt
  simp only [Reply.now]
  omega

theorem handleResult_nodup (hd : d.names.Nodup) (i : Item) (e : Envelope) (r : Reply) :
    (handleResult keep d i e r).1.names.Nodup := by
  simp only [handleResult]
  split
  · exact Dir.nodup_rename hd _ _
  · split
    · split
      · exact Dir.nodup_remove hd _
      · exact Dir.nodup_rename hd _ _
    · split
      · rename_i d' hw
        refine Dir.nodup_remove ?_ _
        split at hw
        · simp only [writeToCache] at hw
          split at hw
          · cases hw
            exact hd
          · split at hw
            · cases hw
              exact Dir.nodup_write hd _ _
            · cases hw
        · cases hw
      · exact Dir.nodup_removeEnvelope hd _

/-- A write to the cache leaves the queue alone. -/
theorem writeToCache_queue {e : Envelope} {r : Reply} {d' : Dir}
    (h : writeToCache d e r = some d') : d'.queue = d.queue := by
  simp only [writeToCache] at h
  split at h
  · cases h
    rfl
  · split at h
    · cases h
      exact Dir.queue_write_bare (retryItem_bare _) e
    · cases h

/-- A network failure with retries remaining gives the file its next name. -/
theorem handleResult_renames (hd : Tidy d) {ts n : Nat} {u : Uuid} {e : Envelope} {r : Reply}
    (hmem : (makeCachePath ts n u.asString, e) ∈ d) (hn : n + 1 < 6)
    (hr : r.status < 0) (hfree : makeCachePath r.now (n + 1 : Nat) u.asString ∉ d.queue.names) :
    (handleResult keep d (itemOf ts n u) e r).2 = true ∧
      (handleResult keep d (itemOf ts n u) e r).1.queue =
        d.queue.filter (·.1 ≠ makeCachePath ts n u.asString) ++
          [(makeCachePath r.now (n + 1 : Nat) u.asString, e)] := by
  have hcount : (itemOf ts n u).count + 1 < retryAttempts := by
    simp only [itemOf, retryAttempts]
    omega
  have hres : handleResult keep d (itemOf ts n u) e r =
      (d.rename (makeCachePath ts n u.asString) (makeCachePath r.now (n + 1 : Nat) u.asString),
        true) := by
    rw [handleResult, if_pos ⟨hcount, hr⟩]
    rfl
  rw [hres]
  refine ⟨rfl, ?_⟩
  simp only [Dir.rename, Dir.lookup_of_mem hd.nodup hmem]
  rw [Dir.queue_write, Dir.queue_remove]
  · rw [retryItem_make u r.now_lt hn]
    rfl
  · rw [Dir.queue_remove]
    intro hc
    obtain ⟨f, hf, hfn⟩ := List.mem_map.mp hc
    exact hfree (hfn ▸ List.mem_map_of_mem (List.mem_of_mem_filter hf))

/-- Everything else takes the file out of the queue. -/
theorem handleResult_removes (hd : Tidy d) {ts n : Nat} {u : Uuid} {e : Envelope} {r : Reply}
    (hts : ts < 2 ^ 64) (hn : n < 6) (hmem : (makeCachePath ts n u.asString, e) ∈ d)
    (hr : ¬ (n + 1 < 6 ∧ r.status < 0)) :
    (handleResult keep d (itemOf ts n u) e r).2 = false ∧
      (handleResult keep d (itemOf ts n u) e r).1.queue =
        d.queue.filter (·.1 ≠ makeCachePath ts n u.asString) := by
  have hcount : ¬ ((itemOf ts n u).count + 1 < retryAttempts ∧ r.status < 0) := by
    simp only [itemOf, retryAttempts]
    omega
  rw [handleResult, if_neg hcount]
  split
  · split
    · exact ⟨rfl, Dir.queue_remove d _⟩
    · refine ⟨rfl, ?_⟩
      have hmove : d.moveCache (itemOf ts n u).name (-1) r.now =
          (d.remove (makeCachePath ts n u.asString)).write (u.asString ++ extension) e := by
        simp only [Dir.moveCache, itemOf, parse_makeCachePath u hts (show n < 2 ^ 31 by omega),
          makeCachePath_bare, Dir.rename, Dir.lookup_of_mem hd.nodup hmem]
      simp only [hmove]
      rw [Dir.queue_write_bare (retryItem_bare u), Dir.queue_remove]
  · split
    · rename_i d' hw
      refine ⟨rfl, ?_⟩
      split at hw
      · exact (Dir.queue_remove d' _).trans (by rw [writeToCache_queue hw]; rfl)
      · cases hw
    · exact ⟨rfl, Dir.queue_removeEnvelope hd hts hn⟩

/-! ## The loop -/

/-- The send failed without an answer. -/
def Event.Failed (v : Event) : Prop := ∃ r, v.reply = some r ∧ r.status < 0

/-- The file an event left in the queue under a new name. -/
def Event.renamed (v : Event) : Option (Bytes × Envelope) :=
  v.reply.bind fun r => v.envelope.bind fun e =>
    if r.status < 0 ∧ v.item.count + 1 < retryAttempts then
      some (makeCachePath r.now (v.item.count + 1) v.item.uuid, e)
    else none

/-- What a round did: the events, in the order of the items, and the queue. -/
structure Rounded (c : Call) (items : List Item) (q : Dir) (events : List Event) (q' : Dir) :
    Prop where
  inOrder : events.map Event.item <+: items
  here : ∀ v ∈ events, ∃ e, v.envelope = some e ∧ (v.item.name, e) ∈ q
  call : ∀ v ∈ events, v.before = c.before ∧ v.now = c.now
  stopped : ∀ v ∈ events.dropLast, ¬ v.Failed
  went : events.map Event.item ≠ items → ∃ v ∈ events.getLast?, v.Failed
  queue : q' = q.filter (fun f => f.1 ∉ events.map (·.item.name)) ++ events.filterMap Event.renamed

theorem Tidy.remove (hd : Tidy d) {d' : Dir} (hn : d'.names.Nodup) {p : Bytes × Envelope → Bool}
    (hq : d'.queue = d.queue.filter p) : Tidy d' := by
  refine ⟨hn, fun f hf => ?_, ?_⟩
  · rw [hq] at hf
    exact hd.named f (List.mem_of_mem_filter hf)
  · rw [hq]
    exact hd.distinct.sublist (List.filter_sublist.map _)

/-- Taking a file out and putting it back at the end. -/
theorem filter_ne_perm {q : Dir} (hq : q.names.Nodup) {n : Bytes} {e : Envelope} (h : (n, e) ∈ q) :
    (q.filter (·.1 ≠ n) ++ [(n, e)]).Perm q := by
  obtain ⟨a, b, rfl⟩ := List.append_of_mem h
  have hnames : (Dir.names a ++ n :: Dir.names b).Nodup := by simpa [Dir.names] using hq
  have hdis := List.nodup_cons.mp (List.perm_middle.nodup_iff.mp hnames)
  rw [List.mem_append, not_or] at hdis
  have hself : ∀ x : Dir, n ∉ x.names → x.filter (·.1 ≠ n) = x := by
    intro x hx
    rw [List.filter_eq_self]
    intro f hf
    have hne : f.1 ≠ n := fun e => hx (e ▸ List.mem_map_of_mem hf)
    simpa using hne
  rw [List.filter_append, List.filter_cons_of_neg (by simp), hself a hdis.1.1, hself b hdis.1.2,
    List.append_assoc]
  exact (List.perm_append_left_iff a).mpr (List.perm_append_singleton _ b)

theorem Dir.queue_nodup (hd : d.names.Nodup) : d.queue.names.Nodup := Dir.nodup_filter hd _

theorem Tidy.rename (hd : Tidy d) {d' : Dir} (hn : d'.names.Nodup) {old : Bytes} {e : Envelope}
    (hmem : (old, e) ∈ d.queue) {ts n : Nat} {u : Uuid} (hts : ts < 2 ^ 64) (h6 : n < 6)
    (hq : d'.queue = d.queue.filter (·.1 ≠ old) ++ [(makeCachePath ts n u.asString, e)]) :
    Tidy d' := by
  refine ⟨hn, fun f hf => ?_, ?_⟩
  · rw [hq] at hf
    rcases List.mem_append.mp hf with hf | hf
    · exact hd.named f (List.mem_of_mem_filter hf)
    · rw [List.mem_singleton.mp hf]
      exact ⟨ts, n, u, hts, h6, rfl⟩
  · have hperm := (filter_ne_perm (Dir.queue_nodup hd.nodup) hmem).map fun f => f.2.id
    have hids : (d'.queue.map fun f => f.2.id) =
        (d.queue.filter (·.1 ≠ old) ++ [(old, e)]).map fun f => f.2.id := by
      rw [hq, List.map_append, List.map_append]
      rfl
    rw [hids]
    exact hperm.nodup_iff.mpr hd.distinct

section Loop

variable {c : Call} {i : Nat} {item : Item} {rest : List Item} {s : Round} {e : Envelope}

theorem retryLoop_unread (hl : s.dir.lookup item.name = some e) (hr : c.reply i = none) :
    retryLoop keep c i (item :: rest) s =
      retryLoop keep c (i + 1) rest ⟨s.dir.removeEnvelope item.name, s.total - 1,
        s.events ++ [⟨item, some e, none, c.before, c.now⟩]⟩ := by
  simp only [retryLoop, hl, hr]

theorem retryLoop_failed {r : Reply} (hl : s.dir.lookup item.name = some e)
    (hr : c.reply i = some r) (hs : r.status < 0) :
    retryLoop keep c i (item :: rest) s =
      ⟨(handleResult keep s.dir item e r).1,
        if (handleResult keep s.dir item e r).2 then s.total else s.total - 1,
        s.events ++ [⟨item, some e, some r, c.before, c.now⟩]⟩ := by
  simp only [retryLoop, hl, hr, if_pos hs]

theorem retryLoop_sent {r : Reply} (hl : s.dir.lookup item.name = some e)
    (hr : c.reply i = some r) (hs : ¬ r.status < 0)
    (hk : (handleResult keep s.dir item e r).2 = false) :
    retryLoop keep c i (item :: rest) s =
      retryLoop keep c (i + 1) rest ⟨(handleResult keep s.dir item e r).1, s.total - 1,
        s.events ++ [⟨item, some e, some r, c.before, c.now⟩]⟩ := by
  simp only [retryLoop, hl, hr, if_neg hs, hk, Bool.false_eq_true, ↓reduceIte]

end Loop

/-- An item that left the queue, then the rest of the round. -/
theorem Rounded.cons {c : Call} {item : Item} {rest : List Item} {q q' : Dir}
    {events : List Event} {v : Event} (hv : v.item = item) (hnone : v.renamed = none)
    (hfail : ¬ v.Failed) (hhere : ∃ e, v.envelope = some e ∧ (item.name, e) ∈ q)
    (hcall : v.before = c.before ∧ v.now = c.now)
    (h : Rounded c rest (q.filter (·.1 ≠ item.name)) events q') :
    Rounded c (item :: rest) q (v :: events) q' where
  inOrder := by
    rw [List.map_cons, hv]
    exact List.prefix_cons_inj item |>.mpr h.inOrder
  here := by
    intro w hw
    rcases List.mem_cons.mp hw with rfl | hw
    · rw [hv]
      exact hhere
    · obtain ⟨e, he, hmem⟩ := h.here w hw
      exact ⟨e, he, List.mem_of_mem_filter hmem⟩
  call := by
    intro w hw
    rcases List.mem_cons.mp hw with rfl | hw
    · exact hcall
    · exact h.call w hw
  stopped := by
    intro w hw
    cases events with
    | nil => cases hw
    | cons x xs =>
      rw [List.dropLast_cons_cons] at hw
      rcases List.mem_cons.mp hw with rfl | hw
      · exact hfail
      · exact h.stopped w hw
  went := by
    intro hne
    have hne' : events.map Event.item ≠ rest := by
      intro e
      exact hne (by rw [List.map_cons, hv, e])
    obtain ⟨w, hw, hwf⟩ := h.went hne'
    refine ⟨w, ?_, hwf⟩
    cases events with
    | nil => cases hw
    | cons x xs => simpa [List.getLast?_cons] using hw
  queue := by
    rw [h.queue, List.filterMap_cons_none hnone, List.filter_filter]
    congr 1
    refine List.filter_congr fun f _ => ?_
    simp only [List.map_cons, hv, List.mem_cons, not_or, ne_eq, Bool.decide_and, Bool.and_comm]

/-- A round that stops at its first item. -/
theorem Rounded.failed {c : Call} {item : Item} {rest : List Item} {q q' : Dir} {r : Reply}
    {e : Envelope} (hs : r.status < 0) (hmem : (item.name, e) ∈ q)
    (hq : q' = q.filter (fun f => f.1 ∉ [item.name]) ++
      [(⟨item, some e, some r, c.before, c.now⟩ : Event)].filterMap Event.renamed) :
    Rounded c (item :: rest) q [⟨item, some e, some r, c.before, c.now⟩] q' where
  inOrder := by simp
  here := by
    intro v hv
    rw [List.mem_singleton.mp hv]
    exact ⟨e, rfl, hmem⟩
  call := by
    intro v hv
    rw [List.mem_singleton.mp hv]
    exact ⟨rfl, rfl⟩
  stopped := by simp
  went := fun _ => ⟨_, rfl, r, rfl, hs⟩
  queue := hq

theorem retryLoop_spec (c : Call) (items : List Item) : ∀ (i : Nat) (s : Round), Tidy s.dir →
    (∀ it ∈ items, ∃ f ∈ s.dir.queue, retryItem f.1 = some it) → (items.map Item.name).Nodup →
    (∀ v ∈ (retryLoop keep c i items s).events, ∀ f ∈ v.renamed, f.1 ∉ s.dir.queue.names) →
    ∃ events, (retryLoop keep c i items s).events = s.events ++ events ∧
      Rounded c items s.dir.queue events (retryLoop keep c i items s).dir.queue ∧
      (retryLoop keep c i items s).total = s.total - events.countP (·.renamed.isNone) ∧
      Tidy (retryLoop keep c i items s).dir := by
  induction items with
  | nil =>
    intro i s hd _ _ _
    refine ⟨[], by simp [retryLoop], ⟨by simp, by simp, by simp, by simp, by simp, ?_⟩, rfl, hd⟩
    simp [retryLoop]
  | cons item rest ih =>
    intro i s hd hitems hnodup hfree
    obtain ⟨f, hf, hfi⟩ := hitems item List.mem_cons_self
    obtain ⟨ts, n, u, hts, hn, hname⟩ := hd.named f hf
    have hitem : item = itemOf ts n u := by
      rw [hname, retryItem_make u hts hn] at hfi
      exact (Option.some.inj hfi).symm
    have hfmem : (item.name, f.2) ∈ s.dir.queue := by
      have hfn : item.name = f.1 := retryItem_name hfi
      rw [hfn]
      exact hf
    have hmem : (makeCachePath ts n u.asString, f.2) ∈ s.dir := by
      have := (Dir.mem_queue.mp hfmem).1
      rwa [hitem] at this
    have hlook : s.dir.lookup item.name = some f.2 := Dir.lookup_of_mem hd.nodup (by rwa [hitem])
    obtain ⟨hnot, hnodup'⟩ := List.nodup_cons.mp hnodup
    -- the loop goes on with a directory that has lost this file only
    have goOn : ∀ (t : Round) (v : Event), t.events = s.events ++ [v] → t.total = s.total - 1 →
        t.dir.names.Nodup → t.dir.queue = s.dir.queue.filter (·.1 ≠ item.name) → v.item = item →
        v.renamed = none → ¬ v.Failed → v.envelope = some f.2 → v.before = c.before ∧ v.now = c.now →
        retryLoop keep c i (item :: rest) s = retryLoop keep c (i + 1) rest t →
        ∃ events, (retryLoop keep c i (item :: rest) s).events = s.events ++ events ∧
          Rounded c (item :: rest) s.dir.queue events
            (retryLoop keep c i (item :: rest) s).dir.queue ∧
          (retryLoop keep c i (item :: rest) s).total =
            s.total - events.countP (·.renamed.isNone) ∧
          Tidy (retryLoop keep c i (item :: rest) s).dir := by
      intro t v hte htt htn htq hvi hvn hvf hve hvc heq
      rw [heq] at hfree ⊢
      obtain ⟨events, he, hr, htot, htidy⟩ := ih (i + 1) t (hd.remove htn htq)
        (by
          intro it hit
          obtain ⟨g, hg, hgi⟩ := hitems it (List.mem_cons_of_mem item hit)
          refine ⟨g, ?_, hgi⟩
          rw [htq]
          refine List.mem_filter.mpr ⟨hg, ?_⟩
          have hgn : it.name = g.1 := retryItem_name hgi
          have hne : g.1 ≠ item.name := fun e => hnot (e ▸ hgn ▸ List.mem_map_of_mem hit)
          simpa using hne)
        hnodup'
        (by
          intro w hw g hg hc
          refine hfree w hw g hg ?_
          rw [htq] at hc
          obtain ⟨x, hx, hxn⟩ := List.mem_map.mp hc
          exact hxn ▸ List.mem_map_of_mem (List.mem_of_mem_filter hx))
      refine ⟨v :: events, ?_, ?_, ?_, htidy⟩
      · rw [he, hte, List.append_assoc]
        rfl
      · rw [htq] at hr
        exact hr.cons hvi hvn hvf ⟨f.2, hve, hfmem⟩ hvc
      · rw [htot, htt, List.countP_cons_of_pos (by simp [hvn])]
        omega
    cases hr : c.reply i with
    | none =>
      refine goOn _ ⟨item, some f.2, none, c.before, c.now⟩ rfl rfl
        (Dir.nodup_removeEnvelope hd.nodup _) ?_ rfl rfl ?_ rfl ⟨rfl, rfl⟩
        (retryLoop_unread hlook hr)
      · rw [hitem]
        exact Dir.queue_removeEnvelope hd hts hn
      · rintro ⟨r, hr, -⟩
        cases hr
    | some r =>
      by_cases hs : r.status < 0
      · rw [retryLoop_failed hlook hr hs] at hfree ⊢
        refine ⟨[⟨item, some f.2, some r, c.before, c.now⟩], rfl, ?_⟩
        by_cases h6 : n + 1 < 6
        · have hren : (⟨item, some f.2, some r, c.before, c.now⟩ : Event).renamed =
              some (makeCachePath r.now (n + 1 : Nat) u.asString, f.2) := by
            have hcount : (n : Int) + 1 < retryAttempts := by
              simp only [retryAttempts]
              omega
            simp [Event.renamed, hitem, itemOf, hs, hcount]
          obtain ⟨hk, hq⟩ := @handleResult_renames s.dir keep hd ts n u f.2 r hmem h6 hs
            (hfree _ (List.mem_append_right _ List.mem_cons_self) _ hren)
          rw [← hitem] at hk hq
          refine ⟨.failed hs hfmem ?_, ?_, ?_⟩
          · rw [hq, List.filterMap_cons_some hren, hitem]
            simp [itemOf]
          · simp [hk, hren]
          · rw [hitem] at hfmem
            exact hd.rename (handleResult_nodup hd.nodup _ _ _) hfmem r.now_lt h6 hq
        · have hren : (⟨item, some f.2, some r, c.before, c.now⟩ : Event).renamed = none := by
            have hcount : ¬ (n : Int) + 1 < retryAttempts := by
              simp only [retryAttempts]
              omega
            simp [Event.renamed, hitem, itemOf, hcount]
          obtain ⟨hk, hq⟩ := @handleResult_removes s.dir keep hd ts n u f.2 r hts hn hmem
            (fun h => h6 h.1)
          rw [← hitem] at hk hq
          refine ⟨.failed hs hfmem ?_, ?_, hd.remove (handleResult_nodup hd.nodup _ _ _) hq⟩
          · rw [hq, List.filterMap_cons_none hren, hitem]
            simp [itemOf]
          · simp [hk, hren]
      · have hrem := @handleResult_removes s.dir keep hd ts n u f.2 r hts hn hmem
          (fun h => hs h.2)
        rw [← hitem] at hrem
        refine goOn _ ⟨item, some f.2, some r, c.before, c.now⟩ rfl rfl
          (handleResult_nodup hd.nodup _ _ _) ?_ rfl ?_ ?_ rfl ⟨rfl, rfl⟩
          (retryLoop_sent hlook hr hs hrem.1)
        · rw [hrem.2, hitem]
          rfl
        · simp [Event.renamed, hs]
        · rintro ⟨r', hr', hs'⟩
          cases hr'
          exact hs hs'

/-! ## The items of a round -/

theorem compare_swap (a b : Item) : compareRetryItems b a = -compareRetryItems a b := by
  have h := strcmp_swap a.uuid b.uuid
  simp only [compareRetryItems]
  grind

theorem compare_trans {a b c : Item} (hab : compareRetryItems a b ≤ 0)
    (hbc : compareRetryItems b c ≤ 0) : compareRetryItems a c ≤ 0 := by
  have h := @strcmp_trans a.uuid b.uuid c.uuid
  simp only [compareRetryItems] at *
  grind

theorem eq_of_compare {a b : Item} (h : compareRetryItems a b = 0) :
    a.ts = b.ts ∧ a.count = b.count ∧ a.uuid = b.uuid := by
  simp only [compareRetryItems] at h
  split at h
  · split at h <;> cases h
  · rename_i hts
    split at h
    · omega
    · rename_i hc
      exact ⟨not_not.mp hts, not_not.mp hc, eq_of_strcmp h⟩

instance : Std.Total fun a b : Item => compareRetryItems a b ≤ 0 where
  total a b := by
    have h := compare_swap a b
    rcases le_total (compareRetryItems a b) 0 with hab | hab
    · exact Or.inl hab
    · exact Or.inr (by omega)

instance : IsTrans Item fun a b => compareRetryItems a b ≤ 0 := ⟨fun _ _ _ => compare_trans⟩

section Items

variable {c : Call}

theorem mem_items (hl : c.listing.Perm d.names) {it : Item} (h : it ∈ c.items) :
    ∃ f ∈ d.queue, retryItem f.1 = some it := by
  have hmem := (List.mem_insertionSort _).mp h
  have hcand := List.mem_of_mem_filter (List.mem_of_mem_filter hmem)
  obtain ⟨n, hn, hni⟩ := List.mem_filterMap.mp hcand
  obtain ⟨f, hf, rfl⟩ := List.mem_map.mp (hl.subset hn)
  exact ⟨f, Dir.mem_queue.mpr ⟨hf, by simp [hni]⟩, hni⟩

theorem filterMap_retryItem_names (l : List Bytes) :
    (l.filterMap retryItem).map Item.name = l.filter fun n => (retryItem n).isSome := by
  induction l with
  | nil => rfl
  | cons n l ih =>
    cases hn : retryItem n with
    | none => simp [hn, ih]
    | some i => simp [hn, ih, retryItem_name hn]

theorem items_names_nodup (hd : d.names.Nodup) (hl : c.listing.Perm d.names) :
    (c.items.map Item.name).Nodup := by
  have hall : ((c.listing.filterMap retryItem).map Item.name).Nodup := by
    rw [filterMap_retryItem_names]
    exact (hl.nodup_iff.mpr hd).filter _
  have hsub : (c.candidates.filter c.eligible).Sublist (c.listing.filterMap retryItem) :=
    List.filter_sublist.trans List.filter_sublist
  have hperm : (c.items.map Item.name).Perm ((c.candidates.filter c.eligible).map Item.name) :=
    (List.perm_insertionSort _ _).map _
  exact hperm.nodup_iff.mpr (hall.sublist (hsub.map _))

/-- The items are in increasing order: two of the same order would have the same name. -/
theorem items_increasing (hd : Tidy d) (hl : c.listing.Perm d.names) :
    c.items.Pairwise fun a b => compareRetryItems a b < 0 := by
  have hsorted : c.items.Pairwise fun a b => compareRetryItems a b ≤ 0 :=
    List.pairwise_insertionSort _ _
  have hne : c.items.Pairwise fun a b => a.name ≠ b.name :=
    List.pairwise_map.mp (items_names_nodup hd.nodup hl)
  refine (hsorted.and hne).imp_of_mem ?_
  rintro a b ha hb ⟨hle, hname⟩
  refine lt_of_le_of_ne hle fun h0 => hname ?_
  obtain ⟨hts, hcount, huuid⟩ := eq_of_compare h0
  have hmade : ∀ it ∈ c.items, it.name = makeCachePath it.ts it.count it.uuid := by
    intro it hit
    obtain ⟨f, hf, hfi⟩ := mem_items hl hit
    obtain ⟨ts, n, u, h64, h6, hfn⟩ := hd.named f hf
    rw [hfn, retryItem_make u h64 h6] at hfi
    rw [← Option.some.inj hfi]
  rw [hmade a ha, hmade b hb, hts, hcount, huuid]

/-- The files of the queue that the result of a round counts. -/
def counted (c : Call) (q : Dir) : Dir := q.filter fun f => (retryItem f.1).all c.counts

theorem candidates_length (hl : c.listing.Perm d.names) :
    c.candidates.length = (counted c d.queue).length := by
  have hlen : ∀ x : Dir, ((x.names.filterMap retryItem).filter c.counts).length =
      (counted c x.queue).length := by
    intro x
    induction x with
    | nil => rfl
    | cons f x ih =>
      cases hf : retryItem f.1 with
      | none => simpa [Dir.names, Dir.queue, counted, hf] using ih
      | some i =>
        by_cases hi : c.counts i = true
        · simpa [Dir.names, Dir.queue, counted, hf, hi] using ih
        · simpa [Dir.names, Dir.queue, counted, hf, hi] using ih
  rw [← hlen d]
  exact ((hl.filterMap retryItem).filter c.counts).length_eq

end Items

theorem items_eligible {c : Call} {it : Item} (h : it ∈ c.items) :
    c.counts it = true ∧ c.eligible it = true := by
  have hmem := List.mem_filter.mp ((List.mem_insertionSort _).mp h)
  exact ⟨(List.mem_filter.mp hmem.1).2, hmem.2⟩

/-! ## The round as a whole -/

theorem length_filter_not_mem {l : Dir} (hl : l.names.Nodup) {ns : List Bytes} (hns : ns.Nodup)
    (hsub : ns ⊆ l.names) : (l.filter (·.1 ∉ ns)).length = l.length - ns.length := by
  have hsplit := List.length_eq_length_filter_add (l := l) (fun f => decide (f.1 ∈ ns))
  have hperm : (Dir.names (l.filter (·.1 ∈ ns))).Perm ns := by
    refine (List.perm_ext_iff_of_nodup (Dir.nodup_filter hl _) hns).mpr fun n => ?_
    constructor
    · intro hn
      obtain ⟨f, hf, rfl⟩ := List.mem_map.mp hn
      simpa using (List.mem_filter.mp hf).2
    · intro hn
      obtain ⟨f, hf, rfl⟩ := List.mem_map.mp (hsub hn)
      exact List.mem_map_of_mem (List.mem_filter.mpr ⟨hf, by simpa using hn⟩)
  have hlen : (l.filter (·.1 ∈ ns)).length = ns.length := by
    rw [← hperm.length_eq]
    simp [Dir.names]
  have hneg : (l.filter fun f => !decide (f.1 ∈ ns)).length = (l.filter (·.1 ∉ ns)).length := by
    congr 1
    refine List.filter_congr fun f _ => ?_
    simp
  omega

/-- The files of a round that are still queued are those that did not leave it. -/
theorem Rounded.still_iff {c : Call} {items : List Item} {q q' : Dir} {events : List Event}
    (h : Rounded c items q events q') (hq : q.names.Nodup) (hid : (q.map fun f => f.2.id).Nodup)
    (hnd : (items.map Item.name).Nodup) {f : Bytes × Envelope} (hf : f ∈ q) :
    f.2.id ∈ q'.map (fun g => g.2.id) ↔
      f.1 ∉ (events.filter (·.renamed.isNone)).map (·.item.name) := by
  have hev : (events.map (·.item.name)).Nodup := by
    have hsub := (h.inOrder.map Item.name).sublist
    rw [List.map_map] at hsub
    exact hnd.sublist hsub
  have hsame : ∀ g ∈ q, g.2.id = f.2.id → g = f := fun g hg e => List.inj_on_of_nodup_map hid hg hf e
  constructor
  · intro hstill hleft
    obtain ⟨v, hv, hvn⟩ := List.mem_map.mp hleft
    obtain ⟨hve, hvnone⟩ := List.mem_filter.mp hv
    obtain ⟨g, hg, hgid⟩ := List.mem_map.mp hstill
    rw [h.queue] at hg
    rcases List.mem_append.mp hg with hg | hg
    · have hgf := hsame g (List.mem_of_mem_filter hg) hgid
      have hout : g.1 ∉ events.map (·.item.name) := by simpa using (List.mem_filter.mp hg).2
      exact hout (by rw [hgf, ← hvn]; exact List.mem_map_of_mem (f := fun x : Event => x.item.name) hve)
    · obtain ⟨w, hw, hwg⟩ := List.mem_filterMap.mp hg
      obtain ⟨e, hwe, hwmem⟩ := h.here w hw
      have hge : g.2 = e := by
        simp only [Event.renamed, hwe, Option.bind_eq_some_iff] at hwg
        obtain ⟨r, -, e', he', hif⟩ := hwg
        cases he'
        split at hif
        · cases hif
          rfl
        · cases hif
      have hwf : (w.item.name, e) = f := hsame _ hwmem (hge ▸ hgid)
      have hvw : v = w := List.inj_on_of_nodup_map hev hve hw (by rw [hvn, ← hwf])
      rw [hvw, hwg] at hvnone
      cases hvnone
  · intro hnot
    by_cases hout : f.1 ∈ events.map (·.item.name)
    · obtain ⟨v, hv, hvn⟩ := List.mem_map.mp hout
      have hsome : v.renamed.isNone = false := by
        rw [Bool.eq_false_iff]
        intro hnone
        exact hnot (hvn ▸ List.mem_map_of_mem (f := fun x : Event => x.item.name)
          (List.mem_filter.mpr ⟨hv, hnone⟩))
      obtain ⟨g, hg⟩ := Option.isSome_iff_exists.mp (by simpa using hsome)
      obtain ⟨e, hve, hvmem⟩ := h.here v hv
      have hef : (v.item.name, e) = f := by
        obtain ⟨n, e'⟩ := f
        have hname : v.item.name = n := hvn
        subst hname
        have hlook := (Dir.lookup_of_mem hq hvmem).symm.trans (Dir.lookup_of_mem hq hf)
        rw [Option.some.inj hlook]
      have hge : g.2 = f.2 := by
        simp only [Event.renamed, hve, Option.bind_eq_some_iff] at hg
        obtain ⟨r, -, e', he', hif⟩ := hg
        cases he'
        split at hif
        · cases hif
          rw [← hef]
        · cases hif
      rw [h.queue, ← hge]
      exact List.mem_map_of_mem (f := fun x : Bytes × Envelope => x.2.id)
        (List.mem_append_right _ (List.mem_filterMap.mpr ⟨v, hv, hg⟩))
    · rw [h.queue]
      exact List.mem_map_of_mem (f := fun x : Bytes × Envelope => x.2.id)
        (List.mem_append_left _ (List.mem_filter.mpr ⟨hf, by simpa using hout⟩))

theorem mem_renamedTo {r : Round} {v : Event} (hv : v ∈ r.events) {f : Bytes × Envelope}
    (hf : f ∈ v.renamed) : f.1 ∈ renamedTo r := by
  refine List.mem_filterMap.mpr ⟨v, hv, ?_⟩
  simp only [Event.renamed, Option.mem_def, Option.bind_eq_some_iff] at hf ⊢
  obtain ⟨reply, hr, e, -, hif⟩ := hf
  refine ⟨reply, hr, ?_⟩
  split at hif
  · rename_i hc
    cases hif
    rw [if_pos hc]
  · cases hif

/-- What a round does, and that its result is the number of files still queued. -/
theorem retrySend_spec {c : Call} (hd : Tidy d) (hl : c.listing.Perm d.names)
    (hs : c.skipUpload = false)
    (hfree : ∀ n ∈ renamedTo (retrySend keep d c), n ∉ d.names) :
    Rounded c c.items d.queue (retrySend keep d c).events (retrySend keep d c).dir.queue ∧
      Tidy (retrySend keep d c).dir ∧
      (retrySend keep d c).total =
        ((counted c d.queue).filter fun f =>
          f.2.id ∈ (retrySend keep d c).dir.queue.map fun g => g.2.id).length := by
  have hrun : retrySend keep d c = retryLoop keep c 0 c.items ⟨d, c.candidates.length, []⟩ := by
    rw [retrySend, if_neg (by simp [hs])]
  rw [hrun] at hfree ⊢
  have hnd := items_names_nodup hd.nodup hl
  obtain ⟨events, hev, hr, htot, htidy⟩ := @retryLoop_spec keep c c.items 0
    ⟨d, c.candidates.length, []⟩ hd (fun it hit => mem_items hl hit) hnd
    (fun v hv f hf hc => by
      obtain ⟨g, hg, hgn⟩ := List.mem_map.mp hc
      exact hfree f.1 (mem_renamedTo hv hf) (hgn ▸ List.mem_map_of_mem (Dir.mem_queue.mp hg).1))
  have hevents : (retryLoop keep c 0 c.items ⟨d, c.candidates.length, []⟩).events = events := by
    simpa using hev
  rw [hevents]
  refine ⟨hr, htidy, ?_⟩
  have hqn := Dir.queue_nodup hd.nodup
  have hfilter : ((counted c d.queue).filter fun f =>
      f.2.id ∈ (retryLoop keep c 0 c.items ⟨d, c.candidates.length, []⟩).dir.queue.map
        fun g => g.2.id) = (counted c d.queue).filter fun f =>
          f.1 ∉ (events.filter (·.renamed.isNone)).map (·.item.name) := by
    refine List.filter_congr fun f hf => ?_
    rw [decide_eq_decide]
    exact hr.still_iff hqn hd.distinct hnd (List.mem_of_mem_filter hf)
  rw [hfilter, htot, List.countP_eq_length_filter, length_filter_not_mem, List.length_map,
    ← candidates_length hl]
  · exact Dir.nodup_filter hqn _
  · have hsub := (hr.inOrder.map Item.name).sublist
    rw [List.map_map] at hsub
    exact (hnd.sublist hsub).sublist (List.filter_sublist.map _)
  · intro n hn
    obtain ⟨v, hv, rfl⟩ := List.mem_map.mp hn
    have hve := List.mem_of_mem_filter hv
    obtain ⟨e, -, hmem⟩ := hr.here v hve
    have hvi : v.item ∈ c.items := hr.inOrder.subset (List.mem_map_of_mem hve)
    obtain ⟨f, -, hfi⟩ := mem_items hl hvi
    have hcount := (items_eligible hvi).1
    refine List.mem_map.mpr ⟨(v.item.name, e), List.mem_filter.mpr ⟨hmem, ?_⟩, rfl⟩
    simp [retryItem_name hfi, hfi, hcount]

/-! ## Rounds over any directory

Without any knowledge of the names, a round does not put an envelope into the
queue, and its result is never less than the number of files it leaves. -/

theorem retryItem_bare_any (u : Bytes) : retryItem ((cstr u).take 36 ++ extension) = none := by
  have hlen : ((cstr u).take 36).length ≤ 36 := by simp [List.length_take]
  have hext : extension.length = 9 := rfl
  by_cases h36 : ((cstr u).take 36).length = 36
  · have hparse : parseCacheFilename ((cstr u).take 36 ++ extension) =
        some ⟨0, -1, ((cstr u).take 36 ++ extension).take 36⟩ := by
      rw [parseCacheFilename, if_pos]
      exact ⟨by rw [List.length_append, h36, hext], List.drop_left' h36⟩
    rw [retryItem, hparse]
    rfl
  · have hparse : parseCacheFilename ((cstr u).take 36 ++ extension) = none := by
      have hall : ((cstr u).take 36 ++ extension).length < 45 := by
        rw [List.length_append, hext]
        omega
      rw [parseCacheFilename, if_neg (by omega), if_pos (by omega)]
    rw [retryItem, hparse]

theorem makeCachePath_neg (ts : Nat) (u : Bytes) :
    makeCachePath ts (-1) u = (cstr u).take 36 ++ extension := if_neg (by decide)

/-- The queue lost a file and gained none. -/
def Loses (d d' : Dir) (name : Bytes) : Prop := ∀ f ∈ d'.queue, f ∈ d.queue ∧ f.1 ≠ name

theorem loses_remove (d : Dir) (n : Bytes) : Loses d (d.remove n) n := by
  intro f hf
  rw [Dir.queue_remove] at hf
  exact ⟨List.mem_of_mem_filter hf, by simpa using (List.mem_filter.mp hf).2⟩

theorem loses_removeEnvelope (d : Dir) (n : Bytes) : Loses d (d.removeEnvelope n) n := by
  intro f hf
  simp only [Dir.removeEnvelope] at hf
  split at hf
  · obtain ⟨hq, hn⟩ := loses_remove _ n f hf
    obtain ⟨hm, hr⟩ := Dir.mem_queue.mp hq
    exact ⟨Dir.mem_queue.mpr ⟨List.mem_of_mem_filter hm, hr⟩, hn⟩
  · exact loses_remove _ n f hf

theorem mem_of_lookup {n : Bytes} {e : Envelope} (h : d.lookup n = some e) : (n, e) ∈ d := by
  induction d with
  | nil => cases h
  | cons f d ih =>
    rw [List.lookup_cons] at h
    split at h
    · rename_i heq
      cases h
      rw [eq_of_beq heq]
      exact List.mem_cons_self
    · exact List.mem_cons_of_mem f (ih h)

theorem loses_moveCache {n : Bytes} {e : Envelope} (hl : d.lookup n = some e) (now : Nat) :
    Loses d (d.moveCache n (-1) now) n := by
  have hmove : ∃ u : Bytes, d.moveCache n (-1) now =
      (d.remove n).write ((cstr u).take 36 ++ extension) e := by
    simp only [Dir.moveCache, makeCachePath_neg, Dir.rename, hl]
    exact ⟨_, rfl⟩
  obtain ⟨u, hu⟩ := hmove
  intro f hf
  rw [hu, Dir.queue_write_bare (retryItem_bare_any u)] at hf
  exact loses_remove d n f hf

theorem handleResult_loses {i : Item} {e : Envelope} {r : Reply} (hl : d.lookup i.name = some e)
    (hk : (handleResult keep d i e r).2 = false) :
    Loses d (handleResult keep d i e r).1 i.name := by
  simp only [handleResult] at hk ⊢
  split
  · rename_i hc
    rw [if_pos hc] at hk
    cases hk
  · split
    · split
      · exact loses_remove d i.name
      · exact loses_moveCache hl r.now
    · split
      · rename_i d' hw
        split at hw
        · intro f hf
          obtain ⟨hq, hn⟩ := loses_remove d' i.name f hf
          rw [writeToCache_queue hw] at hq
          exact ⟨hq, hn⟩
        · cases hw
      · exact loses_removeEnvelope d i.name

/-- A kept file is renamed: the queue does not grow. -/
theorem handleResult_kept {i : Item} {e : Envelope} {r : Reply} (hd : d.names.Nodup)
    (hi : retryItem i.name = some i) (hl : d.lookup i.name = some e)
    (hk : (handleResult keep d i e r).2 = true) :
    (handleResult keep d i e r).1.queue.length ≤ d.queue.length ∧
      ∀ f ∈ (handleResult keep d i e r).1.queue, ∃ g ∈ d.queue, g.2 = f.2 := by
  have hmem : (i.name, e) ∈ d.queue := Dir.mem_queue.mpr ⟨mem_of_lookup hl, by rw [hi]; rfl⟩
  have hres : ∃ new, (handleResult keep d i e r).1 = (d.remove i.name).write new e := by
    simp only [handleResult] at hk ⊢
    split
    · simp only [Dir.rename, hl]
      exact ⟨_, rfl⟩
    · rename_i hc
      rw [if_neg hc] at hk
      split at hk
      · split at hk <;> cases hk
      · split at hk <;> cases hk
  obtain ⟨new, hnew⟩ := hres
  rw [hnew]
  have hqueue : ((d.remove i.name).write new e).queue =
      ((d.remove i.name).remove new).queue ++ Dir.queue [(new, e)] := List.filter_append ..
  have hlen : (Dir.queue [(new, e)]).length ≤ 1 := List.length_filter_le ..
  have hless : (d.queue.filter (·.1 ≠ i.name)).length + 1 = d.queue.length := by
    have hperm := (filter_ne_perm (Dir.queue_nodup hd) hmem).length_eq
    simpa using hperm
  have hsub : ((d.remove i.name).remove new).queue.length ≤ (d.queue.filter (·.1 ≠ i.name)).length := by
    rw [Dir.queue_remove, Dir.queue_remove]
    exact List.length_filter_le ..
  refine ⟨?_, ?_⟩
  · rw [hqueue, List.length_append]
    omega
  · intro f hf
    rw [hqueue] at hf
    rcases List.mem_append.mp hf with hf | hf
    · obtain ⟨hq, -⟩ := loses_remove _ new f hf
      exact ⟨f, (loses_remove d i.name f hq).1, rfl⟩
    · have hfe : f = (new, e) := List.mem_singleton.mp (List.mem_of_mem_filter hf)
      exact ⟨_, hmem, by rw [hfe]⟩

/-- What a round leaves of a queue `q`, of which the files `gone` are out already. -/
structure Within (q : Dir) (gone : List Bytes) (s : Round) : Prop where
  nodup : s.dir.names.Nodup
  goneNodup : gone.Nodup
  goneOf : ∀ n ∈ gone, n ∈ q.names
  queue : ∀ f ∈ s.dir.queue, f ∈ q ∧ f.1 ∉ gone
  total : q.length ≤ s.total + gone.length

theorem Within.length_le {q : Dir} {gone : List Bytes} {s : Round} (h : Within q gone s) :
    s.dir.queue.length ≤ s.total := by
  have hnd : (gone ++ s.dir.queue.names).Nodup := by
    refine List.nodup_append.mpr ⟨h.goneNodup, Dir.queue_nodup h.nodup, ?_⟩
    intro a ha b hb e
    obtain ⟨f, hf, rfl⟩ := List.mem_map.mp hb
    exact (h.queue f hf).2 (e ▸ ha)
  have hsub : gone ++ s.dir.queue.names ⊆ q.names := by
    intro n hn
    rcases List.mem_append.mp hn with hn | hn
    · exact h.goneOf n hn
    · obtain ⟨f, hf, rfl⟩ := List.mem_map.mp hn
      exact List.mem_map_of_mem (h.queue f hf).1
  have hle := (hnd.subperm hsub).length_le
  rw [List.length_append] at hle
  have hq : q.names.length = q.length := by simp [Dir.names]
  have hs : s.dir.queue.names.length = s.dir.queue.length := by simp [Dir.names]
  have ht := h.total
  omega

theorem Within.lose {q : Dir} {gone : List Bytes} {s : Round} (h : Within q gone s) {n : Bytes}
    (hn : n ∈ q.names) (hng : n ∉ gone) {t : Round} (hd : t.dir.names.Nodup)
    (hl : Loses s.dir t.dir n) (ht : t.total = s.total - 1) : Within q (n :: gone) t := by
  refine ⟨hd, List.nodup_cons.mpr ⟨hng, h.goneNodup⟩, ?_, ?_, ?_⟩
  · intro m hm
    rcases List.mem_cons.mp hm with rfl | hm
    · exact hn
    · exact h.goneOf m hm
  · intro f hf
    obtain ⟨hq, hne⟩ := hl f hf
    obtain ⟨hfq, hfg⟩ := h.queue f hq
    exact ⟨hfq, fun hc => (List.mem_cons.mp hc).elim hne hfg⟩
  · have htot := h.total
    rw [List.length_cons]
    omega

theorem retryLoop_within (c : Call) {q : Dir} (items : List Item) : ∀ (i : Nat) (s : Round)
    (gone : List Bytes), Within q gone s → (∀ it ∈ items, retryItem it.name = some it) →
    (items.map Item.name).Nodup → (∀ it ∈ items, it.name ∈ q.names ∧ it.name ∉ gone) →
    (retryLoop keep c i items s).dir.queue.length ≤ (retryLoop keep c i items s).total ∧
      (retryLoop keep c i items s).dir.names.Nodup ∧
      ∀ f ∈ (retryLoop keep c i items s).dir.queue, ∃ g ∈ q, g.2 = f.2 := by
  induction items with
  | nil =>
    intro i s gone h _ _ _
    exact ⟨h.length_le, h.nodup, fun f hf => ⟨f, (h.queue f hf).1, rfl⟩⟩
  | cons item rest ih =>
    intro i s gone h hitem hnd hin
    obtain ⟨hnot, hnd'⟩ := List.nodup_cons.mp hnd
    obtain ⟨hq, hg⟩ := hin item List.mem_cons_self
    have goOn : ∀ t : Round, Within q (item.name :: gone) t →
        (retryLoop keep c (i + 1) rest t).dir.queue.length ≤
            (retryLoop keep c (i + 1) rest t).total ∧
          (retryLoop keep c (i + 1) rest t).dir.names.Nodup ∧
          ∀ f ∈ (retryLoop keep c (i + 1) rest t).dir.queue, ∃ g ∈ q, g.2 = f.2 := by
      intro t ht
      refine ih (i + 1) t (item.name :: gone) ht
        (fun it hit => hitem it (List.mem_cons_of_mem _ hit)) hnd' fun it hit => ?_
      obtain ⟨hiq, hig⟩ := hin it (List.mem_cons_of_mem _ hit)
      refine ⟨hiq, fun hc => ?_⟩
      rcases List.mem_cons.mp hc with hc | hc
      · exact hnot (hc ▸ List.mem_map_of_mem hit)
      · exact hig hc
    have unread : ∀ events, Within q (item.name :: gone)
        ⟨s.dir.removeEnvelope item.name, s.total - 1, events⟩ := fun events =>
      h.lose hq hg (Dir.nodup_removeEnvelope h.nodup _) (loses_removeEnvelope _ _) rfl
    simp only [retryLoop]
    split
    · rename_i e r hl hr
      cases hk : (handleResult keep s.dir item e r).2 with
      | false =>
        have hlose := handleResult_loses hl hk
        have hw : ∀ events, Within q (item.name :: gone)
            ⟨(handleResult keep s.dir item e r).1, s.total - 1, events⟩ := fun events =>
          h.lose hq hg (handleResult_nodup h.nodup _ _ _) hlose rfl
        simp only [Bool.false_eq_true, ↓reduceIte]
        split
        · exact ⟨(hw _).length_le, (hw _).nodup, fun f hf => ⟨f, ((hw []).queue f hf).1, rfl⟩⟩
        · exact goOn _ (hw _)
      | true =>
        obtain ⟨hlen, hsub⟩ := handleResult_kept h.nodup (hitem item List.mem_cons_self) hl hk
        have hstop : r.status < 0 := by
          by_contra hs
          simp only [handleResult, hs, and_false, ↓reduceIte] at hk
          split at hk <;> cases hk
        simp only [↓reduceIte, hstop]
        refine ⟨hlen.trans h.length_le, handleResult_nodup h.nodup _ _ _, fun f hf => ?_⟩
        obtain ⟨g, hgq, hgf⟩ := hsub f hf
        exact ⟨g, (h.queue g hgq).1, hgf⟩
    · exact goOn _ (unread _)

/-- The number of files does not matter to what becomes of them. -/
theorem retryLoop_dir (c : Call) (items : List Item) : ∀ (i : Nat) (d : Dir) (m n : Nat)
    (events events' : List Event), (retryLoop keep c i items ⟨d, m, events⟩).dir =
      (retryLoop keep c i items ⟨d, n, events'⟩).dir := by
  induction items with
  | nil => exact fun _ _ _ _ _ _ => rfl
  | cons item rest ih =>
    intro i d m n events events'
    simp only [retryLoop]
    split
    · split
      · rfl
      · exact ih _ _ _ _ _ _
    · exact ih _ _ _ _ _ _

theorem retrySend_within {c : Call} (hd : d.names.Nodup) (hl : c.listing.Perm d.names) :
    (retrySend keep d c).dir.names.Nodup ∧
      (∀ f ∈ (retrySend keep d c).dir.queue, ∃ g ∈ d.queue, g.2 = f.2) ∧
      (c.before = 0 → (retrySend keep d c).total = 0 → (retrySend keep d c).dir.queue = []) := by
  cases hs : c.skipUpload with
  | true =>
    have hrun : retrySend keep d c = ⟨d, 1, []⟩ := by rw [retrySend, if_pos hs]
    rw [hrun]
    exact ⟨hd, fun f hf => ⟨f, hf, rfl⟩, fun _ h => by cases h⟩
  | false =>
    have hrun : retrySend keep d c = retryLoop keep c 0 c.items ⟨d, c.candidates.length, []⟩ := by
      rw [retrySend, if_neg (by simp [hs])]
    have hstart : ∀ n, d.queue.length ≤ n → Within d.queue [] ⟨d, n, []⟩ := fun n hn =>
      ⟨hd, List.nodup_nil, by simp, fun f hf => ⟨hf, by simp⟩, by simpa using hn⟩
    have hitem : ∀ it ∈ c.items, retryItem it.name = some it ∧ it.name ∈ d.queue.names := by
      intro it hit
      obtain ⟨f, hf, hfi⟩ := mem_items hl hit
      have hn : it.name = f.1 := retryItem_name hfi
      rw [hn]
      exact ⟨hfi, List.mem_map_of_mem hf⟩
    have hloop := fun n hn => @retryLoop_within keep c d.queue c.items 0 ⟨d, n, []⟩ [] (hstart n hn)
      (fun it hit => (hitem it hit).1) (items_names_nodup hd hl)
      (fun it hit => ⟨(hitem it hit).2, by simp⟩)
    obtain ⟨-, hnd, hsub⟩ := hloop d.queue.length (Nat.le_refl _)
    rw [retryLoop_dir c c.items 0 d d.queue.length c.candidates.length [] [], ← hrun] at hnd hsub
    refine ⟨hnd, hsub, fun hb htot => ?_⟩
    have hall : counted c d.queue = d.queue := by
      refine List.filter_eq_self.mpr fun f hf => ?_
      obtain ⟨i, hi⟩ := Option.isSome_iff_exists.mp (Dir.mem_queue.mp hf).2
      simp [hi, Call.counts, hb]
    have hlen : d.queue.length ≤ c.candidates.length := by rw [candidates_length hl, hall]
    have hle := (hloop c.candidates.length hlen).1
    rw [← hrun, htot] at hle
    exact List.eq_nil_of_length_eq_zero (Nat.le_zero.mp hle)

end SentryNative.Retry
