import SentryNative.Tracing.SpanTable

/-!
# Calls that keep the counts

One rule for each call of the API: it touches no freed object, and keeps the counts, the lists of live children and
the finished spans in order.

* `Closable.spanFinish`: a span leaves the list, and is added to the finished ones at most once;
* `Inv.transactionFinishValue`: what is captured holds the spans that were finished by then.
-/

namespace SentryNative.Tracing.Spans

open Finset CLib Value Machine
open Envelope (isTrue getLength)

variable {w w' : World} {h h' : Heap} {temp temp' : Ref → Nat} {i t c : Nat} {held : List Ref}

/-! ## Leaving the list -/

theorem unlist_append {as bs : List Nat} (hi : i ∉ as) :
    Heap.unlist i (as ++ i :: bs) = (as ++ (as ++ i :: bs).getLastD 0 :: bs).dropLast := by
  have hidx : (as ++ i :: bs).idxOf i = as.length := by
    rw [List.idxOf_append_of_notMem hi, List.idxOf_cons_self, Nat.add_zero]
  rw [Heap.unlist, hidx, if_pos (by simp), List.set_append_right _ _ (Nat.le_refl _), Nat.sub_self, List.set_cons_zero]

theorem perm_unlist (i : Nat) (cs : List Nat) : (Heap.unlist i cs).Perm (cs.erase i) := by
  by_cases hmem : i ∈ cs
  · obtain ⟨as, bs, rfl, hi⟩ := List.eq_append_cons_of_mem hmem
    rw [unlist_append hi, List.erase_append_right _ hi, List.erase_cons_head]
    rcases List.eq_nil_or_concat bs with rfl | ⟨bs', x, rfl⟩
    · rw [List.dropLast_concat, List.append_nil]
    · rw [List.concat_eq_append]
      have hlast : (as ++ i :: (bs' ++ [x])).getLastD 0 = x := by
        rw [← List.cons_append, ← List.append_assoc, List.getLastD_concat]
      rw [hlast, ← List.cons_append, ← List.append_assoc, List.dropLast_concat]
      exact List.Perm.append_left as (List.perm_append_singleton x bs').symm
  · rw [unlist_of_not_mem hmem, List.erase_of_not_mem hmem]

/-- The last child takes the place of the one that leaves: the children are not in the order of their starts any more. -/
example : Heap.unlist 1 [1, 2, 3] = [3, 2] := by decide

theorem mem_unlist {cs : List Nat} (hcs : cs.Nodup) {j : Nat} : j ∈ Heap.unlist i cs ↔ j ≠ i ∧ j ∈ cs := by
  rw [(perm_unlist i cs).mem_iff, hcs.mem_erase_iff]

theorem Table.unlist {un : List Nat} {held' : List Ref} {s : Span} {tx : Transaction} (tab : Table h un held)
    (hs : h.spans i = some s) (htx : h.transactions s.transaction = some tx)
    (hold : ∀ j, .span j ∈ held' → .span j ∈ held) (hnew : ∀ j, j ≠ i → .span j ∈ held → .span j ∈ held')
    (hi : .span i ∉ held' ∨ i ∈ un) :
    Table (h.storeTransaction s.transaction (some { tx with children := Heap.unlist i tx.children })) un held' where
  nodup u tx' hu := by
    rw [transactions_storeTransaction] at hu
    split at hu
    · cases hu
      exact (perm_unlist i tx.children).nodup_iff.mpr ((tab.nodup _ tx htx).erase i)
    · exact tab.nodup u tx' hu
  listed u tx' j hu hj := by
    rw [transactions_storeTransaction] at hu
    split at hu
    · rename_i hut
      cases hu
      obtain ⟨hne, hj⟩ := (mem_unlist (tab.nodup _ tx htx)).mp hj
      obtain ⟨hheld, hun, hspan⟩ := tab.listed _ tx j htx hj
      exact ⟨hnew j hne hheld, hun, hut ▸ hspan⟩
    · rename_i hut
      obtain ⟨hheld, hun, hspan⟩ := tab.listed u tx' j hu hj
      refine ⟨hnew j (fun hji => hut ?_) hheld, hun, hspan⟩
      subst hji
      exact (hspan s hs).symm
  complete j s' tx' hs' hheld hun hu := by
    have hne : j ≠ i := by
      rintro rfl
      exact hi.elim (· hheld) (hun ·)
    rw [transactions_storeTransaction] at hu
    split at hu
    · rename_i hut
      cases hu
      exact (mem_unlist (tab.nodup _ tx htx)).mpr ⟨hne, tab.complete j s' tx hs' (hold j hheld) hun (hut ▸ htx)⟩
    · exact tab.complete j s' tx' hs' (hold j hheld) hun hu

theorem Book.letGo {maxSpans : Nat} {y : History} (b : Book h maxSpans held y) (o : Ref) :
    Book h maxSpans (held.erase o) y where
  distinct := b.distinct.erase o
  span := b.span
  transaction := b.transaction
  bound := b.bound
  made := b.made
  unlisted := b.unlisted
  finished t f hf := by
    have hold := b.finished t f hf
    split at hold
    · rename_i hcrashing
      rw [if_pos hcrashing]
      exact hold
    · rename_i hcrashing
      rw [if_neg hcrashing]
      exact fun hmem => hold (List.mem_of_mem_erase hmem)
  once := b.once
  captured := b.captured

/-! ## Values -/

theorem getByKey_removeByKey_of_ne {v : Value} {k k' : Bytes} (hk : k' ≠ k) :
    (v.removeByKey k').getByKey k = v.getByKey k := by
  cases v with
  | object ps =>
    show lookup k (ps.eraseP fun p => p.1 = k') = lookup k ps
    induction ps with
    | nil => rfl
    | cons p ps ih =>
      by_cases hp : p.1 = k'
      · rw [List.eraseP_cons_of_pos (by simpa using hp)]
        obtain ⟨k₀, x⟩ := p
        subst hp
        simp [lookup, hk]
      · rw [List.eraseP_cons_of_neg (by simpa using hp)]
        obtain ⟨k₀, x⟩ := p
        simp only [lookup, ih]
  | _ => rfl

theorem isObject_setByKey {v : Value} (hv : v.IsObject) (k : Bytes) (x : Value) : (v.setByKey k x).IsObject := by
  obtain ⟨ps, rfl⟩ := hv
  exact ⟨_, rfl⟩

theorem isNull_of_isObject {v : Value} (hv : v.IsObject) : v.isNull = false := by
  obtain ⟨ps, rfl⟩ := hv
  rfl

theorem getLength_spansOf (fs : List Finished) : getLength (spansOf fs) = fs.length := by
  cases fs with
  | nil => rfl
  | cons f fs => simp [spansOf, getLength]

theorem spansOf_appendSpan {root : Value} {fs : List Finished} (ho : root.IsObject)
    (hk : root.getByKey spansKey = spansOf fs) (f : Finished) :
    (appendSpan root f.value).IsObject ∧ (appendSpan root f.value).getByKey spansKey = spansOf (fs ++ [f]) := by
  cases fs with
  | nil =>
    have happ : appendSpan root f.value = root.setByKey spansKey (.list [f.value]) := by
      rw [appendSpan, hk]
      rfl
    rw [happ]
    exact ⟨isObject_setByKey ho _ _, Scope.getByKey_setByKey ho _ _⟩
  | cons g fs =>
    have happ : appendSpan root f.value = root.setByKey spansKey (.list ((g :: fs).map Finished.value ++ [f.value])) := by
      rw [appendSpan, hk]
      rfl
    rw [happ]
    refine ⟨isObject_setByKey ho _ _, (Scope.getByKey_setByKey ho _ _).trans ?_⟩
    simp [spansOf]

theorem spans_finishedTransaction (inner : Value) (now : Bytes) :
    (finishedTransaction inner now).getByKey spansKey = inner.getByKey spansKey := by
  unfold finishedTransaction
  simp only [List.foldl_cons, List.foldl_nil]
  rw [getByKey_removeByKey_of_ne (by decide), getByKey_removeByKey_of_ne (by decide),
    getByKey_removeByKey_of_ne (by decide), getByKey_removeByKey_of_ne (by decide),
    getByKey_removeByKey_of_ne (by decide), getByKey_removeByKey_of_ne (by decide),
    getByKey_removeByKey_of_ne (by decide), Scope.getByKey_setByKey_of_ne (by decide)]
  have hlevel : ∀ v : Value, (((v.setByKey (ascii "type") (.string (ascii "transaction"))).setByKey timestampKey
      (.string now)).setByKey (ascii "level") (.string (ascii "info"))).getByKey spansKey = v.getByKey spansKey := fun v => by
    rw [Scope.getByKey_setByKey_of_ne (by decide), Scope.getByKey_setByKey_of_ne (by decide),
      Scope.getByKey_setByKey_of_ne (by decide)]
  split
  · rw [Scope.getByKey_setByKey_of_ne (by decide), hlevel, getByKey_removeByKey_of_ne (by decide)]
  · rw [hlevel, getByKey_removeByKey_of_ne (by decide)]

/-! ## Finishing a span -/

theorem Inv.append (h : Inv w temp) {root : Transaction} {f : Finished} (htx : w.heap.transactions t = some root)
    (hspan : f.span < w.heap.made) (hflag : if f.crashing then f.span ∈ w.history.unlisted else .span f.span ∉ w.held)
    (hfresh : ∀ g ∈ w.history.appended t, (g.span, g.crashing) ≠ (f.span, f.crashing)) : Inv (w.append t root f) temp := by
  unfold World.append
  split
  · exact h
  · rename_i hroom
    obtain ⟨hobject, hspans⟩ := h.book.transaction t root htx
    rw [hspans, getLength_spansOf] at hroom
    refine ⟨h.law.relist htx rfl, h.table.children (fun _ s hs => ⟨s, hs, rfl⟩) fun u tx' hu => ?_, ?_⟩
    · rw [transactions_storeTransaction] at hu
      split at hu
      · rename_i hut
        cases hu
        exact ⟨root, hut ▸ htx, rfl⟩
      · exact ⟨tx', hu, rfl⟩
    · have hmem : ∀ u, ∀ g ∈ Function.update w.history.appended t (w.history.appended t ++ [f]) u,
          g ∈ w.history.appended u ∨ u = t ∧ g = f := fun u g hg => by
        by_cases hu : u = t
        · subst hu
          rw [Function.update_self] at hg
          rcases List.mem_append.mp hg with hg | hg
          · exact .inl hg
          · exact .inr ⟨rfl, List.mem_singleton.mp hg⟩
        · rw [Function.update_of_ne hu] at hg
          exact .inl hg
      refine ⟨h.book.distinct, h.book.span, fun u tx' hu => ?_, fun u => ?_, fun u g hg => ?_, h.book.unlisted,
        fun u g hg => ?_, fun u => ?_, fun p hp => ?_⟩
      · rw [transactions_storeTransaction] at hu
        split at hu
        · rename_i hut
          cases hu
          subst hut
          dsimp only
          rw [Function.update_self]
          exact spansOf_appendSpan hobject hspans f
        · rename_i hut
          dsimp only
          rw [Function.update_of_ne hut]
          exact h.book.transaction u tx' hu
      · dsimp only
        by_cases hu : u = t
        · subst hu
          rw [Function.update_self, List.length_append, List.length_singleton]
          omega
        · rw [Function.update_of_ne hu]
          exact h.book.bound u
      · rcases hmem u g hg with hg | ⟨rfl, rfl⟩
        · exact h.book.made u g hg
        · exact ⟨h.law.transaction_lt_made htx, hspan⟩
      · rcases hmem u g hg with hg | ⟨rfl, rfl⟩
        · exact h.book.finished u g hg
        · exact hflag
      · dsimp only
        by_cases hu : u = t
        · subst hu
          rw [Function.update_self, List.map_append, List.map_singleton, List.nodup_append]
          refine ⟨h.book.once u, List.nodup_singleton _, fun a ha b hb => ?_⟩
          obtain ⟨g, hg, rfl⟩ := List.mem_map.mp ha
          rw [List.mem_singleton.mp hb]
          exact hfresh g hg
        · rw [Function.update_of_ne hu]
          exact h.book.once u
      · obtain ⟨fs, hfs, hv⟩ := h.book.captured p hp
        refine ⟨fs, hfs.trans ?_, hv⟩
        by_cases hu : p.1 = t
        · rw [hu]
          dsimp only
          rw [Function.update_self]
          exact List.prefix_append _ _
        · dsimp only
          rw [Function.update_of_ne hu]

/-- What is left as it was, or grows by one span, when a span is finished. -/
structure Closing (w w' : World) (new : Finished → Prop) : Prop where
  cleared : Cleared w w'
  unlisted : w'.history.unlisted = w.history.unlisted
  appended : ∀ t, ∀ f ∈ w'.history.appended t, f ∈ w.history.appended t ∨ new f

theorem Closing.refl (w : World) (new : Finished → Prop) : Closing w w new :=
  ⟨.refl w, rfl, fun _ _ hf => .inl hf⟩

theorem Closing.trans {w'' : World} {new new' : Finished → Prop} (k : Closing w w' new) (k' : Closing w' w'' new') :
    Closing w w'' fun f => new f ∨ new' f where
  cleared := k.cleared.trans k'.cleared
  unlisted := k'.unlisted.trans k.unlisted
  appended t f hf := by
    rcases k'.appended t f hf with hf | hf
    · exact (k.appended t f hf).imp id .inl
    · exact .inr (.inr hf)

theorem Closing.mono {new new' : Finished → Prop} (k : Closing w w' new) (hn : ∀ f, new f → new' f) : Closing w w' new' :=
  ⟨k.cleared, k.unlisted, fun t f hf => (k.appended t f hf).imp id (hn f)⟩

theorem Counted.closing (k : Counted w w') (new : Finished → Prop) : Closing w w' new := by
  refine ⟨k.cleared, ?_, fun t f hf => .inl ?_⟩
  · rw [k.rest]
  · rw [k.rest] at hf
    exact hf

/-- The span `i` is about to be finished: its list may still name it, and what it was added as is new. -/
structure Closable (w : World) (held : List Ref) (i : Nat) (crashing : Bool) : Prop where
  scopes : 0 < w.scopeCount
  table : Table w.heap w.history.unlisted held
  book : Book w.heap w.maxSpans w.held w.history
  old : ∀ j, .span j ∈ w.held → .span j ∈ held
  new : ∀ j, j ≠ i → .span j ∈ held → .span j ∈ w.held
  gone : .span i ∉ w.held ∨ i ∈ w.history.unlisted
  flag : if crashing then i ∈ w.history.unlisted else .span i ∉ w.held
  fresh : ∀ t, ∀ f ∈ w.history.appended t, (f.span, f.crashing) ≠ (i, crashing)

/-- A transaction without one of its children. -/
def World.without (w : World) (t i : Nat) (root : Transaction) : World :=
  { w with heap := w.heap.storeTransaction t (some { root with children := Heap.unlist i root.children }) }

theorem Closable.removeChild {crashing : Bool} (k : Closable w held i crashing)
    (law : Law w.heap fun o => w.ext o + temp o) {s : Span} (hs : w.heap.spans i = some s) :
    ∃ root, w.heap.transactions s.transaction = some root ∧
      w.on (Heap.removeChild s.transaction i) = some (w.without s.transaction i root) ∧
      Inv (w.without s.transaction i root) temp := by
  obtain ⟨root, hroot⟩ := law.parent hs
  refine ⟨root, hroot, by simp [World.on, Heap.removeChild, World.without, hroot], law.relist hroot rfl,
    k.table.unlist hs hroot k.old k.new k.gone, k.book.inner rfl (fun _ s hs => ⟨s, hs, rfl⟩) fun u tx' hu => ?_⟩
  rw [World.without, transactions_storeTransaction] at hu
  split at hu
  · rename_i hut
    cases hu
    exact ⟨root, hut ▸ hroot, rfl⟩
  · exact ⟨tx', hu, rfl⟩

theorem Closable.spanFinish {crashing : Bool} (k : Closable w held i crashing)
    (law : Law w.heap fun o => w.ext o + give (.span i) temp o) (now : Bytes) :
    ∃ w', w.spanFinish i now crashing = some w' ∧ Inv w' temp ∧
      Closing w w' fun f => (f.span, f.crashing) = (i, crashing) := by
  suffices hclose : ∃ w', w.closeSpan i now crashing = some w' ∧ Inv w' (give (.span i) temp) ∧
      Closing w w' fun f => (f.span, f.crashing) = (i, crashing) by
    obtain ⟨w₁, hop, hinv, hclosing⟩ := hclose
    obtain ⟨w₂, hop', hinv', hcount⟩ := hinv.spanDecref
    refine ⟨w₂, by rw [World.spanFinish, hop]; exact hop', hinv', ?_⟩
    exact (hclosing.trans (hcount.closing fun _ => False)).mono fun f hf => hf.elim id False.elim
  obtain ⟨s, hs⟩ := law.exists_span (i := i) (by simp)
  obtain ⟨root, hroot, hrem, hinv⟩ := k.removeChild law hs
  have hinner := isNull_of_isObject (k.book.span i s hs)
  have hrootInner := isNull_of_isObject (k.book.transaction _ root hroot).1
  unfold World.closeSpan
  simp only [hs, hroot, Option.bind_eq_bind, Option.bind_some, hinner, hrootInner, Bool.false_eq_true, or_self, if_false,
    hrem]
  have hunlisted : Closing w (w.without s.transaction i root) fun f => (f.span, f.crashing) = (i, crashing) :=
    ⟨⟨rfl, fun _ _ => rfl, .inl rfl, .inl rfl, rfl, rfl⟩, rfl, fun _ _ hf => .inl hf⟩
  split
  · exact ⟨_, rfl, hinv, hunlisted⟩
  · obtain ⟨w₂, hop, hinv₂, hcleared, hsame, hhistory⟩ := hinv.leaveSpan k.scopes s.inner
    have hleave : Closing (w.without s.transaction i root) w₂ fun _ => False :=
      ⟨hcleared, by rw [hhistory], fun _ _ hf => .inl (by rw [hhistory] at hf; exact hf)⟩
    have hleft := hunlisted.trans hleave
    rw [hop, Option.bind_some]
    split
    · exact ⟨w₂, rfl, hinv₂, hleft.mono fun f hf => hf.elim id False.elim⟩
    · obtain ⟨s₂, hs₂⟩ := hinv₂.law.exists_span (i := i) (by simp)
      obtain ⟨s₁, hs₁, -, ht⟩ := hsame.span i s₂ hs₂
      obtain rfl : s₁ = s := Option.some.inj (hs₁.symm.trans hs)
      obtain ⟨root₂, hroot₂⟩ := hinv₂.law.parent hs₂
      rw [ht] at hroot₂
      rw [hroot₂, Option.bind_some]
      have hheld : w₂.held = w.held := hcleared.held
      refine ⟨_, rfl, hinv₂.append hroot₂ (hinv₂.law.lt_made hs₂) ?_ ?_, ?_⟩
      · rw [hhistory, hheld]
        exact k.flag
      · rw [hhistory]
        exact k.fresh _
      · suffices happend : Closing w₂ (w₂.append s₁.transaction root₂ ⟨i, crashing, s₁.inner, now⟩)
            fun f => (f.span, f.crashing) = (i, crashing) from
          (hleft.trans happend).mono fun f hf => hf.elim (·.elim id False.elim) id
        unfold World.append
        split
        · exact .refl _ _
        · refine ⟨⟨rfl, fun _ _ => rfl, .inl rfl, .inl rfl, rfl, rfl⟩, rfl, fun u f hf => ?_⟩
          dsimp only at hf
          by_cases hu : u = s₁.transaction
          · subst hu
            rw [Function.update_self] at hf
            rcases List.mem_append.mp hf with hf | hf
            · exact .inl hf
            · rw [List.mem_singleton.mp hf]
              exact .inr rfl
          · rw [Function.update_of_ne hu] at hf
            exact .inl hf

/-! ## What callers give away -/

theorem Inv.letGo {o : Ref} (h : Inv w temp) (ho : o ∈ w.held) :
    Law (w.letGo o).heap (fun x => (w.letGo o).ext x + give o temp x) ∧
      Book (w.letGo o).heap (w.letGo o).maxSpans (w.letGo o).held (w.letGo o).history := by
  refine ⟨h.law.congr fun x => ?_, h.book.letGo o⟩
  have hext := ext_letGo ho x
  unfold give at hext ⊢
  omega

theorem Inv.letGo_transaction (h : Inv w temp) (ht : .transaction t ∈ w.held) :
    Inv (w.letGo (.transaction t)) (give (.transaction t) temp) := by
  obtain ⟨hlaw, hbook⟩ := h.letGo ht
  refine ⟨hlaw, ⟨h.table.nodup, fun u tx j hu hj => ?_, fun j s tx hs hheld => ?_⟩, hbook⟩
  · obtain ⟨hheld, hrest⟩ := h.table.listed u tx j hu hj
    exact ⟨(List.mem_erase_of_ne (by simp)).mpr hheld, hrest⟩
  · exact h.table.complete j s tx hs (List.mem_of_mem_erase hheld)

theorem Inv.closable (h : Inv w temp) (hc : 0 < w.scopeCount) (hi : .span i ∈ w.held) :
    Closable (w.letGo (.span i)) w.held i false := by
  have hgone : .span i ∉ w.held.erase (.span i) := h.book.distinct.not_mem_erase
  refine ⟨hc, h.table, (h.letGo hi).2, fun j hj => List.mem_of_mem_erase hj,
    fun j hj hheld => (List.mem_erase_of_ne (by simpa using hj)).mpr hheld, .inl hgone, hgone, fun t f hf heq => ?_⟩
  obtain ⟨hspan, hcrashing⟩ := Prod.mk.inj heq
  have hold := h.book.finished t f hf
  rw [hcrashing, if_neg Bool.false_ne_true, hspan] at hold
  exact hold hi

theorem Inv.spanFinish (h : Inv w temp) (hc : 0 < w.scopeCount) (hi : .span i ∈ w.held) (now : Bytes) :
    ∃ w', (w.letGo (.span i)).spanFinish i now false = some w' ∧ Inv w' temp ∧ w'.scopeCount = w.scopeCount := by
  obtain ⟨w', hop, hinv, hclosing⟩ := (h.closable hc hi).spanFinish (h.letGo hi).1 now
  exact ⟨w', hop, hinv, hclosing.cleared.scopeCount⟩

theorem Inv.spanDiscard (h : Inv w temp) (hc : 0 < w.scopeCount) (hi : .span i ∈ w.held) :
    ∃ w', (w.letGo (.span i)).spanDiscard i = some w' ∧ Inv w' temp ∧ w'.scopeCount = w.scopeCount := by
  obtain ⟨s, hs⟩ := (h.letGo hi).1.exists_span (i := i) (by simp)
  obtain ⟨root, -, hrem, hinv⟩ := (h.closable hc hi).removeChild (h.letGo hi).1 hs
  generalize hw : (w.letGo (.span i)).without s.transaction i root = w₁ at hrem hinv
  have hcount : w₁.scopeCount = w.scopeCount := by rw [← hw]; rfl
  unfold World.spanDiscard
  simp only [hs, hrem, Option.bind_eq_bind, Option.bind_some]
  split
  · rename_i hslot
    obtain ⟨w₂, hop, hcounted, hinv₂⟩ := hinv.releaseSpan (c := 0) (hcount ▸ hc)
    rw [hslot] at hop
    rw [hop, Option.map_some, Option.bind_some, hcounted.scopes]
    obtain ⟨w₃, hop₃, hinv₃, hcounted₃⟩ := hinv₂.spanDecref
    exact ⟨w₃, hop₃, hinv₃, by rw [hcounted₃.cleared.scopeCount, ← hcount]; exact hcounted.cleared.scopeCount⟩
  · obtain ⟨w₂, hop, hinv₂, hcounted⟩ := hinv.spanDecref
    exact ⟨w₂, hop, hinv₂, by rw [hcounted.cleared.scopeCount, hcount]⟩

theorem Inv.manageTrace (h : Inv w temp) (v : Value) :
    Inv (w.manageTrace v) temp ∧ Cleared w (w.manageTrace v) ∧ (w.manageTrace v).heap = w.heap ∧
      (w.manageTrace v).history = w.history := by
  unfold World.manageTrace
  dsimp only
  split
  · exact ⟨⟨h.law, h.table, h.book⟩, ⟨rfl, fun _ _ => rfl, .inl rfl, .inl rfl, rfl, rfl⟩, rfl, rfl⟩
  · exact ⟨h, .refl w, rfl, rfl⟩

theorem Inv.transactionFinishValue (h : Inv w (give (.transaction t) temp)) (hc : 0 < w.scopeCount) (now : Bytes) :
    ∃ w' v, w.transactionFinishValue t now = some (w', v) ∧ Inv w' temp ∧ Cleared w w' ∧ Same w.heap w'.heap ∧
      w'.history = w.history ∧ (v ≠ .null → v.getByKey spansKey = spansOf (w.history.appended t)) := by
  obtain ⟨root, hroot⟩ := h.law.exists_transaction (t := t) (by simp)
  obtain ⟨hobject, hspans⟩ := h.book.transaction t root hroot
  obtain ⟨w₁, hop₁, hinv₁, hcleared₁, hsame₁, hhistory₁⟩ := h.leaveTransaction hc root.inner
  obtain ⟨hinv₂, hcleared₂, hheap₂, hhistory₂⟩ := hinv₁.manageTrace root.inner
  obtain ⟨w₃, hop₃, hinv₃, hcounted⟩ := hinv₂.transactionDecref
  refine ⟨w₃, if isTrue (root.inner.getByKey sampledKey) then finishedTransaction root.inner now else .null, ?_, hinv₃,
    (hcleared₁.trans hcleared₂).trans hcounted.cleared, (hheap₂ ▸ hsame₁).trans hcounted.same, ?_, fun hv => ?_⟩
  · unfold World.transactionFinishValue
    simp only [hroot, Option.bind_eq_bind, Option.bind_some, isNull_of_isObject hobject, Bool.false_eq_true, if_false, hop₁,
      hop₃]
  · rw [hcounted.rest]
    exact hhistory₂.trans hhistory₁
  · split at hv
    · rename_i hsampled
      rw [if_pos hsampled, spans_finishedTransaction, hspans]
    · exact absurd rfl hv

theorem Inv.capture (h : Inv w temp) {v : Value} (hv : v ≠ .null → v.getByKey spansKey = spansOf (w.history.appended t)) :
    Inv (w.capture t v) temp := by
  unfold World.capture
  split
  · exact h
  · rename_i hnull
    refine ⟨h.law, h.table, h.book.distinct, h.book.span, h.book.transaction, h.book.bound, h.book.made, h.book.unlisted,
      h.book.finished, h.book.once, fun p hp => ?_⟩
    rcases List.mem_append.mp hp with hp | hp
    · exact h.book.captured p hp
    · rw [List.mem_singleton.mp hp]
      exact ⟨_, List.prefix_rfl, hv fun hn => hnull (isNull_iff.mpr hn)⟩

theorem scopeCount_capture (w : World) (t : Nat) (v : Value) : (w.capture t v).scopeCount = w.scopeCount := by
  unfold World.capture
  split <;> rfl

theorem Inv.transactionFinish (h : Inv w temp) (hc : 0 < w.scopeCount) (ht : .transaction t ∈ w.held) (now : Bytes) :
    ∃ w', (do let (w, tx) ← (w.letGo (.transaction t)).transactionFinishValue t now; some (w.capture t tx)) = some w' ∧
      Inv w' temp ∧ w'.scopeCount = w.scopeCount := by
  obtain ⟨w₁, v, hop, hinv, hcleared, -, hhistory, hv⟩ := (h.letGo_transaction ht).transactionFinishValue hc now
  refine ⟨w₁.capture t v, by rw [hop]; rfl, hinv.capture fun hn => ?_, ?_⟩
  · rw [hhistory]
    exact hv hn
  · rw [scopeCount_capture, hcleared.scopeCount]
    rfl

theorem Inv.transactionDiscard (h : Inv w temp) (hc : 0 < w.scopeCount) (ht : .transaction t ∈ w.held) :
    ∃ w', (w.letGo (.transaction t)).transactionDiscard t = some w' ∧ Inv w' temp ∧ w'.scopeCount = w.scopeCount := by
  have hinv := h.letGo_transaction ht
  generalize hw : w.letGo (.transaction t) = w₁ at hinv
  have hcount : w₁.scopeCount = w.scopeCount := by rw [← hw]; rfl
  unfold World.transactionDiscard
  split
  · rename_i hslot
    obtain ⟨w₂, hop, hcounted, hinv₂⟩ := hinv.releaseTransaction (c := 0) (hcount ▸ hc)
    rw [hslot] at hop
    simp only [hop, Option.map_some, Option.bind_eq_bind, Option.bind_some, hcounted.scopes]
    obtain ⟨w₃, hop₃, hinv₃, hcounted₃⟩ := hinv₂.transactionDecref
    exact ⟨w₃, hop₃, hinv₃, by rw [hcounted₃.cleared.scopeCount, ← hcount]; exact hcounted.cleared.scopeCount⟩
  · simp only [Option.bind_eq_bind, Option.bind_some]
    obtain ⟨w₂, hop, hinv₂, hcounted⟩ := hinv.transactionDecref
    exact ⟨w₂, hop, hinv₂, by rw [hcounted.cleared.scopeCount, hcount]⟩

/-! ## What scopes refer to -/

theorem scopes_setSlots_self (w : World) (c : Nat) (s : Slots) : (w.setSlots c s).scopes c = s := by
  simp [World.setSlots]

theorem Inv.setTransactionObject (h : Inv w temp) (hc : c < w.scopeCount) {t : Option Nat}
    (ht : ∀ u ∈ t, .transaction u ∈ w.held) :
    ∃ w', w.setTransactionObject c t = some w' ∧ Inv w' temp ∧ w'.scopeCount = w.scopeCount := by
  obtain ⟨w₁, hop₁, hcounted₁, hinv₁⟩ := h.releaseSpan hc
  have hcount₁ : w₁.scopeCount = w.scopeCount := hcounted₁.cleared.scopeCount
  have hheld₁ : w₁.held = w.held := hcounted₁.cleared.held
  obtain ⟨w₂, hop₂, hinv₂, hcounted₂⟩ := hinv₁.transactionIncref_option (t := t) fun u hu =>
    have hmem : .transaction u ∈ (w₁.setSlots c ⟨none, (w.scopes c).transactionObject⟩).held := hheld₁.symm ▸ ht u hu
    Nat.lt_of_lt_of_le (ext_pos hmem) (Nat.le_add_right _ _)
  have hcount₂ : w₂.scopeCount = w.scopeCount := hcounted₂.cleared.scopeCount.trans hcount₁
  have hslots : w₂.scopes c = ⟨none, (w.scopes c).transactionObject⟩ := by
    rw [hcounted₂.scopes, scopes_setSlots_self]
  obtain ⟨w₃, hop₃, hcounted₃, hinv₃⟩ := hinv₂.releaseTransaction (c := c) (hcount₂ ▸ hc)
  refine ⟨w₃.setSlots c ⟨(w₃.scopes c).span, t⟩, ?_, ?_, hcounted₃.cleared.scopeCount.trans hcount₂⟩
  · unfold World.setTransactionObject
    simp only [hop₁, hcounted₁.scopes, hop₂, hop₃, Option.bind_eq_bind, Option.bind_some]
  · have hcount₃ : w₃.scopeCount = w₂.scopeCount := hcounted₃.cleared.scopeCount
    have hput : Inv _ temp := hinv₃.setSlots (c := c) (hcount₃ ▸ hcount₂ ▸ hc) ⟨(w₂.scopes c).span, t⟩ fun o => by
      have hadd := slotCount_add ⟨(w₂.scopes c).span, t⟩ o
      dsimp only at hadd
      rw [scopes_setSlots_self, giveOption_transaction]
      omega
    rw [setSlots_setSlots] at hput
    rw [hcounted₃.scopes]
    exact hput

theorem Inv.setSpan (h : Inv w temp) (hc : c < w.scopeCount) {i : Option Nat} (hi : ∀ j ∈ i, .span j ∈ w.held) :
    ∃ w', w.setSpan c i = some w' ∧ Inv w' temp ∧ w'.scopeCount = w.scopeCount := by
  obtain ⟨w₁, hop₁, hcounted₁, hinv₁⟩ := h.releaseTransaction hc
  have hcount₁ : w₁.scopeCount = w.scopeCount := hcounted₁.cleared.scopeCount
  have hheld₁ : w₁.held = w.held := hcounted₁.cleared.held
  obtain ⟨w₂, hop₂, hinv₂, hcounted₂⟩ := hinv₁.spanIncref_option (i := i) fun j hj =>
    have hmem : .span j ∈ (w₁.setSlots c ⟨(w.scopes c).span, none⟩).held := hheld₁.symm ▸ hi j hj
    Nat.lt_of_lt_of_le (ext_pos hmem) (Nat.le_add_right _ _)
  have hcount₂ : w₂.scopeCount = w.scopeCount := hcounted₂.cleared.scopeCount.trans hcount₁
  have hslots : w₂.scopes c = ⟨(w.scopes c).span, none⟩ := by
    rw [hcounted₂.scopes, scopes_setSlots_self]
  obtain ⟨w₃, hop₃, hcounted₃, hinv₃⟩ := hinv₂.releaseSpan (c := c) (hcount₂ ▸ hc)
  refine ⟨w₃.setSlots c ⟨i, (w₃.scopes c).transactionObject⟩, ?_, ?_, hcounted₃.cleared.scopeCount.trans hcount₂⟩
  · unfold World.setSpan
    simp only [hop₁, hcounted₁.scopes, hop₂, hop₃, Option.bind_eq_bind, Option.bind_some]
  · have hcount₃ : w₃.scopeCount = w₂.scopeCount := hcounted₃.cleared.scopeCount
    have hput : Inv _ temp := hinv₃.setSlots (c := c) (hcount₃ ▸ hcount₂ ▸ hc) ⟨i, (w₂.scopes c).transactionObject⟩
      fun o => by
        have hadd := slotCount_add ⟨i, (w₂.scopes c).transactionObject⟩ o
        dsimp only at hadd
        rw [scopes_setSlots_self, giveOption_span]
        omega
    rw [setSlots_setSlots] at hput
    rw [hcounted₃.scopes]
    exact hput

theorem Inv.cloneScope (h : Inv w temp) {s : Slots} (hspan : ∀ i ∈ s.span, 0 < w.ext (.span i))
    (ht : ∀ t ∈ s.transactionObject, 0 < w.ext (.transaction t)) :
    ∃ w', w.cloneScope s = some w' ∧ Inv w' temp ∧ w'.scopeCount = w.scopeCount + 1 := by
  obtain ⟨w₁, hop₁, hinv₁, hcounted₁⟩ := h.transactionIncref_option (t := s.transactionObject) fun t hmem =>
    Nat.lt_of_lt_of_le (ht t hmem) (Nat.le_add_right _ _)
  have hext : w₁.ext = w.ext := by rw [hcounted₁.rest]; rfl
  obtain ⟨w₂, hop₂, hinv₂, hcounted₂⟩ := hinv₁.spanIncref_option (i := s.span) fun i hmem =>
    Nat.lt_of_lt_of_le (hext ▸ hspan i hmem) (Nat.le_add_right _ _)
  have hcount : w₂.scopeCount = w.scopeCount := hcounted₂.cleared.scopeCount.trans hcounted₁.cleared.scopeCount
  refine ⟨{ w₂.setSlots w₂.scopeCount s with scopeCount := w₂.scopeCount + 1 }, ?_,
    ⟨hinv₂.law.congr fun o => ?_, hinv₂.table, hinv₂.book⟩, congrArg (· + 1) hcount⟩
  · unfold World.cloneScope
    simp only [hop₁, hop₂, Option.bind_eq_bind, Option.bind_some]
  · have hsum := Counting.sum_range_succ_update (slotCount o) w₂.scopes w₂.scopeCount s
    rw [giveOption_span, giveOption_transaction]
    rw [slotCount_add] at hsum
    unfold World.ext World.setSlots
    dsimp only
    omega

theorem Inv.cleanupScope (h : Inv w temp) (hc : c < w.scopeCount) :
    ∃ w', w.cleanupScope c = some w' ∧ Inv w' temp ∧ w'.scopeCount = w.scopeCount := by
  obtain ⟨w₁, hop₁, hcounted₁, hinv₁⟩ := h.releaseTransaction hc
  have hcount₁ : w₁.scopeCount = w.scopeCount := hcounted₁.cleared.scopeCount
  obtain ⟨w₂, hop₂, hcounted₂, hinv₂⟩ := hinv₁.releaseSpan (c := c) (by rw [← hcount₁] at hc; exact hc)
  rw [scopes_setSlots_self] at hop₂ hinv₂
  -- the slot was not emptied in between
  have hop : w₁.spanDecref (w.scopes c).span = some { w₁ with heap := w₂.heap } := by
    cases hj : (w.scopes c).span with
    | none =>
      rw [hj] at hop₂
      cases hop₂
      rfl
    | some j =>
      simp only [hj, World.spanDecref, World.on, Option.elim_some, World.setSlots, Option.map_eq_some_iff] at hop₂ ⊢
      obtain ⟨h', hh', rfl⟩ := hop₂
      exact ⟨h', hh', rfl⟩
  refine ⟨({ w₁ with heap := w₂.heap } : World).setSlots c ⟨none, none⟩, ?_, ?_, hcount₁⟩
  · unfold World.cleanupScope
    simp only [hop₁, hcounted₁.scopes, hop, Option.bind_eq_bind, Option.bind_some]
  · rw [hcounted₂.rest] at hinv₂
    have hsame : ({ w₁.setSlots c ⟨(w.scopes c).span, none⟩ with heap := w₂.heap } : World).setSlots c ⟨none, none⟩ =
        ({ w₁ with heap := w₂.heap } : World).setSlots c ⟨none, none⟩ := by
      simp [World.setSlots]
    exact hsame ▸ hinv₂

/-! ## Setters -/

theorem Inv.edit (h : Inv w temp) {o : Ref} (ho : 0 < w.ext o + temp o) {k : Bytes} (hk : k ≠ spansKey) (v : Value) :
    ∃ w', w.edit o k v = some w' ∧ Inv w' temp ∧ w' = { w with heap := w'.heap } := by
  cases o with
  | span i =>
    obtain ⟨s, hs⟩ := h.law.exists_span ho
    refine ⟨{ w with heap := w.heap.storeSpan i (some { s with inner := s.inner.setByKey k v }) }, by simp [World.edit, hs],
      ⟨h.law.storeSpan hs rfl (h.law.span i s hs) fun o => rfl, h.table.children (fun j s' hj => ?_)
        fun t tx ht => ⟨tx, ht, rfl⟩, ?_⟩, rfl⟩
    · rw [spans_storeSpan] at hj
      split at hj
      · rename_i hji
        cases hj
        exact ⟨s, hji ▸ hs, rfl⟩
      · exact ⟨s', hj, rfl⟩
    refine ⟨h.book.distinct, fun j s' hj => ?_, h.book.transaction, h.book.bound, h.book.made, h.book.unlisted,
      h.book.finished, h.book.once, h.book.captured⟩
    rw [spans_storeSpan] at hj
    split at hj
    · cases hj
      exact isObject_setByKey (h.book.span i s hs) k v
    · exact h.book.span j s' hj
  | transaction t =>
    obtain ⟨tx, htx⟩ := h.law.exists_transaction ho
    refine ⟨{ w with heap := w.heap.storeTransaction t (some { tx with inner := tx.inner.setByKey k v }) },
      by simp [World.edit, htx], ⟨h.law.relist htx rfl, h.table.children (fun j s hs => ⟨s, hs, rfl⟩) fun u tx' hu => ?_, ?_⟩, rfl⟩
    · rw [transactions_storeTransaction] at hu
      split at hu
      · rename_i hut
        cases hu
        exact ⟨tx, hut ▸ htx, rfl⟩
      · exact ⟨tx', hu, rfl⟩
    · refine ⟨h.book.distinct, h.book.span, fun u tx' hu => ?_, h.book.bound, h.book.made, h.book.unlisted,
        h.book.finished, h.book.once, h.book.captured⟩
      rw [transactions_storeTransaction] at hu
      split at hu
      · rename_i hut
        cases hu
        subst hut
        obtain ⟨hobject, hspans⟩ := h.book.transaction u tx htx
        exact ⟨isObject_setByKey hobject k v, (Scope.getByKey_setByKey_of_ne hk).trans hspans⟩
      · exact h.book.transaction u tx' hu

/-! ## New objects -/

theorem Inv.hold (h : Inv w (give (.transaction t) temp)) (ht : .transaction t ∉ w.held) :
    Inv (w.hold (.transaction t)) temp where
  law := h.law.congr fun o => by
    rw [ext_hold]
    unfold give
    omega
  table := ⟨h.table.nodup, fun u tx j hu hj => by
      obtain ⟨hheld, hrest⟩ := h.table.listed u tx j hu hj
      exact ⟨List.mem_cons_of_mem _ hheld, hrest⟩,
    fun j s tx hs hheld => h.table.complete j s tx hs ((List.mem_cons.mp hheld).resolve_left nofun)⟩
  book := by
    refine ⟨List.nodup_cons.mpr ⟨ht, h.book.distinct⟩, h.book.span, h.book.transaction, h.book.bound, h.book.made,
      h.book.unlisted, fun u f hf => ?_, h.book.once, h.book.captured⟩
    have hold := h.book.finished u f hf
    split at hold
    · rename_i hcrashing
      rw [if_pos hcrashing]
      exact hold
    · rename_i hcrashing
      rw [if_neg hcrashing]
      exact fun hmem => hold ((List.mem_cons.mp hmem).resolve_left nofun)

theorem mergePairs_not_mem {ps : List (Bytes × Value)} {k : Bytes} : ∀ qs : List (Bytes × Value),
    k ∉ ps.map Prod.fst → k ∉ qs.map Prod.fst → k ∉ (mergePairs ps qs).map Prod.fst := by
  intro qs
  induction qs generalizing ps with
  | nil =>
    intro hp _
    rw [mergePairs]
    exact hp
  | cons q qs ih =>
    obtain ⟨k', v⟩ := q
    intro hp hq
    rw [List.map_cons, List.mem_cons, not_or] at hq
    have hins : ∀ x, k ∉ (insert k' x ps).map Prod.fst := fun x hmem =>
      (mem_keys_insert.mp hmem).elim hq.1 hp
    rw [mergePairs]
    split
    · exact ih (hins _) hq.2
    · split
      · exact ih (hins _) hq.2
      · exact ih hp hq.2

theorem unspanned_setByKey {v : Value} (hv : Unspanned v) {k : Bytes} (hs : spansKey ≠ k) (ht : timestampKey ≠ k)
    (x : Value) : Unspanned (v.setByKey k x) := by
  obtain ⟨ps, rfl, hspans, htime⟩ := hv
  exact ⟨_, rfl, fun hmem => (mem_keys_insert.mp hmem).elim hs hspans, fun hmem => (mem_keys_insert.mp hmem).elim ht htime⟩

theorem unspanned_removeByKey {v : Value} (hv : Unspanned v) (k : Bytes) : Unspanned (v.removeByKey k) := by
  obtain ⟨ps, rfl, hspans, htime⟩ := hv
  have hsub : (ps.eraseP fun p => p.1 = k).map Prod.fst ⊆ ps.map Prod.fst := (List.eraseP_sublist.map _).subset
  exact ⟨_, rfl, fun hmem => hspans (hsub hmem), fun hmem => htime (hsub hmem)⟩

/-- A new transaction has no spans, and has not ended. -/
theorem unspanned_startValue {ctx : Value} (hctx : Unspanned ctx) (eventId : Bytes) (fork : Option Value) (sampled : Bool)
    (now : Bytes) : Unspanned (startValue ctx eventId fork sampled now) := by
  have hctx' : Unspanned (if getLength (ctx.getByKey parentSpanIdKey) < 1 then ctx.removeByKey parentSpanIdKey else ctx) := by
    split
    · exact unspanned_removeByKey hctx _
    · exact hctx
  have hmerge : ∀ {c : Value}, Unspanned c → Unspanned (mergeObjects ((newEvent eventId now).removeByKey timestampKey) c) := by
    rintro _ ⟨qs, rfl, hspans, htime⟩
    obtain ⟨ps, hps, hs, ht⟩ : Unspanned ((newEvent eventId now).removeByKey timestampKey) :=
      ⟨[(ascii "event_id", .string eventId), (ascii "platform", .string (ascii "native"))], rfl, by simp; decide,
        by simp; decide⟩
    rw [hps, mergeObjects]
    exact ⟨_, rfl, mergePairs_not_mem qs hs hspans, mergePairs_not_mem qs ht htime⟩
  have hforked := hmerge hctx'
  unfold startValue
  dsimp only
  refine unspanned_setByKey (unspanned_setByKey (unspanned_removeByKey ?_ _) (by decide) (by decide) _) (by decide)
    (by decide) _
  split
  · exact unspanned_removeByKey (unspanned_removeByKey (unspanned_setByKey hforked (by decide) (by decide) _) _) _
  · exact hforked

theorem Unspanned.spans {v : Value} (hv : Unspanned v) : v.IsObject ∧ v.getByKey spansKey = .null := by
  obtain ⟨ps, rfl, hspans, -⟩ := hv
  exact ⟨⟨ps, rfl⟩, lookup_of_not_mem hspans⟩

theorem Inv.start (h : Inv w fun _ => 0) {ctx : Value} (hctx : Unspanned ctx) (eventId : Bytes) (fork : Option Value)
    (sampled : Bool) (now : Bytes) :
    Inv ({ w with heap := w.heap.transactionNew (startValue ctx eventId fork sampled now) }.hold (.transaction w.heap.made))
      fun _ => 0 := by
  obtain ⟨hobject, hspans⟩ := (unspanned_startValue hctx eventId fork sampled now).spans
  have hfresh : .transaction w.heap.made ∉ w.held := fun hmem => by
    obtain ⟨tx, htx⟩ := h.law.exists_transaction (t := w.heap.made)
      (Nat.lt_of_lt_of_le (ext_pos hmem) (Nat.le_add_right _ _))
    exact Nat.lt_irrefl _ (h.law.transaction_lt_made htx)
  generalize startValue ctx eventId fork sampled now = v at hobject hspans
  have hnone : w.history.appended w.heap.made = [] := List.eq_nil_iff_forall_not_mem.mpr fun f hf =>
    Nat.lt_irrefl _ (h.book.made _ f hf).1
  refine Inv.hold ⟨(h.law.transactionNew v).congr fun o => (give_add _ _ o), ?_, ?_⟩ hfresh
  · refine ⟨fun u tx hu => ?_, fun u tx j hu hj => ?_, fun j s tx hs hheld hun hu => ?_⟩
    · rw [Heap.transactionNew, transactions_storeTransaction] at hu
      split at hu
      · cases hu
        exact .nil
      · exact h.table.nodup u tx hu
    · rw [Heap.transactionNew, transactions_storeTransaction] at hu
      split at hu
      · cases hu
        exact absurd hj List.not_mem_nil
      · exact h.table.listed u tx j hu hj
    · obtain ⟨root, hroot⟩ := h.law.parent hs
      rw [Heap.transactionNew, transactions_storeTransaction,
        if_neg (Nat.ne_of_lt (h.law.transaction_lt_made hroot))] at hu
      exact h.table.complete j s tx hs hheld hun hu
  · refine ⟨h.book.distinct, h.book.span, fun u tx hu => ?_, h.book.bound, fun u f hf => ?_, fun j hj => ?_,
      h.book.finished, h.book.once, h.book.captured⟩
    · rw [Heap.transactionNew, transactions_storeTransaction] at hu
      split at hu
      · rename_i hut
        cases hu
        subst hut
        rw [hnone]
        exact ⟨hobject, hspans⟩
      · exact h.book.transaction u tx hu
    · obtain ⟨ht, hf'⟩ := h.book.made u f hf
      exact ⟨Nat.lt_succ_of_lt ht, Nat.lt_succ_of_lt hf'⟩
    · exact Nat.lt_succ_of_lt (h.book.unlisted j hj)

end SentryNative.Tracing.Spans
