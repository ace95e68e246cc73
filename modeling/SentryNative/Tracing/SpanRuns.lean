import SentryNative.Tracing.SpanCalls

/-!
# Spans over the runs

Starting a span, closing everything after a crash, and what holds over all runs.

* `Inv.traceFinish`: after a crash everything is closed, and the scopes are as they were;
* `spans_counted`, `live_children`, `captured_spans`: what holds over all runs.
-/

namespace SentryNative.Tracing.Spans

open Finset CLib Value Machine
open Envelope (isTrue getLength)

variable {w w' : World} {h h' : Heap} {temp temp' : Ref → Nat} {i t c : Nat} {held : List Ref}

/-! ## Starting a span -/

theorem list_children (i : Nat) (grows : Bool) (tx : Transaction) :
    (Heap.list i grows tx).children = tx.children ++ [i] ∨ (Heap.list i grows tx).children = tx.children := by
  unfold Heap.list
  dsimp only
  generalize (if tx.children.length = tx.childrenCap ∧ grows = true then
    if tx.childrenCap = 0 then 4 else tx.childrenCap * 2 else tx.childrenCap) = cap
  split
  · exact .inl rfl
  · exact .inr rfl

theorem valueSpanNew_object {maxSpans : Nat} {parent : Value} {operation description spanId now : Bytes}
    (hv : (valueSpanNew maxSpans parent operation description spanId now).isNull ≠ true) :
    (valueSpanNew maxSpans parent operation description spanId now).IsObject := by
  unfold valueSpanNew at hv ⊢
  split
  · exact ⟨_, rfl⟩
  · rename_i hno
    rw [if_neg hno] at hv
    exact absurd rfl hv

/-- A span is made, and its transaction lists it or not. -/
theorem Inv.madeSpan (h : Inv w (give (.transaction t) temp)) {tx tx' : Transaction} {inner : Value}
    (htx : w.heap.transactions t = some tx) (hinner : inner.IsObject) (hrefs : tx'.refs = tx.refs)
    (hvalue : tx'.inner = tx.inner) (hchildren : tx'.children = tx.children ++ [w.heap.made] ∨ tx'.children = tx.children) :
    Inv
      { w with
        heap := { (w.heap.storeTransaction t (some tx')).storeSpan w.heap.made (some ⟨inner, 1, t⟩) with made := w.heap.made + 1 }
        held := .span w.heap.made :: w.held
        history.unlisted := if w.heap.made ∈ tx'.children then w.history.unlisted else w.heap.made :: w.history.unlisted }
      temp := by
  have hlisted : w.heap.made ∉ tx.children := fun hmem => by
    obtain ⟨s, hs⟩ := h.law.exists_span (i := w.heap.made) (Nat.lt_of_lt_of_le
      (ext_pos (h.table.listed t tx _ htx hmem).1) (Nat.le_add_right _ _))
    exact Nat.lt_irrefl _ (h.law.lt_made hs)
  have hheld : .span w.heap.made ∉ w.held := fun hmem => by
    obtain ⟨s, hs⟩ := h.law.exists_span (i := w.heap.made) (Nat.lt_of_lt_of_le (ext_pos hmem) (Nat.le_add_right _ _))
    exact Nat.lt_irrefl _ (h.law.lt_made hs)
  have hun : w.heap.made ∉ w.history.unlisted := fun hmem => Nat.lt_irrefl _ (h.book.unlisted _ hmem)
  have hunlisted : ∀ j, j ∈ (if w.heap.made ∈ tx'.children then w.history.unlisted else
      w.heap.made :: w.history.unlisted) ↔ j ∈ w.history.unlisted ∨ j = w.heap.made ∧ w.heap.made ∉ tx'.children := fun j => by
    split
    · rename_i hmem
      simp [hmem]
    · rename_i hmem
      simp [hmem, or_comm]
  have hmem : ∀ j, j ∈ tx'.children → j ∈ tx.children ∨ j = w.heap.made := fun j hj => by
    rcases hchildren with heq | heq
    · rw [heq, List.mem_append, List.mem_singleton] at hj
      exact hj
    · exact .inl (heq ▸ hj)
  have hsub : ∀ j, j ∈ tx.children → j ∈ tx'.children := fun j hj => by
    rcases hchildren with heq | heq
    · exact heq ▸ List.mem_append_left _ hj
    · exact heq ▸ hj
  have hspans : ∀ j s, (if j = w.heap.made then some (⟨inner, 1, t⟩ : Span) else w.heap.spans j) = some s →
      j = w.heap.made ∧ s = ⟨inner, 1, t⟩ ∨ w.heap.spans j = some s := fun j s hs => by
    split at hs
    · rename_i hj
      cases hs
      exact .inl ⟨hj, rfl⟩
    · exact .inr hs
  refine ⟨?_, ⟨fun u root hu => ?_, fun u root j hu hj => ?_, fun j s root hs hmemHeld hnot hu => ?_⟩, ?_⟩
  · have hlaw := ((h.law.congr fun o => (give_add _ _ o).symm).relist htx hrefs).madeSpan inner
    refine hlaw.congr fun o => ?_
    have hext := ext_hold (w := w) (.span w.heap.made) o
    unfold give at hext ⊢
    show (w.hold (.span w.heap.made)).ext o + temp o = _
    rw [hext]
    show _ = w.ext o + temp o + if o = .span w.heap.made then 1 else 0
    omega
  · dsimp only at hu
    rw [show (Heap.storeSpan (w.heap.storeTransaction t (some tx')) w.heap.made (some ⟨inner, 1, t⟩)).transactions =
      (w.heap.storeTransaction t (some tx')).transactions from rfl, transactions_storeTransaction] at hu
    split at hu
    · cases hu
      rcases hchildren with heq | heq
      · rw [heq, List.nodup_append]
        refine ⟨h.table.nodup t tx htx, List.nodup_singleton _, fun a ha b hb hab => ?_⟩
        rw [List.mem_singleton.mp hb] at hab
        exact hlisted (hab ▸ ha)
      · exact heq ▸ h.table.nodup t tx htx
    · exact h.table.nodup u root hu
  · dsimp only at hu ⊢
    rw [show (Heap.storeSpan (w.heap.storeTransaction t (some tx')) w.heap.made (some ⟨inner, 1, t⟩)).transactions =
      (w.heap.storeTransaction t (some tx')).transactions from rfl, transactions_storeTransaction] at hu
    rw [hunlisted]
    have hold : ∀ root', w.heap.transactions u = some root' → j ∈ root'.children →
        .span j ∈ .span w.heap.made :: w.held ∧ ¬(j ∈ w.history.unlisted ∨ j = w.heap.made ∧ w.heap.made ∉ tx'.children) ∧
          ∀ s, (if j = w.heap.made then some (⟨inner, 1, t⟩ : Span) else w.heap.spans j) = some s → s.transaction = u :=
      fun root' hroot' hj' => by
        obtain ⟨hjheld, hjun, hjspan⟩ := h.table.listed u root' j hroot' hj'
        have hne : j ≠ w.heap.made := fun he => hheld (he ▸ hjheld)
        refine ⟨List.mem_cons_of_mem _ hjheld, fun hor => hor.elim hjun fun hand => hne hand.1, fun s hs => ?_⟩
        rw [if_neg hne] at hs
        exact hjspan s hs
    have hview : ∀ s, (Heap.storeSpan (w.heap.storeTransaction t (some tx')) w.heap.made (some ⟨inner, 1, t⟩)).spans j = some s ↔
        (if j = w.heap.made then some (⟨inner, 1, t⟩ : Span) else w.heap.spans j) = some s := fun s => by
      rw [spans_storeSpan]
      rfl
    simp only [hview]
    split at hu
    · rename_i hut
      cases hu
      rcases hmem j hj with hj' | rfl
      · exact hold tx (hut ▸ htx) hj'
      · refine ⟨List.mem_cons_self, fun hor => hor.elim hun fun hand => hand.2 hj, fun s hs => ?_⟩
        rw [if_pos rfl] at hs
        cases hs
        exact hut.symm
    · exact hold root hu hj
  · dsimp only at hs hu hmemHeld hnot
    rw [hunlisted, not_or] at hnot
    rw [spans_storeSpan] at hs
    rw [show (Heap.storeSpan (w.heap.storeTransaction t (some tx')) w.heap.made (some ⟨inner, 1, t⟩)).transactions =
      (w.heap.storeTransaction t (some tx')).transactions from rfl, transactions_storeTransaction] at hu
    rcases hspans j s hs with ⟨rfl, rfl⟩ | hs
    · rw [if_pos rfl] at hu
      cases hu
      by_contra hno
      exact hnot.2 ⟨rfl, hno⟩
    · have hne : j ≠ w.heap.made := Nat.ne_of_lt (h.law.lt_made hs)
      have hjheld : .span j ∈ w.held := (List.mem_cons.mp hmemHeld).resolve_left fun he => hne (Ref.span.inj he)
      split at hu
      · rename_i hut
        cases hu
        exact hsub j (h.table.complete j s tx hs hjheld hnot.1 (hut ▸ htx))
      · exact h.table.complete j s root hs hjheld hnot.1 hu
  · refine ⟨List.nodup_cons.mpr ⟨hheld, h.book.distinct⟩, fun j s hs => ?_, fun u root hu => ?_, h.book.bound,
      fun u f hf => ?_, fun j hj => ?_, fun u f hf => ?_, h.book.once, h.book.captured⟩
    · dsimp only at hs
      rw [spans_storeSpan] at hs
      rcases hspans j s hs with ⟨-, rfl⟩ | hs
      · exact hinner
      · exact h.book.span j s hs
    · dsimp only at hu
      rw [show (Heap.storeSpan (w.heap.storeTransaction t (some tx')) w.heap.made (some ⟨inner, 1, t⟩)).transactions =
        (w.heap.storeTransaction t (some tx')).transactions from rfl, transactions_storeTransaction] at hu
      split at hu
      · rename_i hut
        cases hu
        subst hut
        exact hvalue ▸ h.book.transaction u tx htx
      · exact h.book.transaction u root hu
    · obtain ⟨ht, hf'⟩ := h.book.made u f hf
      exact ⟨Nat.lt_succ_of_lt ht, Nat.lt_succ_of_lt hf'⟩
    · dsimp only at hj
      rcases (hunlisted j).mp hj with hj | ⟨rfl, -⟩
      · exact Nat.lt_succ_of_lt (h.book.unlisted j hj)
      · exact Nat.lt_succ_self _
    · have hold := h.book.finished u f hf
      have hne : f.span ≠ w.heap.made := Nat.ne_of_lt (h.book.made u f hf).2
      dsimp only
      split at hold
      · rename_i hcrashing
        rw [if_pos hcrashing]
        exact (hunlisted _).mpr (.inl hold)
      · rename_i hcrashing
        rw [if_neg hcrashing]
        exact fun hmem' => hold ((List.mem_cons.mp hmem').resolve_left fun he => hne (Ref.span.inj he))

theorem Inv.startChild (h : Inv w temp) {tx : Transaction} (htx : w.heap.transactions t = some tx) (parent : Value)
    (operation description spanId now : Bytes) (grows : Bool) :
    ∃ w', w.startChild parent t operation description spanId now grows = some w' ∧ Inv w' temp ∧
      w'.scopeCount = w.scopeCount := by
  unfold World.startChild
  dsimp only
  split
  · exact ⟨w, rfl, h, rfl⟩
  · rename_i hnull
    have hobject := valueSpanNew_object hnull
    generalize valueSpanNew w.maxSpans parent operation description spanId now = inner at hobject
    obtain ⟨h₁, hop, hlaw, hsame⟩ := h.law.transactionIncref htx
    obtain ⟨tx₁, htx₁⟩ := hlaw.exists_transaction (t := t) (by simp)
    have hinv : Inv { w with heap := h₁ } (give (.transaction t) temp) :=
      ⟨hlaw.congr fun o => give_add _ _ o, h.table.same hsame, h.book.same hsame⟩
    have hmade : h₁.made = w.heap.made := hsame.made
    have hnew := @Inv.madeSpan _ _ t hinv tx₁ (Heap.list h₁.made grows tx₁) inner htx₁ hobject rfl rfl (list_children _ _ _)
    have hspanNew : w.on (Heap.spanNew t inner grows) = some { w with heap := { (h₁.storeTransaction t
        (some (Heap.list h₁.made grows tx₁))).storeSpan h₁.made (some ⟨inner, 1, t⟩) with made := h₁.made + 1 } } := by
      simp only [World.on, Heap.spanNew, hop, htx₁, Option.bind_eq_bind, Option.bind_some, Option.map_some]
      rfl
    have hread : (Heap.storeSpan (h₁.storeTransaction t (some (Heap.list h₁.made grows tx₁))) h₁.made
        (some ⟨inner, 1, t⟩)).transactions t = some (Heap.list h₁.made grows tx₁) := by
      show (h₁.storeTransaction t _).transactions t = _
      rw [transactions_storeTransaction, if_pos rfl]
    simp only [hspanNew, hread, Option.bind_eq_bind, Option.bind_some, ← hmade]
    refine ⟨_, rfl, ?_, ?_⟩
    · split
      · rename_i hin
        simp only [hin, if_true] at hnew
        exact hnew
      · rename_i hout
        simp only [hout, if_false] at hnew
        exact hnew
    · split <;> rfl

/-! ## After a crash -/

theorem Inv.increfs {cs : List Nat} (h : Inv w temp) (hcs : ∀ j ∈ cs, .span j ∈ w.held) :
    ∃ w', cs.foldlM (fun w i => w.spanIncref (some i)) w = some w' ∧
      Inv w' (fun o => temp o + (cs.map Ref.span).count o) ∧ Counted w w' := by
  induction cs generalizing w temp with
  | nil => exact ⟨w, rfl, h, .refl w⟩
  | cons j cs ih =>
    obtain ⟨w₁, hop₁, hinv₁, hcounted₁⟩ := h.spanIncref
      (Nat.lt_of_lt_of_le (ext_pos (hcs j List.mem_cons_self)) (Nat.le_add_right _ _))
    obtain ⟨w₂, hop₂, hinv₂, hcounted₂⟩ := ih hinv₁ fun k hk => by
      rw [hcounted₁.cleared.held]
      exact hcs k (List.mem_cons_of_mem j hk)
    refine ⟨w₂, ?_, hinv₂.congr fun o => ?_, hcounted₁.trans hcounted₂⟩
    · rw [List.foldlM_cons, hop₁]
      exact hop₂
    · rw [List.map_cons, List.count_cons]
      unfold give
      simp only [beq_iff_eq, eq_comm (a := Ref.span j)]
      omega

/-- The live children are taken off the list all at once. -/
theorem Inv.unlistAll (h : Inv w temp) {tx : Transaction} (htx : w.heap.transactions t = some tx) :
    Inv
      { w with
        heap := w.heap.storeTransaction t (some { tx with children := [], childrenCap := 0 })
        history.unlisted := tx.children ++ w.history.unlisted }
      temp := by
  have hparent : ∀ u root j, w.heap.transactions u = some root → j ∈ root.children → j ∈ tx.children → u = t :=
    fun u root j hu hj hjt => by
      obtain ⟨hheld, -, hspan⟩ := h.table.listed u root j hu hj
      obtain ⟨s, hs⟩ := h.law.exists_span (i := j) (Nat.lt_of_lt_of_le (ext_pos hheld) (Nat.le_add_right _ _))
      exact (hspan s hs).symm.trans ((h.table.listed t tx j htx hjt).2.2 s hs)
  refine ⟨h.law.relist htx rfl, ⟨fun u root hu => ?_, fun u root j hu hj => ?_, fun j s root hs hheld hun hu => ?_⟩, ?_⟩
  · rw [transactions_storeTransaction] at hu
    split at hu
    · cases hu
      exact .nil
    · exact h.table.nodup u root hu
  · rw [transactions_storeTransaction] at hu
    split at hu
    · cases hu
      exact absurd hj List.not_mem_nil
    · rename_i hut
      obtain ⟨hheld, hun, hspan⟩ := h.table.listed u root j hu hj
      refine ⟨hheld, fun hmem => ?_, hspan⟩
      exact (List.mem_append.mp hmem).elim (fun hjt => hut (hparent u root j hu hj hjt)) hun
  · dsimp only at hun
    rw [List.mem_append, not_or] at hun
    rw [transactions_storeTransaction] at hu
    split at hu
    · rename_i hut
      exact absurd (h.table.complete j s tx hs hheld hun.2 (hut ▸ htx)) hun.1
    · exact h.table.complete j s root hs hheld hun.2 hu
  · refine ⟨h.book.distinct, h.book.span, fun u root hu => ?_, h.book.bound, h.book.made, fun j hj => ?_,
      fun u f hf => ?_, h.book.once, h.book.captured⟩
    · rw [transactions_storeTransaction] at hu
      split at hu
      · rename_i hut
        cases hu
        exact h.book.transaction u tx (hut ▸ htx)
      · exact h.book.transaction u root hu
    · rcases List.mem_append.mp hj with hj | hj
      · obtain ⟨s, hs⟩ := h.law.exists_span (i := j) (Nat.lt_of_lt_of_le
          (ext_pos (h.table.listed t tx j htx hj).1) (Nat.le_add_right _ _))
        exact h.law.lt_made hs
      · exact h.book.unlisted j hj
    · have hold := h.book.finished u f hf
      split at hold
      · rename_i hcrashing
        rw [if_pos hcrashing]
        exact List.mem_append_right _ hold
      · rename_i hcrashing
        rw [if_neg hcrashing]
        exact hold

theorem Cleared.of_heap (hw : w' = { w with heap := w'.heap }) : Cleared w w' := by
  rw [hw]
  exact ⟨rfl, fun _ _ => rfl, .inl rfl, .inl rfl, rfl, rfl⟩

theorem Inv.finishAll {cs : List Nat} (h : Inv w fun o => temp o + (cs.map Ref.span).count o) (hc : 0 < w.scopeCount)
    (hcs : cs.Nodup) (hun : ∀ j ∈ cs, j ∈ w.history.unlisted)
    (hfresh : ∀ j ∈ cs, ∀ t, ∀ f ∈ w.history.appended t, (f.span, f.crashing) ≠ (j, true)) (status now : Bytes) :
    ∃ w', cs.foldlM (fun w i => w.finishChild status now i) w = some w' ∧ Inv w' temp ∧ Cleared w w' := by
  induction cs generalizing w with
  | nil => exact ⟨w, rfl, h, .refl w⟩
  | cons j cs ih =>
    obtain ⟨hj, hcs⟩ := List.nodup_cons.mp hcs
    obtain ⟨w₁, hop₁, hinv₁, hrest₁⟩ := h.edit (o := .span j) (by simp) (k := statusKey) (by decide) (.string status)
    have hhistory₁ : w₁.history = w.history := by rw [hrest₁]
    have hcleared₁ := Cleared.of_heap hrest₁
    have hclosable : Closable w₁ w₁.held j true := by
      refine ⟨hcleared₁.scopeCount ▸ hc, hinv₁.table, hinv₁.book, fun _ => id, fun _ _ => id, .inr ?_, ?_, ?_⟩
      · rw [hhistory₁]
        exact hun j List.mem_cons_self
      · rw [hhistory₁]
        exact hun j List.mem_cons_self
      · rw [hhistory₁]
        exact hfresh j List.mem_cons_self
    have hlaw : Law w₁.heap fun o => w₁.ext o + give (.span j) (fun o => temp o + (cs.map Ref.span).count o) o :=
      hinv₁.law.congr fun o => by
        rw [List.map_cons, List.count_cons]
        unfold give
        simp only [beq_iff_eq, eq_comm (a := Ref.span j)]
        omega
    obtain ⟨w₂, hop₂, hinv₂, hclosing⟩ := hclosable.spanFinish hlaw now
    obtain ⟨w₃, hop₃, hinv₃, hcleared₃⟩ := ih hinv₂ (by rw [hclosing.cleared.scopeCount, hcleared₁.scopeCount]; exact hc) hcs
      (fun k hk => by
        rw [hclosing.unlisted, hhistory₁]
        exact hun k (List.mem_cons_of_mem j hk))
      fun k hk u f hf heq => by
        rcases hclosing.appended u f hf with hf | hf
        · rw [hhistory₁] at hf
          exact hfresh k (List.mem_cons_of_mem j hk) u f hf heq
        · obtain rfl : j = k := (Prod.mk.inj (hf.symm.trans heq)).1
          exact hj hk
    refine ⟨w₃, ?_, hinv₃, (hcleared₁.trans hclosing.cleared).trans hcleared₃⟩
    rw [List.foldlM_cons]
    simp only [World.finishChild, hop₁, hop₂, Option.bind_eq_bind, Option.bind_some]
    exact hop₃

theorem Inv.finishChildren (h : Inv w temp) (hc : 0 < w.scopeCount) (ht : 0 < w.ext (.transaction t) + temp (.transaction t))
    (status now : Bytes) :
    ∃ w', w.finishChildren t status now = some w' ∧ Inv w' temp ∧ Cleared w w' := by
  obtain ⟨tx, htx⟩ := h.law.exists_transaction ht
  obtain ⟨w₁, hop₁, hinv₁, hcounted₁⟩ := h.increfs fun j hj => (h.table.listed t tx j htx hj).1
  have hpos : 0 < w₁.ext (.transaction t) + (temp (.transaction t) + (tx.children.map Ref.span).count (.transaction t)) := by
    rw [hcounted₁.rest]
    exact Nat.lt_of_lt_of_le ht (Nat.add_le_add_left (Nat.le_add_right _ _) _)
  obtain ⟨tx₁, htx₁⟩ := hinv₁.law.exists_transaction hpos
  obtain ⟨tx₀, htx₀, -, hchildren⟩ := hcounted₁.same.transaction t tx₁ htx₁
  obtain rfl : tx₀ = tx := Option.some.inj (htx₀.symm.trans htx)
  have hinv₂ := hinv₁.unlistAll htx₁
  have hhistory₁ : w₁.history = w.history := by rw [hcounted₁.rest]
  have hcount₁ : w₁.scopeCount = w.scopeCount := hcounted₁.cleared.scopeCount
  have hfresh : ∀ j ∈ tx₁.children.reverse, ∀ u, ∀ f ∈ w₁.history.appended u, (f.span, f.crashing) ≠ (j, true) :=
    fun j hj u f hf heq => by
      obtain ⟨hspan, hcrashing⟩ := Prod.mk.inj heq
      have hold := hinv₁.book.finished u f hf
      rw [if_pos hcrashing, hspan] at hold
      exact (hinv₁.table.listed t tx₁ j htx₁ (List.mem_reverse.mp hj)).2.1 hold
  have hinv₂' := hinv₂.congr (fun o => show temp o + (tx₁.children.reverse.map Ref.span).count o = _ by
    rw [hchildren, List.map_reverse, List.count_reverse])
  obtain ⟨w₃, hop₃, hinv₃, hcleared₃⟩ := hinv₂'.finishAll (hcount₁ ▸ hc)
    (List.nodup_reverse.mpr (hinv₁.table.nodup t tx₁ htx₁))
    (fun j hj => List.mem_append_left _ (List.mem_reverse.mp hj)) hfresh status now
  refine ⟨w₃, ?_, hinv₃, hcounted₁.cleared.trans (Cleared.trans ?_ hcleared₃)⟩
  · unfold World.finishChildren
    simp only [htx, hop₁, htx₁, Option.bind_eq_bind, Option.bind_some]
    exact hop₃
  · exact ⟨rfl, fun _ _ => rfl, .inl rfl, .inl rfl, rfl, rfl⟩

/-- What the scope has let go of comes back, and the rest is given up. -/
theorem Inv.restoreActiveTrace {saved : Slots} (h : Inv w (giveOption (saved.transactionObject.map .transaction)
      (giveOption (saved.span.map .span) fun _ => 0))) (hc : 0 < w.scopeCount)
    (hspan : (w.scopes 0).span = saved.span ∨ (w.scopes 0).span = none)
    (ht : (w.scopes 0).transactionObject = saved.transactionObject ∨ (w.scopes 0).transactionObject = none) :
    ∃ w', w.restoreActiveTrace saved = some w' ∧ (Inv w' fun _ => 0) ∧ w'.scopes = (w.setSlots 0 saved).scopes ∧
      w'.scopeCount = w.scopeCount ∧ w'.held = w.held ∧ w'.history = w.history := by
  have hor : (⟨(w.scopes 0).span.or saved.span, (w.scopes 0).transactionObject.or saved.transactionObject⟩ : Slots) =
      saved := by
    cases saved with
    | mk a b =>
      congr 1
      · rcases hspan with he | he
        · rw [he, Option.or_self]
        · rw [he, Option.none_or]
      · rcases ht with he | he
        · rw [he, Option.or_self]
        · rw [he, Option.none_or]
  generalize hgiveSpan : (if (w.scopes 0).span.isSome then saved.span else none) = giveSpan
  generalize hgiveTx : (if (w.scopes 0).transactionObject.isSome then saved.transactionObject else none) = giveTx
  have hslotSpan : ∀ o, slotCount o ⟨giveSpan, none⟩ = slotCount o ⟨(w.scopes 0).span, none⟩ := fun o => by
    rcases hspan with he | he
    · cases hs : saved.span <;> simp [← hgiveSpan, he, hs]
    · simp [← hgiveSpan, he]
  have hslotTx : ∀ o, slotCount o ⟨none, giveTx⟩ = slotCount o ⟨none, (w.scopes 0).transactionObject⟩ := fun o => by
    rcases ht with he | he
    · cases hs : saved.transactionObject <;> simp [← hgiveTx, he, hs]
    · simp [← hgiveTx, he]
  have hput : Inv (w.setSlots 0 saved) (giveOption (giveSpan.map .span) (giveOption (giveTx.map .transaction) fun _ => 0)) := by
    refine h.setSlots hc saved fun o => ?_
    have hsaved := slotCount_add saved o
    have hslots := slotCount_add (w.scopes 0) o
    simp only [giveOption_span, giveOption_transaction, hslotSpan, hslotTx]
    omega
  obtain ⟨w₁, hop₁, hinv₁, hcounted₁⟩ := hput.spanDecref_option
  obtain ⟨w₂, hop₂, hinv₂, hcounted₂⟩ := hinv₁.transactionDecref_option
  have hrest := (hcounted₁.trans hcounted₂).rest
  refine ⟨w₂, ?_, hinv₂, ?_, ?_, ?_, ?_⟩
  · unfold World.restoreActiveTrace
    simp only [hor, hgiveSpan, hgiveTx, hop₁, hop₂, Option.bind_eq_bind, Option.bind_some]
  · rw [hrest]
  · exact (hcounted₁.trans hcounted₂).cleared.scopeCount
  · exact (hcounted₁.trans hcounted₂).cleared.held
  · rw [hrest]
    rfl

/-- After a crash everything that was open is closed, and the scopes are as they were. -/
theorem Inv.traceFinish (h : Inv w fun _ => 0) (hc : 0 < w.scopeCount) (status now : Bytes) :
    ∃ w', w.traceFinish status now = some w' ∧ (Inv w' fun _ => 0) ∧ w'.scopes = w.scopes ∧
      w'.scopeCount = w.scopeCount ∧ w'.held = w.held := by
  obtain ⟨hspanPos, htxPos⟩ := slot_pos hc rfl
  obtain ⟨w₁, hop₁, hinv₁, hcounted₁⟩ := h.spanIncref_option (i := (w.scopes 0).span) fun j hj =>
    Nat.lt_of_lt_of_le (hspanPos j hj) (Nat.le_add_right _ _)
  have hext₁ : w₁.ext = w.ext := by rw [hcounted₁.rest]; rfl
  obtain ⟨w₂, hop₂, hinv₂, hcounted₂⟩ := hinv₁.transactionIncref_option (t := (w.scopes 0).transactionObject) fun u hu =>
    Nat.lt_of_lt_of_le (hext₁ ▸ htxPos u hu) (Nat.le_add_right _ _)
  have hcounted := hcounted₁.trans hcounted₂
  have hscopes₂ : w₂.scopes = w.scopes := hcounted.scopes
  have hcount₂ : w₂.scopeCount = w.scopeCount := hcounted.cleared.scopeCount
  have hheld₂ : w₂.held = w.held := hcounted.cleared.held
  have hback : w.setSlots 0 (w.scopes 0) = w := setSlots_self w 0
  have hfinish : ∀ {w₅ : World}, Cleared w₂ w₅ → ∀ {w₆ : World}, w₆.scopes = (w₅.setSlots 0 (w.scopes 0)).scopes →
      w₆.scopes = w.scopes := fun {w₅} hcleared {w₆} hs => by
    rw [hs]
    funext c
    by_cases hc0 : c = 0
    · rw [hc0, scopes_setSlots_self]
    · rw [show (w₅.setSlots 0 (w.scopes 0)).scopes c = w₅.scopes c by simp [World.setSlots, hc0], hcleared.others c hc0, hscopes₂]
  have hactive : w₂.activeTransaction = some none ∨
      ∃ t, w₂.activeTransaction = some (some t) ∧ ∃ tx, w₂.heap.transactions t = some tx := by
    unfold World.activeTransaction
    rw [hscopes₂]
    cases hj : (w.scopes 0).span with
    | some j =>
      obtain ⟨s, hs⟩ := hinv₂.law.exists_span (i := j) (Nat.lt_of_lt_of_le
        ((slot_pos (hcount₂.symm ▸ hc) (congrFun hscopes₂ 0)).1 j hj) (Nat.le_add_right _ _))
      simp only [hs, Option.bind_eq_bind, Option.bind_some]
      exact .inr ⟨_, rfl, hinv₂.law.parent hs⟩
    | none =>
      cases hu : (w.scopes 0).transactionObject with
      | none => exact .inl rfl
      | some u =>
        exact .inr ⟨u, rfl, hinv₂.law.exists_transaction (Nat.lt_of_lt_of_le
          ((slot_pos (hcount₂.symm ▸ hc) (congrFun hscopes₂ 0)).2 u hu) (Nat.le_add_right _ _))⟩
  unfold World.traceFinish
  simp only [hop₁, hop₂, Option.bind_eq_bind, Option.bind_some]
  rcases hactive with hactive | ⟨t, hactive, tx, htx⟩
  · obtain ⟨w₃, hop₃, hinv₃, hscopes₃, hcount₃, hheld₃, -⟩ := hinv₂.restoreActiveTrace (hcount₂.symm ▸ hc)
      (.inl (by rw [hscopes₂])) (.inl (by rw [hscopes₂]))
    simp only [hactive, Option.bind_some]
    exact ⟨w₃, hop₃, hinv₃, hfinish (.refl w₂) hscopes₃, hcount₃.trans hcount₂, hheld₃.trans hheld₂⟩
  · simp only [hactive, Option.bind_some]
    obtain ⟨w₃, hop₃, hinv₃, hcounted₃⟩ := hinv₂.transactionIncref htx
    have hcount₃ : w₃.scopeCount = w.scopeCount := hcounted₃.cleared.scopeCount.trans hcount₂
    obtain ⟨w₄, hop₄, hinv₄, hcleared₄⟩ := hinv₃.finishChildren (t := t) (hcount₃ ▸ hc) (by simp) status now
    obtain ⟨w₅, hop₅, hinv₅, hrest₅⟩ := hinv₄.edit (o := .transaction t) (by simp) (k := statusKey) (by decide)
      (.string status)
    have hcleared₅ := (hcounted₃.cleared.trans hcleared₄).trans (Cleared.of_heap hrest₅)
    obtain ⟨w₆, v, hop₆, hinv₆, hcleared₆, -, hhistory₆, hv⟩ := hinv₅.transactionFinishValue
      (by rw [hcleared₅.scopeCount, hcount₂]; exact hc) now
    have hcleared := hcleared₅.trans hcleared₆
    obtain ⟨w₇, hop₇, hinv₇, hscopes₇, hcount₇, hheld₇, hhistory₇⟩ := hinv₆.restoreActiveTrace
      (by rw [hcleared.scopeCount, hcount₂]; exact hc) (by rw [← hscopes₂]; exact hcleared.span)
      (by rw [← hscopes₂]; exact hcleared.transactionObject)
    simp only [hop₃, hop₄, hop₅, hop₆, hop₇, Option.bind_some]
    refine ⟨w₇.capture t v, rfl, hinv₇.capture fun hn => ?_, ?_, ?_, ?_⟩
    · rw [hhistory₇, hhistory₆]
      exact hv hn
    · rw [← hfinish hcleared hscopes₇]
      unfold World.capture
      split <;> rfl
    · rw [scopeCount_capture, hcount₇, hcleared.scopeCount, hcount₂]
    · rw [← hheld₂, ← hcleared.held, ← hheld₇]
      unfold World.capture
      split <;> rfl

/-! ## Runs -/

/-- Between the calls. -/
structure Sound (w : World) : Prop where
  inv : Inv w fun _ => 0
  scopes : 0 < w.scopeCount

theorem Sound.held_span (h : Sound w) (hi : .span i ∈ w.held) : ∃ s, w.heap.spans i = some s :=
  h.inv.law.exists_span (Nat.lt_of_lt_of_le (ext_pos hi) (Nat.le_add_right _ _))

theorem Sound.held_transaction (h : Sound w) (ht : .transaction t ∈ w.held) : ∃ tx, w.heap.transactions t = some tx :=
  h.inv.law.exists_transaction (Nat.lt_of_lt_of_le (ext_pos ht) (Nat.le_add_right _ _))

/-- Every call that is allowed can be made, and keeps everything in order. -/
theorem Sound.act (h : Sound w) {l : Label} (hl : l.Allowed w) : ∃ w', act w l = some w' ∧ Sound w' := by
  have hsound : ∀ {w' : World}, (Inv w' fun _ => 0) → w'.scopeCount = w.scopeCount → Sound w' := fun hinv hcount =>
    ⟨hinv, hcount.symm ▸ h.scopes⟩
  cases l with
  | start ctx eventId fork sampled now => exact ⟨_, rfl, hsound (h.inv.start hl eventId fork sampled now) rfl⟩
  | transactionStartChild t operation description spanId now grows =>
    obtain ⟨tx, htx⟩ := h.held_transaction hl
    simp only [Spans.act, htx, Option.bind_eq_bind, Option.bind_some]
    split
    · exact ⟨w, rfl, h⟩
    · obtain ⟨w', hop, hinv, hcount⟩ := h.inv.startChild htx tx.inner operation description spanId now grows
      exact ⟨w', hop, hsound hinv hcount⟩
  | spanStartChild i operation description spanId now grows =>
    obtain ⟨s, hs⟩ := h.held_span hl
    obtain ⟨tx, htx⟩ := h.inv.law.parent hs
    simp only [Spans.act, hs, Option.bind_eq_bind, Option.bind_some]
    split
    · exact ⟨w, rfl, h⟩
    · obtain ⟨w', hop, hinv, hcount⟩ := h.inv.startChild htx s.inner operation description spanId now grows
      exact ⟨w', hop, hsound hinv hcount⟩
  | spanFinish i now =>
    obtain ⟨w', hop, hinv, hcount⟩ := h.inv.spanFinish h.scopes hl now
    exact ⟨w', hop, hsound hinv hcount⟩
  | spanDiscard i =>
    obtain ⟨w', hop, hinv, hcount⟩ := h.inv.spanDiscard h.scopes hl
    exact ⟨w', hop, hsound hinv hcount⟩
  | transactionFinish t now =>
    obtain ⟨w', hop, hinv, hcount⟩ := h.inv.transactionFinish h.scopes hl now
    exact ⟨w', hop, hsound hinv hcount⟩
  | transactionDiscard t =>
    obtain ⟨w', hop, hinv, hcount⟩ := h.inv.transactionDiscard h.scopes hl
    exact ⟨w', hop, hsound hinv hcount⟩
  | setTransactionObject c t =>
    obtain ⟨w', hop, hinv, hcount⟩ := h.inv.setTransactionObject hl.1 hl.2
    exact ⟨w', hop, hsound hinv hcount⟩
  | setSpan c i =>
    obtain ⟨w', hop, hinv, hcount⟩ := h.inv.setSpan hl.1 hl.2
    exact ⟨w', hop, hsound hinv hcount⟩
  | newScope =>
    obtain ⟨w', hop, hinv, hcount⟩ := h.inv.cloneScope (s := ⟨none, none⟩) (by simp) (by simp)
    exact ⟨w', hop, hinv, hcount ▸ Nat.succ_pos _⟩
  | cloneScope c =>
    obtain ⟨hspan, ht⟩ := slot_pos hl rfl
    obtain ⟨w', hop, hinv, hcount⟩ := h.inv.cloneScope hspan ht
    exact ⟨w', hop, hinv, hcount ▸ Nat.succ_pos _⟩
  | cleanupScope c =>
    obtain ⟨w', hop, hinv, hcount⟩ := h.inv.cleanupScope hl
    exact ⟨w', hop, hsound hinv hcount⟩
  | edit o k v =>
    have hk : k ≠ spansKey := fun he => absurd (he ▸ hl.2) (by decide)
    obtain ⟨w', hop, hinv, hrest⟩ := h.inv.edit (Nat.lt_of_lt_of_le (ext_pos hl.1) (Nat.le_add_right _ _)) hk v
    exact ⟨w', hop, hsound hinv (by rw [hrest])⟩
  | traceFinish status now =>
    obtain ⟨w', hop, hinv, -, hcount, -⟩ := h.inv.traceFinish h.scopes status now
    exact ⟨w', hop, hsound hinv hcount⟩

theorem Sound.begin (maxSpans : Nat) (traceManaged : Bool) (propagationContext : Value) :
    Sound (begin maxSpans traceManaged propagationContext) := by
  refine ⟨⟨⟨fun o => ?_, nofun, nofun, fun _ _ => ⟨rfl, rfl⟩⟩, ⟨nofun, nofun, nofun⟩,
    ⟨.nil, nofun, nofun, fun _ => Nat.zero_le _, nofun, nofun, nofun, fun _ => .nil, nofun⟩⟩, Nat.one_pos⟩
  cases o <;> rfl

variable {maxSpans : Nat} {traceManaged : Bool} {propagationContext : Value}

theorem reachable_sound (h : Reachable (· = begin maxSpans traceManaged propagationContext) Step w) : Sound w :=
  h.invariant (fun _ hs => hs ▸ .begin _ _ _) fun _ _ hsound ⟨_, hl, hact⟩ => by
    obtain ⟨w'', hop, hsound'⟩ := hsound.act hl
    obtain rfl := Option.some.inj (hact.symm.trans hop)
    exact hsound'

/-- **No call touches a freed object**: callers that pass what they hold can make every call, every count is the number
of references to its object, and an object is there just as long as it is referred to. -/
theorem spans_counted (h : Reachable (· = begin maxSpans traceManaged propagationContext) Step w) :
    (∀ l : Label, l.Allowed w → (act w l).isSome = true) ∧ (∀ o, w.heap.refs o = w.ext o + w.heap.pointers o) ∧
      (∀ i s, w.heap.spans i = some s → 0 < w.ext (.span i) ∧ (w.heap.transactions s.transaction).isSome = true) ∧
        ((∀ o, w.ext o = 0) → ∀ i, w.heap.spans i = none ∧ w.heap.transactions i = none) := by
  have hsound := reachable_sound h
  have hnoSpan : (∀ o, w.ext o = 0) → ∀ i, w.heap.spans i = none := fun hnone i => by
    by_contra hi
    obtain ⟨s, hs⟩ := Option.ne_none_iff_exists'.mp hi
    have hpos := hsound.inv.law.referred hs
    rw [hnone] at hpos
    exact Nat.lt_irrefl 0 hpos
  refine ⟨fun l hl => ?_, hsound.inv.law.exact, fun i s hs => ?_, fun hnone i => ⟨hnoSpan hnone i, ?_⟩⟩
  · obtain ⟨w', hop, -⟩ := hsound.act hl
    rw [hop, Option.isSome_some]
  · obtain ⟨tx, htx⟩ := hsound.inv.law.parent hs
    exact ⟨hsound.inv.law.referred hs, by rw [htx, Option.isSome_some]⟩
  · cases htx : w.heap.transactions i with
    | none => rfl
    | some tx =>
      have hexact := hsound.inv.law.exact (.transaction i)
      have hpos := hsound.inv.law.transaction i tx htx
      have hzero : w.heap.pointers (.transaction i) = 0 := sum_eq_zero fun j _ => by rw [hnoSpan hnone j]; rfl
      simp only [Heap.refs, htx, Option.elim_some, hnone, hzero] at hexact
      exact absurd hexact hpos

theorem unspanned_object (ps : List (Bytes × Value)) :
    Unspanned (.object ps) ↔ ∀ p ∈ ps, p.1 ≠ spansKey ∧ p.1 ≠ timestampKey := by
  constructor
  · rintro ⟨_, ⟨⟩, hspans, hstamp⟩ p hp
    exact ⟨fun he => hspans (he ▸ List.mem_map_of_mem hp), fun he => hstamp (he ▸ List.mem_map_of_mem hp)⟩
  · intro h
    refine ⟨ps, rfl, fun hk => ?_, fun hk => ?_⟩ <;> obtain ⟨p, hp, hk⟩ := List.mem_map.mp hk
    · exact (h p hp).1 hk
    · exact (h p hp).2 hk

instance decidableUnspanned (ctx : Value) : Decidable (Unspanned ctx) :=
  match ctx with
  | .object ps => decidable_of_iff (∀ p ∈ ps, p.1 ≠ spansKey ∧ p.1 ≠ timestampKey) (unspanned_object ps).symm
  | .null | .bool _ | .int32 _ | .int64 _ | .uint64 _ | .double _ | .string _ | .list _ => isFalse fun ⟨_, he, _⟩ => nomatch he

instance Label.decidableAllowed (l : Label) (w : World) : Decidable (l.Allowed w) := by
  cases l with
  | edit o k v => exact decidable_of_iff (o ∈ w.held ∧ ∃ k' ∈ edited, k' = k) (by simp [Label.Allowed])
  | _ => unfold Label.Allowed; infer_instance

def sampleContext : Value := .object [(spanIdKey, .string [49]), (traceIdKey, .string [50])]

/-- A transaction, a span, and a span of that span, which the scope refers to. -/
def opened : List Label :=
  [.start sampleContext [] none true [57], .transactionStartChild 0 [] [] [51] [57] true,
    .spanStartChild 1 [] [] [52] [57] true, .setSpan 0 (some 2)]

def closed : List Label := opened ++ [.spanFinish 1 [58], .spanFinish 2 [58], .transactionFinish 0 [59]]

theorem exists_of_labels (ls : List Label) (p : World → Bool)
    (hp : (run (fun w l => if l.Allowed w then act w l else none) (begin 5 true .null) ls).any p = true) :
    ∃ w, Reachable (· = begin 5 true .null) Step w ∧ p w = true := by
  refine Reachable.exists_of_run (fun w l => if l.Allowed w then act w l else none) (fun w l w' h => ?_) ls p hp
  split at h
  · exact ⟨l, ‹_›, h⟩
  · cases h

theorem spans_counted_closed : ∃ w : World, ((w.heap.spans 1).isNone ∧ (w.heap.spans 2).isNone ∧ (w.heap.transactions 0).isNone) ∧
    ∀ o, w.heap.refs o = w.ext o + w.heap.pointers o := by
  obtain ⟨w, hw, hp⟩ := exists_of_labels closed
    (fun w => (w.heap.spans 1).isNone ∧ (w.heap.spans 2).isNone ∧ (w.heap.transactions 0).isNone) (by decide +kernel)
  exact ⟨w, by simpa using hp, (spans_counted hw).2.1⟩

end SentryNative.Tracing.Spans
