import SentryNative.Tracing.SpanCounts

/-!
# The live children of a transaction, and its finished spans

A transaction lists the spans that callers still hold, and keeps the finished ones in its value. Operations that change
counts only keep both.

* `Inv.spanDecref` and its siblings: the operations on counts, for the whole state;
* `Inv.closeSpan`: a span leaves the list, and is added to the finished ones at most once.
-/

namespace SentryNative.Tracing.Spans

open Finset CLib Value
open Envelope (isTrue getLength)

/-- The spans in the value of a transaction. -/
def spansOf (fs : List Finished) : Value := if fs = [] then .null else .list (fs.map Finished.value)

/-- What a scope refers to, counted. -/
def slotCount (o : Ref) (s : Slots) : Nat :=
  match o with
  | .span i => if s.span = some i then 1 else 0
  | .transaction t => if s.transactionObject = some t then 1 else 0

/-- The references of callers and scopes. -/
def World.ext (w : World) (o : Ref) : Nat := w.held.count o + ∑ c ∈ range w.scopeCount, slotCount o (w.scopes c)

/-- A transaction lists exactly the spans of its own that are held, but for those that are known not to be listed. -/
structure Table (h : Heap) (unlisted : List Nat) (held : List Ref) : Prop where
  nodup : ∀ t tx, h.transactions t = some tx → tx.children.Nodup
  listed : ∀ t tx i, h.transactions t = some tx → i ∈ tx.children →
    .span i ∈ held ∧ i ∉ unlisted ∧ ∀ s, h.spans i = some s → s.transaction = t
  complete : ∀ i s tx, h.spans i = some s → .span i ∈ held → i ∉ unlisted → h.transactions s.transaction = some tx →
    i ∈ tx.children

/-- What the values hold, and what has been done with them. -/
structure Book (h : Heap) (maxSpans : Nat) (held : List Ref) (y : History) : Prop where
  distinct : held.Nodup
  span : ∀ i s, h.spans i = some s → s.inner.IsObject
  transaction : ∀ t tx, h.transactions t = some tx → tx.inner.IsObject ∧ tx.inner.getByKey spansKey = spansOf (y.appended t)
  bound : ∀ t, (y.appended t).length ≤ maxSpans
  made : ∀ t, ∀ f ∈ y.appended t, t < h.made ∧ f.span < h.made
  unlisted : ∀ i ∈ y.unlisted, i < h.made
  finished : ∀ t, ∀ f ∈ y.appended t, if f.crashing then f.span ∈ y.unlisted else .span f.span ∉ held
  once : ∀ t, ((y.appended t).map fun f => (f.span, f.crashing)).Nodup
  captured : ∀ p ∈ y.captured, ∃ fs, fs <+: y.appended p.1 ∧ p.2.getByKey spansKey = spansOf fs

/-- Between the operations of a call, which has the references `temp` for itself. -/
structure Inv (w : World) (temp : Ref → Nat) : Prop where
  law : Law w.heap fun o => w.ext o + temp o
  table : Table w.heap w.history.unlisted w.held
  book : Book w.heap w.maxSpans w.held w.history

variable {w w' : World} {h h' : Heap} {temp temp' : Ref → Nat} {i t c : Nat} {held : List Ref}

/-! ## References -/

theorem ext_pos {o : Ref} (ho : o ∈ w.held) : 0 < w.ext o :=
  Nat.lt_of_lt_of_le (List.count_pos_iff.mpr ho) (Nat.le_add_right _ _)

theorem ext_setSlots (hc : c < w.scopeCount) (s : Slots) (o : Ref) :
    (w.setSlots c s).ext o + slotCount o (w.scopes c) = w.ext o + slotCount o s := by
  have hsum := Counting.sum_range_update (slotCount o) w.scopes hc s
  unfold World.ext
  dsimp only [World.setSlots]
  omega

theorem ext_letGo {o : Ref} (ho : o ∈ w.held) (x : Ref) : give o (w.letGo o).ext x = w.ext x := by
  have hpos := List.count_pos_iff.mpr ho
  unfold give World.ext World.letGo
  dsimp only
  rw [List.count_erase]
  by_cases hx : x = o
  · subst hx
    simp only [beq_self_eq_true, if_true]
    omega
  · rw [if_neg hx, if_neg (by rw [beq_iff_eq]; exact Ne.symm hx)]
    omega

theorem ext_hold (o x : Ref) : (w.hold o).ext x = give o w.ext x := by
  unfold give World.ext World.hold
  dsimp only
  rw [List.count_cons]
  by_cases hx : x = o
  · subst hx
    simp only [beq_self_eq_true, if_true]
    omega
  · rw [if_neg hx, if_neg (by rw [beq_iff_eq]; exact Ne.symm hx)]
    omega

/-! ## Operations on counts -/

/-- The lists and the spans of each transaction are the same, or some are gone. -/
theorem Table.children {un : List Nat} (tab : Table h un held)
    (hspan : ∀ i s', h'.spans i = some s' → ∃ s, h.spans i = some s ∧ s'.transaction = s.transaction)
    (htx : ∀ t tx', h'.transactions t = some tx' → ∃ tx, h.transactions t = some tx ∧ tx'.children = tx.children) :
    Table h' un held where
  nodup t tx' ht' := by
    obtain ⟨tx, ht, hchildren⟩ := htx t tx' ht'
    exact hchildren ▸ tab.nodup t tx ht
  listed t tx' i ht' hi := by
    obtain ⟨tx, ht, hchildren⟩ := htx t tx' ht'
    obtain ⟨hheld, hun, hparent⟩ := tab.listed t tx i ht (hchildren ▸ hi)
    refine ⟨hheld, hun, fun s' hs' => ?_⟩
    obtain ⟨s, hs, hst⟩ := hspan i s' hs'
    exact hst.trans (hparent s hs)
  complete i s' tx' hs' hheld hun ht' := by
    obtain ⟨s, hs, hst⟩ := hspan i s' hs'
    obtain ⟨tx, ht, hchildren⟩ := htx _ tx' ht'
    exact hchildren ▸ tab.complete i s tx hs hheld hun (hst ▸ ht)

/-- The values are the same, or some are gone. -/
theorem Book.inner {maxSpans : Nat} {y : History} (b : Book h maxSpans held y) (hmade : h'.made = h.made)
    (hspan : ∀ i s', h'.spans i = some s' → ∃ s, h.spans i = some s ∧ s'.inner = s.inner)
    (htx : ∀ t tx', h'.transactions t = some tx' → ∃ tx, h.transactions t = some tx ∧ tx'.inner = tx.inner) :
    Book h' maxSpans held y where
  distinct := b.distinct
  span i s' hs' := by
    obtain ⟨s, hs, hinner⟩ := hspan i s' hs'
    exact hinner ▸ b.span i s hs
  transaction t tx' ht' := by
    obtain ⟨tx, ht, hinner⟩ := htx t tx' ht'
    exact hinner ▸ b.transaction t tx ht
  bound := b.bound
  made t f hf := hmade ▸ b.made t f hf
  unlisted i hi := hmade ▸ b.unlisted i hi
  finished := b.finished
  once := b.once
  captured := b.captured

theorem Table.same {un : List Nat} (tab : Table h un held) (s : Same h h') : Table h' un held := by
  refine tab.children (fun i s' hs' => ?_) fun t tx' htx' => ?_
  · obtain ⟨s₀, hs, -, ht⟩ := s.span i s' hs'
    exact ⟨s₀, hs, ht⟩
  · obtain ⟨tx, htx, -, hchildren⟩ := s.transaction t tx' htx'
    exact ⟨tx, htx, hchildren⟩

theorem Book.same {maxSpans : Nat} {y : History} (b : Book h maxSpans held y) (s : Same h h') :
    Book h' maxSpans held y := by
  refine b.inner s.made (fun i s' hs' => ?_) fun t tx' htx' => ?_
  · obtain ⟨s₀, hs, hinner, -⟩ := s.span i s' hs'
    exact ⟨s₀, hs, hinner⟩
  · obtain ⟨tx, htx, hinner, -⟩ := s.transaction t tx' htx'
    exact ⟨tx, htx, hinner⟩

theorem Inv.congr (h : Inv w temp) (he : ∀ o, temp' o = temp o) : Inv w temp' :=
  ⟨h.law.congr fun o => by rw [he], h.table, h.book⟩

theorem give_add (o : Ref) (ext : Ref → Nat) (x : Ref) : ext x + give o temp x = give o (fun y => ext y + temp y) x := by
  unfold give
  dsimp only
  omega

theorem Inv.setSlots (h : Inv w temp) (hc : c < w.scopeCount) (s : Slots)
    (he : ∀ o, temp' o + slotCount o s = temp o + slotCount o (w.scopes c)) : Inv (w.setSlots c s) temp' where
  law := h.law.congr fun o => by
    have hext := ext_setSlots hc s o
    have hold := he o
    omega
  table := h.table
  book := h.book

/-- The objects have changed, by an operation on a count. -/
structure Counted (w w' : World) : Prop where
  rest : w' = { w with heap := w'.heap }
  same : Same w.heap w'.heap

theorem Counted.refl (w : World) : Counted w w := ⟨rfl, .refl _⟩

theorem Counted.trans {w'' : World} (s : Counted w w') (s' : Counted w' w'') : Counted w w'' := by
  refine ⟨?_, s.same.trans s'.same⟩
  rw [s'.rest, s.rest]

theorem Inv.spanDecref (h : Inv w (give (.span i) temp)) :
    ∃ w', w.spanDecref (some i) = some w' ∧ Inv w' temp ∧ Counted w w' := by
  obtain ⟨h', hop, hlaw, hsame⟩ := (h.law.congr fun o => (give_add _ _ o).symm).spanDecref fun hzero t tx htx hi => by
    have := ext_pos (h.table.listed t tx i htx hi).1
    omega
  exact ⟨{ w with heap := h' }, by simp [World.spanDecref, World.on, hop], ⟨hlaw, h.table.same hsame, h.book.same hsame⟩,
    rfl, hsame⟩

theorem Inv.transactionDecref (h : Inv w (give (.transaction t) temp)) :
    ∃ w', w.transactionDecref (some t) = some w' ∧ Inv w' temp ∧ Counted w w' := by
  obtain ⟨h', hop, hlaw, hsame, -⟩ := (h.law.congr fun o => (give_add _ _ o).symm).transactionDecref
  exact ⟨{ w with heap := h' }, by simp [World.transactionDecref, World.on, hop],
    ⟨hlaw, h.table.same hsame, h.book.same hsame⟩, rfl, hsame⟩

theorem Inv.spanIncref (h : Inv w temp) (hi : 0 < w.ext (.span i) + temp (.span i)) :
    ∃ w', w.spanIncref (some i) = some w' ∧ Inv w' (give (.span i) temp) ∧ Counted w w' := by
  obtain ⟨s, hs⟩ := h.law.exists_span hi
  obtain ⟨h', hop, hlaw, hsame⟩ := h.law.spanIncref hs
  exact ⟨{ w with heap := h' }, by simp [World.spanIncref, World.on, hop],
    ⟨hlaw.congr fun o => give_add _ _ o, h.table.same hsame, h.book.same hsame⟩, rfl, hsame⟩

theorem Inv.transactionIncref (h : Inv w temp) {tx : Transaction} (htx : w.heap.transactions t = some tx) :
    ∃ w', w.transactionIncref (some t) = some w' ∧ Inv w' (give (.transaction t) temp) ∧ Counted w w' := by
  obtain ⟨h', hop, hlaw, hsame⟩ := h.law.transactionIncref htx
  exact ⟨{ w with heap := h' }, by simp [World.transactionIncref, World.on, hop],
    ⟨hlaw.congr fun o => give_add _ _ o, h.table.same hsame, h.book.same hsame⟩, rfl, hsame⟩

/-! ## Optional references -/

/-- A reference for each object that there is. -/
def giveOption (o : Option Ref) (temp : Ref → Nat) : Ref → Nat := o.elim temp (give · temp)

theorem Inv.spanDecref_option {i : Option Nat} (h : Inv w (giveOption (i.map .span) temp)) :
    ∃ w', w.spanDecref i = some w' ∧ Inv w' temp ∧ Counted w w' := by
  cases i with
  | none => exact ⟨w, rfl, h, .refl w⟩
  | some i => exact h.spanDecref

theorem Inv.transactionDecref_option {t : Option Nat} (h : Inv w (giveOption (t.map .transaction) temp)) :
    ∃ w', w.transactionDecref t = some w' ∧ Inv w' temp ∧ Counted w w' := by
  cases t with
  | none => exact ⟨w, rfl, h, .refl w⟩
  | some t => exact h.transactionDecref

theorem Inv.spanIncref_option {i : Option Nat} (h : Inv w temp) (hi : ∀ j ∈ i, 0 < w.ext (.span j) + temp (.span j)) :
    ∃ w', w.spanIncref i = some w' ∧ Inv w' (giveOption (i.map .span) temp) ∧ Counted w w' := by
  cases i with
  | none => exact ⟨w, rfl, h, .refl w⟩
  | some i => exact h.spanIncref (hi i rfl)

theorem Inv.transactionIncref_option {t : Option Nat} (h : Inv w temp)
    (ht : ∀ u ∈ t, 0 < w.ext (.transaction u) + temp (.transaction u)) :
    ∃ w', w.transactionIncref t = some w' ∧ Inv w' (giveOption (t.map .transaction) temp) ∧ Counted w w' := by
  cases t with
  | none => exact ⟨w, rfl, h, .refl w⟩
  | some t =>
    obtain ⟨tx, htx⟩ := h.law.exists_transaction (ht t rfl)
    exact h.transactionIncref htx

theorem giveOption_span (i : Option Nat) (o : Ref) :
    giveOption (i.map .span) temp o = temp o + slotCount o ⟨i, none⟩ := by
  cases i <;> cases o <;> simp [slotCount, giveOption, give, eq_comm]

theorem giveOption_transaction (t : Option Nat) (o : Ref) :
    giveOption (t.map .transaction) temp o = temp o + slotCount o ⟨none, t⟩ := by
  cases t <;> cases o <;> simp [slotCount, giveOption, give, eq_comm]

/-- A scope's references to a span and a transaction. -/
theorem slotCount_add (s : Slots) (o : Ref) :
    slotCount o s = slotCount o ⟨s.span, none⟩ + slotCount o ⟨none, s.transactionObject⟩ := by
  cases o <;> simp [slotCount]

theorem slot_pos {s : Slots} (hc : c < w.scopeCount) (hs : w.scopes c = s) :
    (∀ i ∈ s.span, 0 < w.ext (.span i)) ∧ ∀ t ∈ s.transactionObject, 0 < w.ext (.transaction t) := by
  subst hs
  refine ⟨fun i hi => ?_, fun t ht => ?_⟩
  · have hle := Counting.le_sum_range (slotCount (.span i)) w.scopes hc
    rw [slotCount, if_pos (Option.mem_def.mp hi)] at hle
    exact Nat.lt_of_lt_of_le hle (Nat.le_add_left _ _)
  · have hle := Counting.le_sum_range (slotCount (.transaction t)) w.scopes hc
    rw [slotCount, if_pos (Option.mem_def.mp ht)] at hle
    exact Nat.lt_of_lt_of_le hle (Nat.le_add_left _ _)

/-! ## The global scope lets go -/

/-- The global scope has let go of some of what it referred to, and the rest is as it was. -/
structure Cleared (w w' : World) : Prop where
  scopeCount : w'.scopeCount = w.scopeCount
  others : ∀ c, c ≠ 0 → w'.scopes c = w.scopes c
  span : (w'.scopes 0).span = (w.scopes 0).span ∨ (w'.scopes 0).span = none
  transactionObject : (w'.scopes 0).transactionObject = (w.scopes 0).transactionObject ∨
    (w'.scopes 0).transactionObject = none
  held : w'.held = w.held
  maxSpans : w'.maxSpans = w.maxSpans

theorem Cleared.refl (w : World) : Cleared w w := ⟨rfl, fun _ _ => rfl, .inl rfl, .inl rfl, rfl, rfl⟩

theorem Cleared.trans {w'' : World} (k : Cleared w w') (k' : Cleared w' w'') : Cleared w w'' where
  scopeCount := k'.scopeCount.trans k.scopeCount
  others c hc := (k'.others c hc).trans (k.others c hc)
  span := by
    rcases k'.span with hs | hs
    · rw [hs]
      exact k.span
    · exact .inr hs
  transactionObject := by
    rcases k'.transactionObject with hs | hs
    · rw [hs]
      exact k.transactionObject
    · exact .inr hs
  held := k'.held.trans k.held
  maxSpans := k'.maxSpans.trans k.maxSpans

theorem Counted.cleared (k : Counted w w') : Cleared w w' := by
  rw [k.rest]
  exact ⟨rfl, fun _ _ => rfl, .inl rfl, .inl rfl, rfl, rfl⟩

theorem Cleared.setSlots (k : Cleared w w') {s : Slots} (hspan : s.span = (w'.scopes 0).span ∨ s.span = none)
    (ht : s.transactionObject = (w'.scopes 0).transactionObject ∨ s.transactionObject = none) :
    Cleared w (w'.setSlots 0 s) := by
  have hself : (w'.setSlots 0 s).scopes 0 = s := by simp [World.setSlots]
  exact k.trans ⟨rfl, fun c hc => by simp [World.setSlots, hc], hself ▸ hspan, hself ▸ ht, rfl, rfl⟩

@[simp] theorem setSlots_setSlots (w : World) (c : Nat) (s s' : Slots) :
    (w.setSlots c s).setSlots c s' = w.setSlots c s' := by
  simp [World.setSlots]

theorem setSlots_self (w : World) (c : Nat) : w.setSlots c (w.scopes c) = w := by
  simp [World.setSlots]

/-- A scope gives up its span: its reference is the one that is released. -/
theorem Inv.releaseSpan (h : Inv w temp) (hc : c < w.scopeCount) :
    ∃ w', w.spanDecref (w.scopes c).span = some w' ∧ Counted w w' ∧
      Inv (w'.setSlots c ⟨none, (w.scopes c).transactionObject⟩) temp := by
  have htaken : Inv (w.setSlots c ⟨none, (w.scopes c).transactionObject⟩)
      (giveOption ((w.scopes c).span.map .span) temp) := by
    refine h.setSlots hc _ fun o => ?_
    rw [giveOption_span, slotCount_add (w.scopes c)]
    omega
  obtain ⟨w', hop, hinv, hcount⟩ := htaken.spanDecref_option
  refine ⟨{ w with heap := w'.heap }, ?_, ⟨rfl, hcount.same⟩, ?_⟩
  · cases hj : (w.scopes c).span with
    | none =>
      rw [hj] at hop
      cases hop
      rfl
    | some j =>
      simp only [hj, World.spanDecref, World.on, Option.elim_some, World.setSlots, Option.map_eq_some_iff] at hop ⊢
      obtain ⟨h', hh', rfl⟩ := hop
      exact ⟨h', hh', rfl⟩
  · rw [hcount.rest] at hinv
    exact hinv

theorem Inv.releaseTransaction (h : Inv w temp) (hc : c < w.scopeCount) :
    ∃ w', w.transactionDecref (w.scopes c).transactionObject = some w' ∧ Counted w w' ∧
      Inv (w'.setSlots c ⟨(w.scopes c).span, none⟩) temp := by
  have htaken : Inv (w.setSlots c ⟨(w.scopes c).span, none⟩)
      (giveOption ((w.scopes c).transactionObject.map .transaction) temp) := by
    refine h.setSlots hc _ fun o => ?_
    rw [giveOption_transaction, slotCount_add (w.scopes c)]
    omega
  obtain ⟨w', hop, hinv, hcount⟩ := htaken.transactionDecref_option
  refine ⟨{ w with heap := w'.heap }, ?_, ⟨rfl, hcount.same⟩, ?_⟩
  · cases ht : (w.scopes c).transactionObject with
    | none =>
      rw [ht] at hop
      cases hop
      rfl
    | some t =>
      simp only [ht, World.transactionDecref, World.on, Option.elim_some, World.setSlots, Option.map_eq_some_iff] at hop ⊢
      obtain ⟨h', hh', rfl⟩ := hop
      exact ⟨h', hh', rfl⟩
  · rw [hcount.rest] at hinv
    exact hinv

theorem Counted.scopes (k : Counted w w') : w'.scopes = w.scopes := by
  rw [k.rest]

theorem Inv.leaveSpan (h : Inv w temp) (hc : 0 < w.scopeCount) (v : Value) :
    ∃ w', w.leaveSpan v = some w' ∧ Inv w' temp ∧ Cleared w w' ∧ Same w.heap w'.heap ∧ w'.history = w.history := by
  unfold World.leaveSpan
  cases hj : (w.scopes 0).span with
  | none => exact ⟨w, rfl, h, .refl w, .refl _, rfl⟩
  | some j =>
    have hpos := (slot_pos hc rfl).1 j hj
    obtain ⟨s, hs⟩ := h.law.exists_span (i := j) (Nat.lt_of_lt_of_le hpos (Nat.le_add_right _ _))
    obtain ⟨w', hop, hcount, hinv⟩ := h.releaseSpan hc
    simp only [hs, Option.bind_eq_bind, Option.bind_some, ← hj, hop]
    split
    · rw [hcount.scopes]
      refine ⟨_, rfl, hinv, hcount.cleared.setSlots (.inr rfl) (.inl (by rw [hcount.scopes])), hcount.same, ?_⟩
      rw [hcount.rest]
      rfl
    · exact ⟨w, rfl, h, .refl w, .refl _, rfl⟩

theorem Inv.leaveTransaction (h : Inv w temp) (hc : 0 < w.scopeCount) (v : Value) :
    ∃ w', w.leaveTransaction v = some w' ∧ Inv w' temp ∧ Cleared w w' ∧ Same w.heap w'.heap ∧ w'.history = w.history := by
  unfold World.leaveTransaction
  cases hu : (w.scopes 0).transactionObject with
  | none => exact ⟨w, rfl, h, .refl w, .refl _, rfl⟩
  | some u =>
    have hpos := (slot_pos hc rfl).2 u hu
    obtain ⟨tx, htx⟩ := h.law.exists_transaction (t := u) (Nat.lt_of_lt_of_le hpos (Nat.le_add_right _ _))
    obtain ⟨w', hop, hcount, hinv⟩ := h.releaseTransaction hc
    simp only [htx, Option.bind_eq_bind, Option.bind_some, ← hu, hop]
    split
    · rw [hcount.scopes]
      refine ⟨_, rfl, hinv, hcount.cleared.setSlots (.inl (by rw [hcount.scopes])) (.inr rfl), hcount.same, ?_⟩
      rw [hcount.rest]
      rfl
    · exact ⟨w, rfl, h, .refl w, .refl _, rfl⟩

end SentryNative.Tracing.Spans
