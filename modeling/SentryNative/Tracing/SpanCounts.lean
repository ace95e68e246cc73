import SentryNative.Lib.Counting
import SentryNative.Tracing.Spans

/-!
# Counts of spans and transactions

The count of an object is the number of references to it: those from outside the heap, and those of the live spans to
their transaction. One rule for each operation on a count says which references it takes and gives.

* `Law.spanDecref`: a span that nobody refers to goes, and its reference to the transaction with it.
-/

namespace SentryNative.Tracing.Spans

open Finset

/-- What a span refers to. -/
def pointsTo (o : Ref) (s : Option Span) : Nat :=
  match o, s with
  | .transaction t, some s => if s.transaction = t then 1 else 0
  | _, _ => 0

namespace Heap

/-- The count stored with an object, or zero. -/
def refs (h : Heap) : Ref → Nat
  | .span i => (h.spans i).elim 0 Span.refs
  | .transaction t => (h.transactions t).elim 0 Transaction.refs

/-- The references from spans. -/
def pointers (h : Heap) (o : Ref) : Nat := ∑ i ∈ range h.made, pointsTo o (h.spans i)

end Heap

/-- One more reference to `o`. -/
def give (o : Ref) (ext : Ref → Nat) : Ref → Nat := fun x => ext x + if x = o then 1 else 0

/-- The law of the counts, with the references `ext` from outside. -/
structure Law (h : Heap) (ext : Ref → Nat) : Prop where
  exact : ∀ o, h.refs o = ext o + h.pointers o
  span : ∀ i s, h.spans i = some s → s.refs ≠ 0
  transaction : ∀ t tx, h.transactions t = some tx → tx.refs ≠ 0
  made : ∀ i, h.made ≤ i → h.spans i = none ∧ h.transactions i = none

/-- Nothing but counts has changed, and objects may be gone. -/
structure Same (h h' : Heap) : Prop where
  made : h'.made = h.made
  span : ∀ i s', h'.spans i = some s' → ∃ s, h.spans i = some s ∧ s'.inner = s.inner ∧ s'.transaction = s.transaction
  transaction : ∀ t tx', h'.transactions t = some tx' → ∃ tx, h.transactions t = some tx ∧ tx'.inner = tx.inner ∧
    tx'.children = tx.children

variable {h h' : Heap} {ext ext' : Ref → Nat} {i t : Nat}

@[simp] theorem give_self (o : Ref) (ext : Ref → Nat) : give o ext o = ext o + 1 := by
  simp [give]

theorem give_of_ne {o x : Ref} (hne : x ≠ o) (ext : Ref → Nat) : give o ext x = ext x := by
  simp [give, hne]

theorem Same.refl (h : Heap) : Same h h :=
  ⟨rfl, fun _ s hs => ⟨s, hs, rfl, rfl⟩, fun _ tx htx => ⟨tx, htx, rfl, rfl⟩⟩

theorem Same.trans {h'' : Heap} (s : Same h h') (s' : Same h' h'') : Same h h'' where
  made := s'.made.trans s.made
  span i c hc := by
    obtain ⟨b, hb, hbi, hbt⟩ := s'.span i c hc
    obtain ⟨a, ha, hai, hat⟩ := s.span i b hb
    exact ⟨a, ha, hbi.trans hai, hbt.trans hat⟩
  transaction t c hc := by
    obtain ⟨b, hb, hbi, hbc⟩ := s'.transaction t c hc
    obtain ⟨a, ha, hai, hac⟩ := s.transaction t b hb
    exact ⟨a, ha, hbi.trans hai, hbc.trans hac⟩

theorem Law.congr (l : Law h ext) (he : ∀ o, ext' o = ext o) : Law h ext' :=
  ⟨fun o => by rw [he, l.exact], l.span, l.transaction, l.made⟩

/-! ## What is referred to is there -/

theorem Law.lt_made (l : Law h ext) {s : Span} (hs : h.spans i = some s) : i < h.made := by
  by_contra hi
  rw [(l.made i (Nat.le_of_not_lt hi)).1] at hs
  cases hs

theorem Law.transaction_lt_made (l : Law h ext) {tx : Transaction} (htx : h.transactions t = some tx) : t < h.made := by
  by_contra ht
  rw [(l.made t (Nat.le_of_not_lt ht)).2] at htx
  cases htx

theorem Law.exists_span (l : Law h ext) (hi : 0 < ext (.span i)) : ∃ s, h.spans i = some s := by
  cases hs : h.spans i with
  | some s => exact ⟨s, rfl⟩
  | none =>
    have hexact := l.exact (.span i)
    simp only [Heap.refs, hs, Option.elim_none] at hexact
    omega

theorem Law.exists_transaction (l : Law h ext) (ht : 0 < ext (.transaction t)) : ∃ tx, h.transactions t = some tx := by
  cases htx : h.transactions t with
  | some tx => exact ⟨tx, rfl⟩
  | none =>
    have hexact := l.exact (.transaction t)
    simp only [Heap.refs, htx, Option.elim_none] at hexact
    omega

theorem pointers_pos (hi : i < h.made) {s : Span} (hs : h.spans i = some s) :
    0 < h.pointers (.transaction s.transaction) := by
  have hle := Counting.le_sum_range (pointsTo (.transaction s.transaction)) h.spans hi
  rw [hs] at hle
  simp only [pointsTo, if_true] at hle
  exact hle

/-- The transaction of a live span is live. -/
theorem Law.parent (l : Law h ext) {s : Span} (hs : h.spans i = some s) : ∃ tx, h.transactions s.transaction = some tx := by
  have hpos := pointers_pos (l.lt_made hs) hs
  cases htx : h.transactions s.transaction with
  | some tx => exact ⟨tx, rfl⟩
  | none =>
    have hexact := l.exact (.transaction s.transaction)
    simp only [Heap.refs, htx, Option.elim_none] at hexact
    omega

/-- A live object is referred to. -/
theorem Law.referred (l : Law h ext) {s : Span} (hs : h.spans i = some s) : 0 < ext (.span i) := by
  have hexact := l.exact (.span i)
  have hpos := l.span i s hs
  have hnone : h.pointers (.span i) = 0 := sum_eq_zero fun _ _ => rfl
  simp only [Heap.refs, hs, Option.elim_some, hnone] at hexact
  omega

/-! ## Storing an object -/

theorem pointers_storeSpan (hi : i < h.made) (c : Option Span) (o : Ref) :
    (h.storeSpan i c).pointers o + pointsTo o (h.spans i) = h.pointers o + pointsTo o c :=
  Counting.sum_range_update (pointsTo o) h.spans hi c

theorem refs_storeSpan (c : Option Span) (o : Ref) :
    (h.storeSpan i c).refs o = if o = .span i then c.elim 0 Span.refs else h.refs o := by
  cases o with
  | span j =>
    by_cases hj : j = i
    · subst hj
      simp [Heap.refs, Heap.storeSpan]
    · simp [Heap.refs, Heap.storeSpan, hj]
  | transaction t => simp [Heap.refs, Heap.storeSpan]

theorem refs_storeTransaction (c : Option Transaction) (o : Ref) :
    (h.storeTransaction t c).refs o = if o = .transaction t then c.elim 0 Transaction.refs else h.refs o := by
  cases o with
  | transaction u =>
    by_cases hu : u = t
    · subst hu
      simp [Heap.refs, Heap.storeTransaction]
    · simp [Heap.refs, Heap.storeTransaction, hu]
  | span i => simp [Heap.refs, Heap.storeTransaction]

theorem spans_storeSpan (c : Option Span) (j : Nat) : (h.storeSpan i c).spans j = if j = i then c else h.spans j := by
  simp [Heap.storeSpan, Function.update_apply]

theorem transactions_storeTransaction (c : Option Transaction) (u : Nat) :
    (h.storeTransaction t c).transactions u = if u = t then c else h.transactions u := by
  simp [Heap.storeTransaction, Function.update_apply]

theorem pointers_storeTransaction (c : Option Transaction) (o : Ref) :
    (h.storeTransaction t c).pointers o = h.pointers o := rfl

theorem pointsTo_congr {s s' : Span} (ht : s'.transaction = s.transaction) (o : Ref) :
    pointsTo o (some s') = pointsTo o (some s) := by
  cases o <;> simp [pointsTo, ht]

/-- A span is replaced by one of the same transaction. -/
theorem Law.storeSpan (l : Law h ext) {s s' : Span} (hs : h.spans i = some s) (ht : s'.transaction = s.transaction)
    (hrefs : s'.refs ≠ 0) (he : ∀ o, ext' o + (if o = .span i then s.refs else 0) =
      ext o + (if o = .span i then s'.refs else 0)) : Law (h.storeSpan i (some s')) ext' where
  exact o := by
    have hpointers := pointers_storeSpan (l.lt_made hs) (some s') o
    have hold := l.exact o
    have hext := he o
    rw [hs, pointsTo_congr ht] at hpointers
    rw [refs_storeSpan, Option.elim_some]
    split
    · rename_i ho
      subst ho
      simp only [if_true] at hext
      simp only [Heap.refs, hs, Option.elim_some] at hold
      omega
    · rename_i ho
      simp only [ho, if_false] at hext
      omega
  span j s'' hj := by
    rw [spans_storeSpan] at hj
    split at hj
    · cases hj
      exact hrefs
    · exact l.span j s'' hj
  transaction := l.transaction
  made j hj := by
    refine ⟨?_, (l.made j hj).2⟩
    have hji : j ≠ i := fun h => absurd (l.lt_made hs) (Nat.not_lt.mpr (h ▸ hj))
    rw [spans_storeSpan, if_neg hji]
    exact (l.made j hj).1

/-- A transaction is replaced, or goes. -/
theorem Law.storeTransaction (l : Law h ext) {tx : Transaction} {c : Option Transaction}
    (htx : h.transactions t = some tx) (hrefs : ∀ tx' ∈ c, tx'.refs ≠ 0)
    (he : ∀ o, ext' o + (if o = .transaction t then tx.refs else 0) =
      ext o + (if o = .transaction t then c.elim 0 Transaction.refs else 0)) :
    Law (h.storeTransaction t c) ext' where
  exact o := by
    have hold := l.exact o
    have hext := he o
    rw [refs_storeTransaction, pointers_storeTransaction]
    split
    · rename_i ho
      subst ho
      simp only [if_true] at hext
      simp only [Heap.refs, htx, Option.elim_some] at hold
      omega
    · rename_i ho
      simp only [ho, if_false] at hext
      omega
  span := l.span
  transaction u tx' hu := by
    rw [transactions_storeTransaction] at hu
    split at hu
    · exact hrefs tx' hu
    · exact l.transaction u tx' hu
  made j hj := by
    refine ⟨(l.made j hj).1, ?_⟩
    have hjt : j ≠ t := fun h => absurd (l.transaction_lt_made htx) (Nat.not_lt.mpr (h ▸ hj))
    rw [transactions_storeTransaction, if_neg hjt]
    exact (l.made j hj).2

theorem Same.storeSpan {s s' : Span} (hs : h.spans i = some s) (hinner : s'.inner = s.inner)
    (ht : s'.transaction = s.transaction) : Same h (h.storeSpan i (some s')) where
  made := rfl
  span j c hc := by
    rw [spans_storeSpan] at hc
    split at hc
    · rename_i hj
      cases hc
      exact ⟨s, hj ▸ hs, hinner, ht⟩
    · exact ⟨c, hc, rfl, rfl⟩
  transaction t tx htx := ⟨tx, htx, rfl, rfl⟩

theorem Same.storeTransaction {tx : Transaction} {c : Option Transaction} (htx : h.transactions t = some tx)
    (hc : ∀ tx' ∈ c, tx'.inner = tx.inner ∧ tx'.children = tx.children) : Same h (h.storeTransaction t c) where
  made := rfl
  span i s hs := ⟨s, hs, rfl, rfl⟩
  transaction u d hd := by
    rw [transactions_storeTransaction] at hd
    split at hd
    · rename_i hu
      exact ⟨tx, hu ▸ htx, hc d hd⟩
    · exact ⟨d, hd, rfl, rfl⟩

/-! ## Taking and giving references -/

theorem Law.spanIncref (l : Law h ext) {s : Span} (hs : h.spans i = some s) :
    ∃ h', h.spanIncref i = some h' ∧ Law h' (give (.span i) ext) ∧ Same h h' := by
  refine ⟨h.storeSpan i (some { s with refs := s.refs + 1 }), by simp [Heap.spanIncref, hs],
    l.storeSpan hs rfl (Nat.succ_ne_zero s.refs) fun o => ?_, .storeSpan hs rfl rfl⟩
  unfold give
  dsimp only
  split <;> omega

theorem Law.transactionIncref (l : Law h ext) {tx : Transaction} (htx : h.transactions t = some tx) :
    ∃ h', h.transactionIncref t = some h' ∧ Law h' (give (.transaction t) ext) ∧ Same h h' := by
  refine ⟨_, by rw [Heap.transactionIncref, htx]; rfl, l.storeTransaction htx ?_ fun o => ?_, .storeTransaction htx ?_⟩
  · rintro tx' ⟨⟩
    exact Nat.succ_ne_zero _
  · unfold give
    simp only [Option.elim_some]
    split <;> omega
  · rintro tx' ⟨⟩
    exact ⟨rfl, rfl⟩

theorem Law.transactionDecref (l : Law h (give (.transaction t) ext)) :
    ∃ h', h.transactionDecref t = some h' ∧ Law h' ext ∧ Same h h' ∧ h'.spans = h.spans := by
  obtain ⟨tx, htx⟩ := l.exists_transaction (t := t) (by simp)
  have hpos := l.transaction t tx htx
  by_cases hone : tx.refs = 1
  · refine ⟨h.storeTransaction t none, by simp [Heap.transactionDecref, htx, hone],
      l.storeTransaction htx nofun fun o => ?_, .storeTransaction htx nofun, rfl⟩
    unfold give
    simp only [Option.elim_none]
    split <;> omega
  · refine ⟨h.storeTransaction t (some { tx with refs := tx.refs - 1 }), by simp [Heap.transactionDecref, htx, hone],
      l.storeTransaction htx ?_ fun o => ?_, .storeTransaction htx ?_, rfl⟩
    · rintro tx' ⟨⟩
      show tx.refs - 1 ≠ 0
      omega
    · unfold give
      simp only [Option.elim_some]
      split <;> omega
    · rintro tx' ⟨⟩
      exact ⟨rfl, rfl⟩

theorem unlist_of_not_mem {cs : List Nat} (hi : i ∉ cs) : Heap.unlist i cs = cs := by
  rw [Heap.unlist, if_neg (by rw [List.idxOf_lt_length_iff]; exact hi)]

/-- A span that nobody refers to leaves its reference to the transaction behind. -/
theorem Law.dropSpan (l : Law h (give (.span i) ext)) {s : Span} (hs : h.spans i = some s) (hone : s.refs = 1) :
    Law (h.storeSpan i none) (give (.transaction s.transaction) ext) where
  exact o := by
    have hpointers := pointers_storeSpan (l.lt_made hs) none o
    have hold := l.exact o
    rw [hs] at hpointers
    rw [refs_storeSpan]
    cases o with
    | span j =>
      rw [give_of_ne (by simp)]
      simp only [pointsTo, Nat.add_zero] at hpointers
      by_cases hj : j = i
      · subst hj
        rw [give_self, Heap.refs, hs, Option.elim_some, hone] at hold
        rw [if_pos rfl, Option.elim_none]
        omega
      · rw [give_of_ne (by simpa using hj)] at hold
        rw [if_neg (by simpa using hj), hold, hpointers]
    | transaction u =>
      rw [give_of_ne (by simp)] at hold
      rw [if_neg (by simp), hold]
      simp only [pointsTo, give, Ref.transaction.injEq, Nat.add_zero] at hpointers ⊢
      split at hpointers
      · rename_i hu
        rw [if_pos hu.symm]
        omega
      · rename_i hu
        rw [if_neg (Ne.symm hu)]
        omega
  span j c hc := by
    rw [spans_storeSpan] at hc
    split at hc
    · cases hc
    · exact l.span j c hc
  transaction := l.transaction
  made j hj := by
    refine ⟨?_, (l.made j hj).2⟩
    rw [spans_storeSpan]
    split
    · rfl
    · exact (l.made j hj).1

theorem removeChild_of_not_mem {tx : Transaction} (htx : h.transactions t = some tx) (hi : i ∉ tx.children) :
    h.removeChild t i = some h := by
  simp only [Heap.removeChild, htx, Option.bind_eq_bind, Option.bind_some, unlist_of_not_mem hi]
  rw [Heap.storeTransaction, ← htx, Function.update_eq_self]

theorem transactionDecref_storeSpan (c : Option Span) :
    (h.storeSpan i c).transactionDecref t = (h.transactionDecref t).map (·.storeSpan i c) := by
  unfold Heap.transactionDecref
  cases htx : h.transactions t with
  | none => simp [Heap.storeSpan, htx]
  | some tx =>
    simp only [Heap.storeSpan, htx, Option.bind_eq_bind, Option.bind_some]
    split <;> rfl

theorem Law.spanDecref (l : Law h (give (.span i) ext))
    (hlisted : ext (.span i) = 0 → ∀ t tx, h.transactions t = some tx → i ∉ tx.children) :
    ∃ h', h.spanDecref i = some h' ∧ Law h' ext ∧ Same h h' := by
  obtain ⟨s, hs⟩ := l.exists_span (i := i) (by simp)
  have hpos := l.span i s hs
  have hexact := l.exact (.span i)
  have hnone : h.pointers (.span i) = 0 := sum_eq_zero fun _ _ => rfl
  simp only [Heap.refs, hs, Option.elim_some, give_self, hnone] at hexact
  by_cases hone : s.refs = 1
  · obtain ⟨tx, htx⟩ := l.parent hs
    have hkeep := removeChild_of_not_mem htx (hlisted (by omega) _ _ htx)
    obtain ⟨h', hdec, hlaw, hsame, -⟩ := (l.dropSpan hs hone).transactionDecref
    refine ⟨h', ?_, hlaw, hsame.made, fun j c hc => ?_, hsame.transaction⟩
    · rw [transactionDecref_storeSpan, Option.map_eq_bind] at hdec
      simp only [Heap.spanDecref, hs, Option.bind_eq_bind, Option.bind_some, hone, if_true, hkeep]
      exact hdec
    · obtain ⟨c', hc', hinner, ht⟩ := hsame.span j c hc
      rw [spans_storeSpan] at hc'
      split at hc'
      · cases hc'
      · exact ⟨c', hc', hinner, ht⟩
  · refine ⟨h.storeSpan i (some { s with refs := s.refs - 1 }), by simp [Heap.spanDecref, hs, hone],
      l.storeSpan hs rfl (show s.refs - 1 ≠ 0 by omega) fun o => ?_, .storeSpan hs rfl rfl⟩
    unfold give
    dsimp only
    split <;> omega

/-! ## New objects -/

theorem pointers_made {c : Option Span} (o : Ref) :
    ({ h.storeSpan h.made c with made := h.made + 1 } : Heap).pointers o = h.pointers o + pointsTo o c :=
  Counting.sum_range_succ_update (pointsTo o) h.spans h.made c

theorem Law.transactionNew (l : Law h ext) (inner : Value) : Law (h.transactionNew inner) (give (.transaction h.made) ext) where
  exact o := by
    have hpointers : (h.transactionNew inner).pointers o = h.pointers o := by
      rw [Heap.pointers, Heap.transactionNew, sum_range_succ, show (h.storeTransaction h.made _).spans h.made = none from
        (l.made h.made (Nat.le_refl _)).1]
      cases o <;> rfl
    have hrefs := refs_storeTransaction (h := h) (t := h.made) (some ⟨inner, 1, [], 0⟩) o
    have hold := l.exact o
    have hnone : h.refs (.transaction h.made) = 0 := by
      rw [Heap.refs, (l.made h.made (Nat.le_refl _)).2, Option.elim_none]
    rw [hpointers]
    refine Eq.trans (show _ = _ from hrefs) ?_
    unfold give
    split
    · rename_i ho
      subst ho
      simp only [Option.elim_some]
      omega
    · exact hold
  span := l.span
  transaction t tx htx := by
    rw [Heap.transactionNew, transactions_storeTransaction] at htx
    split at htx
    · cases htx
      exact Nat.one_ne_zero
    · exact l.transaction t tx htx
  made i hi := by
    have hlt : h.made < i := hi
    refine ⟨(l.made i (Nat.le_of_lt hlt)).1, ?_⟩
    rw [Heap.transactionNew, transactions_storeTransaction, if_neg (Nat.ne_of_gt hlt)]
    exact (l.made i (Nat.le_of_lt hlt)).2

/-- The list of a transaction changes. -/
theorem Law.relist (l : Law h ext) {tx tx' : Transaction} (htx : h.transactions t = some tx) (hrefs : tx'.refs = tx.refs) :
    Law (h.storeTransaction t (some tx')) ext := by
  refine l.storeTransaction htx ?_ fun o => by rw [Option.elim_some, hrefs]
  rintro _ ⟨⟩
  exact hrefs ▸ l.transaction t tx htx

/-- A new span holds its transaction. -/
theorem Law.madeSpan (l : Law h (give (.transaction t) ext)) (inner : Value) :
    Law { h.storeSpan h.made (some ⟨inner, 1, t⟩) with made := h.made + 1 } (give (.span h.made) ext) where
  exact o := by
    have hpointers := pointers_made (h := h) (c := some ⟨inner, 1, t⟩) o
    have hrefs := refs_storeSpan (h := h) (i := h.made) (some ⟨inner, 1, t⟩) o
    have hold := l.exact o
    have hnone : h.refs (.span h.made) = 0 := by
      rw [Heap.refs, (l.made h.made (Nat.le_refl _)).1, Option.elim_none]
    rw [hpointers]
    refine Eq.trans (show _ = _ from hrefs) ?_
    cases o with
    | span j =>
      rw [give_of_ne (by simp)] at hold
      simp only [pointsTo, give, Ref.span.injEq, Option.elim_some]
      split
      · rename_i hj
        subst hj
        omega
      · exact hold
    | transaction u =>
      rw [if_neg (by simp), give_of_ne (show Ref.transaction u ≠ .span h.made by simp), hold]
      simp only [give, pointsTo, Ref.transaction.injEq, eq_comm (a := u)]
      omega
  span j s hs := by
    have hs' : (h.storeSpan h.made (some ⟨inner, 1, t⟩)).spans j = some s := hs
    rw [spans_storeSpan] at hs'
    split at hs'
    · cases hs'
      exact Nat.one_ne_zero
    · exact l.span j s hs'
  transaction := l.transaction
  made i hi := by
    have hlt : h.made < i := hi
    refine ⟨?_, (l.made i (Nat.le_of_lt hlt)).2⟩
    show (h.storeSpan h.made (some ⟨inner, 1, t⟩)).spans i = none
    rw [spans_storeSpan, if_neg (Nat.ne_of_gt hlt)]
    exact (l.made i (Nat.le_of_lt hlt)).1

end SentryNative.Tracing.Spans
