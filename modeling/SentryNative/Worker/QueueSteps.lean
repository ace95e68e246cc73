import Mathlib.Data.List.TakeWhile
import SentryNative.Worker.QueueInvariant

/-!
# What each step does to the queue
-/

namespace SentryNative.Worker

open Linked

variable {s : State} {q l r : List Nat}

theorem rest_subset (s : State) (q : List Nat) : s.rest q ⊆ q := by
  simp only [State.rest]
  split
  · exact List.Subset.refl q
  · exact List.tail_subset q

/-- The order of tasks whose keys and numbers did not change. -/
theorem pairwise_before {t : State} (h : l.Pairwise s.Before)
    (hm : ∀ a ∈ l, (t.mem a).executeAfter = (s.mem a).executeAfter ∧
      (t.mem a).taskData = (s.mem a).taskData) : l.Pairwise t.Before := by
  refine h.imp_of_mem ?_
  intro a b ha hb hab
  simpa only [State.Before, (hm a ha).1, (hm a ha).2, (hm b hb).1, (hm b hb).2] using hab

theorem map_taskData {t : State} (hm : ∀ a ∈ q, (t.mem a).taskData = (s.mem a).taskData) :
    (q.map fun a => (t.mem a).taskData) = q.map fun a => (s.mem a).taskData :=
  List.map_congr_left hm

/-! ## Allocation -/

/-- The state in which a thread has built its task. -/
def State.alloc (s : State) (a executeAfter execFunc : Nat) : State :=
  { s.set a ⟨none, 1, executeAfter, execFunc, 0⟩ with
    allocated := fun b => if b = a then true else s.allocated b
    waiting := a :: s.waiting }

theorem alloc_mem {a b k f : Nat} (h : b ≠ a) : (s.alloc a k f).mem b = s.mem b := if_neg h

theorem Ledger.alloc (h : Ledger s q) {a k f : Nat} (ha : s.allocated a = false) :
    Ledger (s.alloc a k f) q := by
  obtain ⟨haq, haw, hah⟩ := h.not_mem_of_free ha
  have hm : ∀ b ∈ q, (s.alloc a k f).mem b = s.mem b :=
    fun b hb => alloc_mem fun e => haq (e ▸ hb)
  have hmh : ∀ b, s.worker.holds = some b → (s.alloc a k f).mem b = s.mem b :=
    fun b hb => alloc_mem fun e => hah (e ▸ hb)
  constructor
  · exact h.nodup
  · exact List.nodup_cons.mpr ⟨haw, h.waiting_nodup⟩
  · intro b hb
    rcases List.mem_cons.mp hb with rfl | hb
    · exact ⟨haq, hah⟩
    · exact h.waiting_fresh b hb
  · intro b
    by_cases hb : b = a
    · simp [State.alloc, hb]
    · simpa [State.alloc, hb, State.set] using h.allocated b
  · intro b hb
    by_cases hba : b = a
    · subst hba
      have hrefs : (s.alloc b k f).refs q b = 1 := by
        simp [State.refs, State.alloc, State.set, hah]
      rw [hrefs]
      simp [State.alloc, State.set]
    · rw [alloc_mem hba, h.refcount b (by simpa [State.alloc, hba] using hb)]
      simp [State.refs, State.alloc, State.set, hba]
  · rw [map_taskData fun b hb => congrArg Task.taskData (hm b hb)]
    exact h.numbers
  · intro b hb
    rw [hm b hb]
    exact h.numbered b hb
  · intro b i hbusy hb
    rw [hmh b hb]
    exact h.holds b i hbusy hb
  · intro b i hb
    rcases h.busy b i hb with ⟨hc, hh, hi⟩ | ⟨hc, hi⟩
    · refine Or.inl ⟨hc, hh, ?_⟩
      rw [hm b (List.mem_of_mem_head? hh)]
      exact hi
    · refine Or.inr ⟨hc, fun d hd => ?_⟩
      rw [hm d hd]
      exact hi d hd
  · exact h.current
  · exact h.busy_lt
  · refine pairwise_before h.sorted fun b hb => ?_
    rw [hm b (rest_subset s q hb)]
    exact ⟨rfl, rfl⟩
  · exact h.once
  · exact h.executed_lt
  · exact h.hasRun
  · intro b hb
    rw [hm b hb]
    exact h.unexecuted b hb
  · intro i hi
    rcases h.kept i hi with he | hd | ⟨b, hb, hbi⟩
    · exact Or.inl he
    · exact Or.inr (Or.inl hd)
    · exact Or.inr (Or.inr ⟨b, hb, by rw [hm b hb]; exact hbi⟩)
  · exact h.popped

theorem Inv.alloc (h : Inv s q) {a k f : Nat} (ha : s.allocated a = false) :
    Inv (s.alloc a k f) q := by
  have hf := h.not_mem_of_free ha
  refine ⟨h.toLedger.alloc ha, h.linked.congr fun b hb => ?_, fun b hb => ?_⟩
  · have hba : b ≠ a := fun e => hf.1 (e ▸ hb)
    simp only [State.next, alloc_mem hba]
  · by_cases hba : b = a
    · simp [State.alloc, State.set, hba]
    · rw [alloc_mem hba]
      exact h.waiting_next b ((List.mem_cons.mp hb).resolve_left hba)

/-! ## Linking -/

theorem number_mem {a b : Nat} (h : b ≠ a) : (s.number a).mem b = s.mem b := if_neg h

theorem number_mem_same (a : Nat) :
    (s.number a).mem a = { s.mem a with taskData := s.submitted } := if_pos rfl

/-- A waiting task comes onto the list, behind an executing head. -/
theorem Ledger.number (h : Ledger s (l ++ r)) {a : Nat} (ha : a ∈ s.waiting)
    (hl : s.currentTask ≠ none → l ≠ [])
    (hle : ∀ b ∈ s.rest l, (s.mem b).executeAfter ≤ (s.mem a).executeAfter)
    (hgt : ∀ b ∈ r, (s.mem a).executeAfter < (s.mem b).executeAfter) :
    Ledger (s.number a) (l ++ a :: r) := by
  obtain ⟨haq, hah⟩ := h.waiting_fresh a ha
  have hm : ∀ b ∈ l ++ r, (s.number a).mem b = s.mem b :=
    fun b hb => number_mem fun e => haq (e ▸ hb)
  have hmem : ∀ b, b ∈ l ++ a :: r ↔ b = a ∨ b ∈ l ++ r := by
    intro b
    simp only [List.mem_append, List.mem_cons]
    tauto
  have hdata : ((s.number a).mem a).taskData = s.submitted := by rw [number_mem_same]
  have hperm : (l ++ a :: r).Perm (a :: (l ++ r)) := List.perm_middle
  constructor
  · exact hperm.nodup_iff.mpr (List.nodup_cons.mpr ⟨haq, h.nodup⟩)
  · exact h.waiting_nodup.erase a
  · intro b hb
    have hba : b ≠ a := fun e => h.waiting_nodup.not_mem_erase (e ▸ hb)
    obtain ⟨hbq, hbh⟩ := h.waiting_fresh b (List.mem_of_mem_erase hb)
    refine ⟨?_, hbh⟩
    rw [hmem]
    exact not_or.mpr ⟨hba, hbq⟩
  · intro b
    rw [hmem]
    by_cases hba : b = a
    · subst hba
      simpa [State.number, State.set] using (h.allocated b).mpr (Or.inr (Or.inl ha))
    · simpa [State.number, State.set, hba, List.mem_erase_of_ne hba] using h.allocated b
  · intro b hb
    by_cases hba : b = a
    · subst hba
      rw [number_mem_same]
      refine (h.refcount b hb).trans ?_
      simp [State.refs, State.number, State.set, ha, haq]
    · rw [number_mem hba]
      refine (h.refcount b hb).trans ?_
      simp [State.refs, State.number, State.set, hba, List.mem_erase_of_ne hba]
  · refine ((hperm.map _).nodup_iff).mpr ?_
    rw [List.map_cons, map_taskData fun b hb => congrArg Task.taskData (hm b hb)]
    refine List.nodup_cons.mpr ⟨?_, h.numbers⟩
    rw [hdata]
    intro hc
    obtain ⟨b, hb, hbs⟩ := List.mem_map.mp hc
    exact absurd (h.numbered b hb) (by omega)
  · intro b hb
    rcases (hmem b).mp hb with rfl | hb
    · rw [hdata]
      exact Nat.lt_succ_self _
    · rw [hm b hb]
      exact Nat.lt_succ_of_lt (h.numbered b hb)
  · intro b i hbusy hb
    have hba : b ≠ a := fun e => hah (e ▸ hb)
    rw [number_mem hba]
    exact h.holds b i hbusy hb
  · intro b i hb
    rcases h.busy b i hb with ⟨hc, hh, hi⟩ | ⟨hc, hi⟩
    · refine Or.inl ⟨hc, ?_, ?_⟩
      · have hne := hl (by simp [hc])
        rw [List.head?_append_of_ne_nil l hne] at hh ⊢
        exact hh
      · rw [hm b (List.mem_of_mem_head? hh)]
        exact hi
    · refine Or.inr ⟨hc, fun d hd => ?_⟩
      rcases (hmem d).mp hd with rfl | hd
      · rw [hdata]
        exact Nat.ne_of_gt (h.busy_lt b i hb)
      · rw [hm d hd]
        exact hi d hd
  · exact h.current
  · exact fun b i hb => Nat.lt_succ_of_lt (h.busy_lt b i hb)
  · have hrest : ∀ x, (s.number a).rest (l ++ x) = s.rest l ++ x := by
      intro x
      simp only [State.rest, State.number, State.set]
      split
      · rfl
      · rename_i hc
        rw [List.tail_append_of_ne_nil (hl hc)]
    have hs : (s.rest l ++ r).Pairwise (s.number a).Before := by
      have hs := h.sorted
      have hrw : s.rest (l ++ r) = s.rest l ++ r := hrest r
      rw [hrw] at hs
      refine pairwise_before hs fun b hb => ?_
      rw [hm b (rest_subset s _ (hrw ▸ hb))]
      exact ⟨rfl, rfl⟩
    rw [hrest, List.pairwise_append, List.pairwise_cons]
    rw [List.pairwise_append] at hs
    have hbefore : ∀ b ∈ s.rest l, (s.number a).Before b a := by
      intro b hb
      have hbl : b ∈ l ++ r := List.mem_append_left r (rest_subset s l hb)
      have hlt := h.numbered b hbl
      have hk := hle b hb
      simp only [State.Before, hm b hbl, number_mem_same]
      omega
    refine ⟨hs.1, ⟨?_, hs.2.1⟩, ?_⟩
    · intro b hb
      have hbr : b ∈ l ++ r := List.mem_append_right l hb
      simp only [State.Before, hm b hbr, number_mem_same]
      exact Or.inl (hgt b hb)
    · intro b hb c hc
      rcases List.mem_cons.mp hc with rfl | hc
      · exact hbefore b hb
      · exact hs.2.2 b hb c hc
  · exact h.once
  · exact fun i hi => Nat.lt_succ_of_lt (h.executed_lt i hi)
  · exact h.hasRun
  · intro b hb he
    rcases (hmem b).mp hb with rfl | hb
    · rw [hdata] at he
      exact absurd (h.executed_lt _ he) (Nat.lt_irrefl _)
    · rw [hm b hb] at he
      exact h.unexecuted b hb he
  · intro i hi
    rcases Nat.lt_succ_iff_lt_or_eq.mp hi with hi | rfl
    · rcases h.kept i hi with he | hd | ⟨b, hb, hbi⟩
      · exact Or.inl he
      · exact Or.inr (Or.inl hd)
      · exact Or.inr (Or.inr ⟨b, (hmem b).mpr (Or.inr hb), by rw [hm b hb]; exact hbi⟩)
    · exact Or.inr (Or.inr ⟨a, (hmem a).mpr (Or.inl rfl), hdata⟩)
  · exact h.popped

@[simp] theorem number_next (a b : Nat) : (s.number a).next b = s.next b := by
  by_cases h : b = a
  · subst h
    rw [State.next, number_mem_same]
    rfl
  · rw [State.next, number_mem h]
    rfl

@[simp] theorem number_executeAfter (a b : Nat) :
    ((s.number a).mem b).executeAfter = (s.mem b).executeAfter := by
  by_cases h : b = a
  · subst h
    rw [number_mem_same]
  · rw [number_mem h]

theorem setNext_next (a b : Nat) (next : Option Nat) :
    (s.setNext a next).next b = if b = a then next else s.next b := by
  simp only [State.next, State.setNext, State.set]
  split <;> rfl

/-- The walk of a sorted insertion ends before the first task that is due later. -/
theorem findSlot_spec (k : Nat) {x : List Nat} {prev cur : Option Nat} {n : Nat}
    (h : Segment s.next cur x none) (hn : x.length ≤ n) :
    s.findSlot k n prev cur =
      some ((x.takeWhile fun b => (s.mem b).executeAfter ≤ k).getLast?.or prev,
        (x.dropWhile fun b => (s.mem b).executeAfter ≤ k).head?) := by
  induction x generalizing cur prev n with
  | nil =>
    cases h
    simp [State.findSlot]
  | cons b x ih =>
    obtain ⟨rfl, hx⟩ := h
    cases n with
    | zero => simp at hn
    | succ n =>
      simp only [State.findSlot]
      by_cases hb : (s.mem b).executeAfter ≤ k
      · have hn' : x.length ≤ n := by simpa using hn
        rw [if_pos hb, show (s.mem b).nextTask = s.next b from rfl, ih hx hn',
          List.takeWhile_cons_of_pos (by simpa using hb), List.dropWhile_cons_of_pos (by simpa using hb)]
        cases ht : (x.takeWhile fun b => decide ((s.mem b).executeAfter ≤ k)) with
        | nil => simp
        | cons d t => simp [List.getLast?_cons]
      · rw [if_neg hb, List.takeWhile_cons_of_neg (by simpa using hb),
          List.dropWhile_cons_of_neg (by simpa using hb)]
        simp

/-- In a sorted list nothing after the walk is due before the new task. -/
theorem dropWhile_due_later (k : Nat) {x : List Nat} (h : x.Pairwise s.Before) :
    ∀ b ∈ x.dropWhile fun b => (s.mem b).executeAfter ≤ k, k < (s.mem b).executeAfter := by
  induction x with
  | nil => simp
  | cons d x ih =>
    obtain ⟨hd, hx⟩ := List.pairwise_cons.mp h
    by_cases hk : (s.mem d).executeAfter ≤ k
    · rw [List.dropWhile_cons_of_pos (by simpa using hk)]
      exact ih hx
    · rw [List.dropWhile_cons_of_neg (by simpa using hk)]
      intro b hb
      rcases List.mem_cons.mp hb with rfl | hb
      · omega
      · have hle : (s.mem d).executeAfter ≤ (s.mem b).executeAfter := by
          rcases hd b hb with hlt | ⟨heq, -⟩ <;> omega
        omega

theorem insertAt_next (a b : Nat) (prev cur : Option Nat) :
    (s.insertAt a prev cur).next b =
      if prev = some b then some a else if b = a then cur else s.next b := by
  cases prev with
  | none =>
    have hn : (s.insertAt a none cur).next b = (s.setNext a cur).next b := by
      simp only [State.insertAt]
      split <;> rfl
    simp [hn, setNext_next]
  | some p =>
    have hn : (s.insertAt a (some p) cur).next b =
        ((s.setNext a cur).setNext p (some a)).next b := by
      simp only [State.insertAt]
      split <;> rfl
    simp [hn, setNext_next, eq_comm]

theorem insertAt_firstTask (a : Nat) (prev cur : Option Nat) :
    (s.insertAt a prev cur).firstTask = if prev = none then some a else s.firstTask := by
  cases prev <;> cases cur <;> rfl

theorem insertAt_lastTask (a : Nat) (prev cur : Option Nat) :
    (s.insertAt a prev cur).lastTask = if cur = none then some a else s.lastTask := by
  cases prev <;> cases cur <;> rfl

theorem insertAt_sameTasks (s : State) (a : Nat) (prev cur : Option Nat) :
    SameTasks s (s.insertAt a prev cur) := by
  have hfirst : ∀ (t : State) (x y : Option Nat),
      SameTasks t { t with firstTask := x, lastTask := y } := by
    intro t x y
    constructor <;> intros <;> rfl
  have h := SameTasks.setNext s a cur
  cases prev with
  | none =>
    refine h.trans ?_
    cases cur with
    | none => exact hfirst _ _ _
    | some c => exact hfirst _ _ _
  | some p =>
    refine (h.trans (SameTasks.setNext _ p (some a))).trans ?_
    cases cur with
    | none => exact hfirst _ _ _
    | some c => exact hfirst _ _ _

/-- Writes to two links put a task between two parts of the list. -/
theorem insertAt_linked {a : Nat} (h : Segment s.next s.firstTask (l ++ r) none)
    (ha : a ∉ l ++ r) (hd : (l ++ r).Nodup) :
    Segment (s.insertAt a l.getLast? r.head?).next (s.insertAt a l.getLast? r.head?).firstTask
      (l ++ a :: r) none := by
  obtain ⟨m, hl, hr⟩ := segment_append.mp h
  have hm : m = r.head? := hr.start_eq
  have hdis : ∀ b ∈ r, b ∉ l := fun b hb hbl => (List.disjoint_of_nodup_append hd) hbl hb
  have hal : a ∉ l := fun hal => ha (List.mem_append_left r hal)
  have hne : ∀ b, b ∉ l → l.getLast? ≠ some b := fun b hb e => hb (List.mem_of_getLast? e)
  have htail : Segment (s.insertAt a l.getLast? r.head?).next (some a) (a :: r) none := by
    refine ⟨rfl, ?_⟩
    rw [insertAt_next, if_neg (hne a hal), if_pos rfl, ← hm]
    refine hr.congr fun b hb => ?_
    have hba : b ≠ a := fun e => ha (List.mem_append_right l (e ▸ hb))
    rw [insertAt_next, if_neg (hne b (hdis b hb)), if_neg hba]
  refine segment_append.mpr ⟨some a, ?_, htail⟩
  rcases List.eq_nil_or_concat l with rfl | ⟨l', p, rfl⟩
  · simp [insertAt_firstTask]
  · rw [List.concat_eq_append] at hl hal hd hne ⊢
    have hlast : (l' ++ [p]).getLast? = some p := by simp
    rw [hlast, insertAt_firstTask, if_neg (by simp)]
    refine hl.relink (fun b hb => ?_) ?_
    · have hpb : p ≠ b := by
        intro e
        have hnd : (l' ++ [p]).Nodup := (List.nodup_append.mp hd).1
        exact (List.disjoint_of_nodup_append hnd) hb (by simp [e])
      have hba : b ≠ a := fun e => hal (List.mem_append_left _ (e ▸ hb))
      rw [insertAt_next, if_neg (by simpa using hpb), if_neg hba]
    · rw [insertAt_next, if_pos rfl]

theorem setNext_self {a : Nat} {next : Option Nat} (h : (s.mem a).nextTask = next) :
    s.setNext a next = s := by
  subst h
  simp only [State.setNext, State.set]
  congr 1
  funext b
  split
  · rename_i e
    rw [e]
  · rfl

/-- A numbered task comes onto the list. -/
theorem Inv.insertAt (h : Inv s (l ++ r)) (hlast : s.lastTask = (l ++ r).getLast?) {a : Nat}
    (ha : a ∈ s.waiting) (hl : s.currentTask ≠ none → l ≠ [])
    (hle : ∀ b ∈ s.rest l, (s.mem b).executeAfter ≤ (s.mem a).executeAfter)
    (hgt : ∀ b ∈ r, (s.mem a).executeAfter < (s.mem b).executeAfter) :
    Inv ((s.number a).insertAt a l.getLast? r.head?) (l ++ a :: r) ∧
      ((s.number a).insertAt a l.getLast? r.head?).lastTask = (l ++ a :: r).getLast? := by
  obtain ⟨haq, -⟩ := h.waiting_fresh a ha
  have hsame := insertAt_sameTasks (s.number a) a l.getLast? r.head?
  refine ⟨⟨hsame.ledger (h.toLedger.number ha hl hle hgt), ?_, ?_⟩, ?_⟩
  · exact insertAt_linked (h.linked.congr fun b _ => number_next a b) haq h.nodup
  · intro b hb
    rw [hsame.waiting] at hb
    have hba : b ≠ a := fun e => h.waiting_nodup.not_mem_erase (e ▸ hb)
    have hbw : b ∈ s.waiting := List.mem_of_mem_erase hb
    have hbl : l.getLast? ≠ some b :=
      fun e => (h.waiting_fresh b hbw).1 (List.mem_append_left r (List.mem_of_getLast? e))
    have hn : ((s.number a).insertAt a l.getLast? r.head?).next b = s.next b := by
      rw [insertAt_next, if_neg hbl, if_neg hba, number_next]
    exact hn.trans (h.waiting_next b hbw)
  · rw [insertAt_lastTask]
    cases r with
    | nil => simp
    | cons d r =>
      have hn : (s.number a).lastTask = s.lastTask := rfl
      rw [if_neg (by simp), hn, hlast]
      simp [List.getLast?_cons]

/-- The last task of a sorted list is due last. -/
theorem le_getLast {x : List Nat} (h : x.Pairwise s.Before) {p : Nat} (hp : x.getLast? = some p) :
    ∀ b ∈ x, (s.mem b).executeAfter ≤ (s.mem p).executeAfter := by
  obtain ⟨y, rfl⟩ := List.getLast?_eq_some_iff.mp hp
  intro b hb
  rcases List.mem_append.mp hb with hb | hb
  · rcases (List.pairwise_append.mp h).2.2 b hb p (by simp) with hlt | ⟨heq, -⟩
    · exact hlt.le
    · exact heq.le
  · rw [List.mem_singleton.mp hb]

theorem Inv.current_ne_nil (h : Inv s q) (hc : s.currentTask ≠ none) :
    ∃ c x, s.currentTask = some c ∧ q = c :: x := by
  obtain ⟨c, hc⟩ := Option.ne_none_iff_exists'.mp hc
  obtain ⟨hh, -⟩ := h.current_head hc
  obtain ⟨x, hx⟩ := List.head?_eq_some_iff.mp hh
  exact ⟨c, x, hc, hx⟩

/-- Where the sorted insertion puts a task. -/
theorem Inv.findSlot (h : Inv s q) (k a : Nat) :
    ∃ l r, q = l ++ r ∧ (s.currentTask ≠ none → l ≠ []) ∧
      (∀ b ∈ s.rest l, (s.mem b).executeAfter ≤ k) ∧ (∀ b ∈ r, k < (s.mem b).executeAfter) ∧
      (s.number a).findSlot k ((s.number a).submitted + 1) (s.number a).currentTask
        (s.number a).slotStart = some (l.getLast?, r.head?) := by
  have hlen := h.length_le
  have hlinked : Segment (s.number a).next (s.number a).firstTask q none :=
    h.linked.congr fun b _ => number_next a b
  have hkey : (fun b => decide (((s.number a).mem b).executeAfter ≤ k)) =
      fun b => decide ((s.mem b).executeAfter ≤ k) := by
    funext b
    rw [number_executeAfter]
  have hcur : (s.number a).currentTask = s.currentTask := rfl
  have hsub : (s.number a).submitted = s.submitted + 1 := rfl
  by_cases hc : s.currentTask = none
  · have hsorted : q.Pairwise s.Before := by simpa [State.rest, hc] using h.sorted
    refine ⟨q.takeWhile fun b => (s.mem b).executeAfter ≤ k,
      q.dropWhile fun b => (s.mem b).executeAfter ≤ k, List.takeWhile_append_dropWhile.symm,
      fun hn => absurd hc hn, ?_, dropWhile_due_later k hsorted, ?_⟩
    · intro b hb
      simpa using List.mem_takeWhile_imp (rest_subset s _ hb)
    · have hstart : (s.number a).slotStart = (s.number a).firstTask := by
        simp only [State.slotStart, hcur, hc]
      rw [hstart, findSlot_spec k hlinked (by omega), hkey, hcur, hc, Option.or_none]
  · obtain ⟨c, x, hc', rfl⟩ := h.current_ne_nil hc
    have hsorted : x.Pairwise s.Before := by simpa [State.rest, hc] using h.sorted
    refine ⟨c :: x.takeWhile fun b => (s.mem b).executeAfter ≤ k,
      x.dropWhile fun b => (s.mem b).executeAfter ≤ k, ?_, by simp, ?_,
      dropWhile_due_later k hsorted, ?_⟩
    · rw [List.cons_append, List.takeWhile_append_dropWhile]
    · intro b hb
      simp only [State.rest, hc, ↓reduceIte, List.tail_cons] at hb
      simpa using List.mem_takeWhile_imp hb
    · have hstart : (s.number a).slotStart = (s.number a).next c := by
        simp only [State.slotStart, hcur, hc']
        rfl
      rw [hstart, findSlot_spec k hlinked.2 (by simp at hlen; omega), hkey, hcur, hc']
      cases ht : (x.takeWhile fun b => decide ((s.mem b).executeAfter ≤ k)) with
      | nil => simp
      | cons d t => simp [List.getLast?_cons]

/-- The critical section of a submission always ends, with its task in its place. -/
theorem Inv.link (h : Inv s q) (hlast : s.lastTask = q.getLast?) {a : Nat}
    (ha : a ∈ s.waiting) :
    ∃ t q', (s.number a).submitAt a = some t ∧ Inv t q' ∧ t.lastTask = q'.getLast? := by
  have hnext : ((s.number a).mem a).nextTask = none := by
    rw [number_mem_same]
    exact h.waiting_next a ha
  have hfirst : (s.number a).firstTask = q.head? := h.linked.start_eq
  have hlast' : (s.number a).lastTask = q.getLast? := hlast
  cases hq : q.getLast? with
  | none =>
    have hnil : q = [] := List.getLast?_eq_none_iff.mp hq
    subst hnil
    have hins := @Inv.insertAt s [] [] h hlast a ha
      (fun hc => by
        obtain ⟨c, x, -, hx⟩ := h.current_ne_nil hc
        cases hx)
      (by simp [State.rest]) (by simp)
    refine ⟨_, _, ?_, hins⟩
    simp only [State.submitAt, hfirst, List.head?_nil, State.insertAt, List.getLast?_nil,
      setNext_self hnext, if_true]
  | some p =>
    obtain ⟨d, hd⟩ : ∃ d, q.head? = some d := by
      obtain ⟨y, rfl⟩ := List.getLast?_eq_some_iff.mp hq
      cases y <;> simp
    have hsubmit : (s.number a).submitAt a =
        if (s.mem p).executeAfter ≤ (s.mem a).executeAfter then
          some { (s.number a).setNext p (some a) with lastTask := some a }
        else ((s.number a).findSlot (s.mem a).executeAfter ((s.number a).submitted + 1)
          (s.number a).currentTask (s.number a).slotStart).map
            fun slot => (s.number a).insertAt a slot.1 slot.2 := by
      simp only [State.submitAt, hfirst, hd, hlast', hq, number_executeAfter]
    rw [hsubmit]
    by_cases hle : (s.mem p).executeAfter ≤ (s.mem a).executeAfter
    · have hins := @Inv.insertAt s q [] (by simpa using h) (by simpa using hlast) a ha
        (fun hc => by
          obtain ⟨c, x, -, rfl⟩ := h.current_ne_nil hc
          simp)
        (fun b hb => by
          refine le_trans (le_getLast h.sorted ?_ b hb) hle
          simp only [State.rest] at hb ⊢
          split at hb
          · rename_i hc
            rw [if_pos hc]
            exact hq
          · rename_i hc
            rw [if_neg hc]
            cases q with
            | nil => cases hb
            | cons c x =>
              cases x with
              | nil => cases hb
              | cons e x => simpa [List.getLast?_cons] using hq)
        (by simp)
      refine ⟨_, _, ?_, hins⟩
      rw [if_pos hle, hq]
      simp only [State.insertAt, List.head?_nil, setNext_self hnext, if_true]
    · obtain ⟨l, r, rfl, hl, hlk, hrk, hslot⟩ := h.findSlot (s.mem a).executeAfter a
      refine ⟨_, _, ?_, Inv.insertAt h hlast ha hl hlk hrk⟩
      rw [if_neg hle, hslot]
      rfl

end SentryNative.Worker
