import SentryNative.Lib.Addresses
import SentryNative.Lib.Search
import SentryNative.Minidump.Writer

/-!
# Indirectly referenced memory

`sentry_minidump_indirect.c`: for every word that looks like a heap pointer, a page of memory is
read from the crashed process and written to the dump. The accumulator keeps the captured regions
sorted, so that a page is captured once.

* `Inv`: the regions are sorted, apart and within the caps;
* `consider_eq`: one candidate, in any arithmetic that is exact on words;
* `indirect_capture`: what holds in every run, and when a candidate is covered.
-/

namespace SentryNative.Minidump

open CLib

def PER_POINTER_BYTES : Nat := 1024
def MAX_REGIONS : Nat := 1024
def MAX_TOTAL_BYTES : Nat := 4 * 1024 * 1024
def PAGE_SIZE : Nat := 4096

/-- `sentry_indirect_region_t` -/
structure Region where
  start : Nat
  stop : Nat
  rva : UInt32
  size : Nat
  deriving DecidableEq, Repr

/-- `sentry_indirect_accumulator_t`; `region_count` is the number of regions. -/
structure Accumulator where
  regions : List Region
  totalBytes : Nat
  deriving DecidableEq, Repr

/-- `sentry__indirect_init` -/
def indirectInit : Accumulator := ⟨[], 0⟩

/-- `sentry_indirect_ops_t`; reading fails or returns the bytes it got. -/
structure IndirectOps where
  isWritableHeap : Nat → Bool
  readMemory : Nat → Nat → Option Bytes

/-- `find_first_after` -/
def findFirstAfter (acc : Accumulator) (target : Nat) : Nat :=
  partitionPoint (fun i => acc.regions[i]?.any (·.stop ≤ target)) acc.regions.length 0 acc.regions.length

/-- `overlaps_existing` -/
def overlapsExisting (acc : Accumulator) (start stop : Nat) : Bool :=
  match acc.regions[findFirstAfter acc start]? with
  | none => false
  | some r => r.start < stop

/-- `insert_sorted` -/
def insertSorted (A : Arith) (acc : Accumulator) (r : Region) : Option Accumulator := do
  let i := findFirstAfter acc r.start
  let totalBytes ← A.add acc.totalBytes r.size
  some ⟨acc.regions.take i ++ r :: acc.regions.drop i, totalBytes⟩

/-- `& ~((uint64_t)SENTRY_INDIRECT_PAGE_SIZE - 1)` -/
def maskPage (x : Nat) : Nat := x &&& (wordCount - PAGE_SIZE)

/-- The range around an address, before it is trimmed. -/
def centeredRange (A : Arith) (addr : Nat) : Option (Nat × Nat) := do
  let centered ← A.sub addr (PER_POINTER_BYTES / 2)
  let start := maskPage centered
  let stop ← A.add start PER_POINTER_BYTES
  let stop ← (A.add stop PAGE_SIZE).bind fun s => A.sub s 1
  some (start, maskPage stop)

/-- The range after it was trimmed against the budget; none when nothing is left. -/
def trimmedRange (A : Arith) (acc : Accumulator) (start stop : Nat) : Option (Option (Nat × Nat)) := do
  let want ← A.sub stop start
  let remaining ← A.sub MAX_TOTAL_BYTES acc.totalBytes
  if remaining < want then do
    let stop ← A.add start remaining
    if stop ≤ start then some none
    else do
      let want ← A.sub stop start
      some (some (stop, want))
  else some (some (stop, want))

/-- The second half of `sentry__indirect_consider`; `buf` says whether the buffer was allocated,
and the last two are the outcomes of the writes. -/
def capture (A : Arith) (acc : Accumulator) (w : Writer) (ops : IndirectOps) (start stop want : Nat) (buf : Bool)
    (first second : Option Nat) : Option (Accumulator × Writer) :=
  if overlapsExisting acc start stop then some (acc, w)
  else if buf then
    match ops.readMemory start want with
    | none => some (acc, w)
    | some data =>
      if data.length = 0 then some (acc, w)
      else
        let (rva, w) := writeData w data first second
        if rva = 0 then some (acc, w)
        else do
          let stop ← A.add start data.length
          let acc ← insertSorted A acc ⟨start, stop, rva, data.length % 2 ^ 32⟩
          some (acc, w)
  else some (acc, w)

/-- `sentry__indirect_consider` -/
def consider (A : Arith) (acc : Accumulator) (w : Writer) (addr : Nat) (ops : IndirectOps) (buf : Bool)
    (first second : Option Nat) : Option (Accumulator × Writer) :=
  if MAX_REGIONS ≤ acc.regions.length then some (acc, w)
  else if MAX_TOTAL_BYTES ≤ acc.totalBytes then some (acc, w)
  else if addr < PAGE_SIZE then some (acc, w)
  else if addr >>> 56 ≠ 0 then some (acc, w)
  else if !ops.isWritableHeap addr then some (acc, w)
  else do
    let (start, stop) ← centeredRange A addr
    match ← trimmedRange A acc start stop with
    | none => some (acc, w)
    | some (stop, want) => capture A acc w ops start stop want buf first second

/-! ## The invariant -/

/-- The regions are sorted and apart, have the bytes that were read, and stay within the caps. -/
structure Inv (acc : Accumulator) : Prop where
  sorted : acc.regions.Pairwise fun r r' => r.stop ≤ r'.start
  sized : ∀ r ∈ acc.regions, 0 < r.size ∧ r.stop = r.start + r.size
  total : acc.totalBytes = (acc.regions.map (·.size)).sum
  total_le : acc.totalBytes ≤ MAX_TOTAL_BYTES
  count_le : acc.regions.length ≤ MAX_REGIONS

theorem inv_indirectInit : Inv indirectInit where
  sorted := List.Pairwise.nil
  sized := by simp [indirectInit]
  total := rfl
  total_le := Nat.zero_le _
  count_le := Nat.zero_le _

/-- Two ranges have an address in common. -/
def Overlaps (acc : Accumulator) (start stop : Nat) : Prop := ∃ r ∈ acc.regions, r.start < stop ∧ start < r.stop

/-- The search splits the regions into those that end before the target and those that do not. -/
theorem findFirstAfter_spec {acc : Accumulator} (h : Inv acc) (target : Nat) :
    findFirstAfter acc target ≤ acc.regions.length ∧
      (∀ r ∈ acc.regions.take (findFirstAfter acc target), r.stop ≤ target) ∧
      ∀ r ∈ acc.regions.drop (findFirstAfter acc target), target < r.stop := by
  have hsorted := List.pairwise_iff_getElem.1 h.sorted
  have hmono : ∀ i j, i ≤ j → j < acc.regions.length → acc.regions[j]?.any (·.stop ≤ target) = true →
      acc.regions[i]?.any (·.stop ≤ target) = true := by
    intro i j hij hj hbelow
    rw [List.getElem?_eq_getElem hj, Option.any_some, decide_eq_true_eq] at hbelow
    rw [List.getElem?_eq_getElem (by omega), Option.any_some, decide_eq_true_eq]
    by_cases heq : i = j
    · subst heq
      exact hbelow
    · have hlt := hsorted i j (by omega) hj (by omega)
      have hsize := h.sized acc.regions[j] (List.getElem_mem hj)
      omega
  obtain ⟨-, hle, hbefore, hafter⟩ : 0 ≤ findFirstAfter acc target ∧ findFirstAfter acc target ≤ acc.regions.length ∧
      (∀ i, 0 ≤ i → i < findFirstAfter acc target → acc.regions[i]?.any (·.stop ≤ target) = true) ∧
      ∀ i, findFirstAfter acc target ≤ i → i < acc.regions.length → acc.regions[i]?.any (·.stop ≤ target) = false :=
    partitionPoint_spec (Nat.sub_le _ _) (Nat.zero_le _) hmono
  refine ⟨hle, ?_, ?_⟩
  · intro r hr
    obtain ⟨i, hi, rfl⟩ := List.mem_take_iff_getElem.1 hr
    have hbelow := hbefore i (Nat.zero_le _) (by omega)
    rw [List.getElem?_eq_getElem (by omega), Option.any_some, decide_eq_true_eq] at hbelow
    exact hbelow
  · intro r hr
    obtain ⟨i, hi, rfl⟩ := List.mem_drop_iff_getElem.1 hr
    have hnot := hafter (findFirstAfter acc target + i) (Nat.le_add_right _ _) (by omega)
    rw [List.getElem?_eq_getElem (by omega), Option.any_some, decide_eq_false_iff_not] at hnot
    simpa [Nat.add_comm] using hnot

theorem overlapsExisting_iff {acc : Accumulator} (h : Inv acc) {start stop : Nat} :
    overlapsExisting acc start stop = true ↔ Overlaps acc start stop := by
  obtain ⟨hle, hbefore, hafter⟩ := findFirstAfter_spec h start
  have hparts := List.take_append_drop (findFirstAfter acc start) acc.regions
  unfold overlapsExisting
  cases hget : acc.regions[findFirstAfter acc start]? with
  | none =>
    rw [List.getElem?_eq_none_iff] at hget
    rw [List.take_of_length_le hget] at hbefore
    constructor
    · intro hno
      cases hno
    · rintro ⟨r, hr, -, hlt⟩
      have hstop := hbefore r hr
      omega
  | some first =>
    obtain ⟨hlt, hfirst⟩ := List.getElem?_eq_some_iff.1 hget
    rw [decide_eq_true_eq]
    constructor
    · intro hstart
      refine ⟨first, List.mem_of_getElem? hget, hstart, hafter first ?_⟩
      rw [List.drop_eq_getElem_cons hlt, hfirst]
      exact List.mem_cons_self
    · rintro ⟨r, hr, hstart, hstop⟩
      rw [← hparts, List.drop_eq_getElem_cons hlt, hfirst] at hr
      have hsorted := h.sorted
      rw [← hparts, List.drop_eq_getElem_cons hlt, hfirst] at hsorted
      obtain hr | hr := List.mem_append.1 hr
      · have hbound := hbefore r hr
        omega
      · obtain rfl | hr := List.mem_cons.1 hr
        · exact hstart
        · have hnext := (List.pairwise_cons.1 (List.pairwise_append.1 hsorted).2.1).1 r hr
          have hsize := h.sized first (List.mem_of_getElem? hget)
          omega

/-- Inserting what overlaps nothing. -/
theorem insertSorted_spec {acc : Accumulator} (h : Inv acc) {r : Region}
    (hsize : 0 < r.size ∧ r.stop = r.start + r.size) (hfree : ¬Overlaps acc r.start r.stop)
    (hbudget : acc.totalBytes + r.size ≤ MAX_TOTAL_BYTES) (hroom : acc.regions.length < MAX_REGIONS) :
    ∃ acc', (∀ A : Arith, A.Exact → insertSorted A acc r = some acc') ∧ Inv acc' ∧
      ∀ r', r' ∈ acc'.regions ↔ r' = r ∨ r' ∈ acc.regions := by
  obtain ⟨hle, hbefore, hafter⟩ := findFirstAfter_spec h r.start
  have hparts := List.take_append_drop (findFirstAfter acc r.start) acc.regions
  have hword : acc.totalBytes + r.size < wordCount := by
    rw [wordCount_eq]
    unfold MAX_TOTAL_BYTES at hbudget
    omega
  have hmem : ∀ r', r' ∈ acc.regions.take (findFirstAfter acc r.start) ++ r :: acc.regions.drop (findFirstAfter acc r.start) ↔
      r' = r ∨ r' ∈ acc.regions := by
    intro r'
    conv_rhs => rw [← hparts]
    simp only [List.mem_append, List.mem_cons]
    tauto
  refine ⟨⟨acc.regions.take (findFirstAfter acc r.start) ++ r :: acc.regions.drop (findFirstAfter acc r.start),
    acc.totalBytes + r.size⟩, ?_, ?_, hmem⟩
  · intro A hA
    unfold insertSorted
    simp only [hA.add hword, bind, Option.bind_some]
  · refine ⟨?_, ?_, ?_, hbudget, ?_⟩
    · have hsorted := h.sorted
      rw [← hparts, List.pairwise_append] at hsorted
      refine List.pairwise_append.2 ⟨hsorted.1, List.pairwise_cons.2 ⟨?_, hsorted.2.1⟩, ?_⟩
      · intro r' hr'
        -- it ends behind the new region and does not overlap it
        have hstop := hafter r' hr'
        by_contra hlt
        exact hfree ⟨r', List.mem_of_mem_drop hr', by omega, hstop⟩
      · intro a ha b hb
        obtain rfl | hb := List.mem_cons.1 hb
        · exact hbefore a ha
        · exact hsorted.2.2 a ha b hb
    · intro r' hr'
      obtain rfl | hr' := (hmem r').1 hr'
      · exact hsize
      · exact h.sized r' hr'
    · have hsum := congrArg (fun l => (l.map fun r : Region => r.size).sum) hparts
      simp only [List.map_append, List.sum_append] at hsum
      simp only [h.total, List.map_append, List.map_cons, List.sum_append, List.sum_cons]
      omega
    · have hlen := congrArg List.length hparts
      simp only [List.length_append, List.length_cons] at hlen ⊢
      omega

/-! ## One candidate -/

/-- The mask rounds down to a page. -/
theorem maskPage_eq {x : Nat} (h : x < wordCount) : maskPage x = x / PAGE_SIZE * PAGE_SIZE := by
  have hmask : wordCount - PAGE_SIZE = 2 ^ 64 - (4095 + 1) := rfl
  apply Nat.eq_of_testBit_eq
  intro i
  unfold maskPage
  rw [hmask, Nat.testBit_and, Nat.testBit_two_pow_sub_succ (by decide), show PAGE_SIZE = 2 ^ 12 from rfl,
    Nat.testBit_mul_two_pow, Nat.testBit_div_two_pow, show 4095 = 2 ^ 12 - 1 from rfl, Nat.testBit_two_pow_sub_one]
  by_cases hlow : i < 12
  · simp [hlow]
  · by_cases hhigh : i < 64
    · simp [hlow, hhigh, Nat.le_of_not_lt hlow, Nat.sub_add_cancel (Nat.le_of_not_lt hlow)]
    · have hfalse : x.testBit i = false :=
        Nat.testBit_lt_two_pow (Nat.lt_of_lt_of_le h (Nat.pow_le_pow_right (n := 2) (by decide) (Nat.le_of_not_lt hhigh)))
      simp [hlow, hhigh, hfalse, Nat.sub_add_cancel (Nat.le_of_not_lt hlow)]

/-- The page that is captured for an address. -/
def pageStart (addr : Nat) : Nat := (addr - PER_POINTER_BYTES / 2) / PAGE_SIZE * PAGE_SIZE

/-- How much of it the budget allows. -/
def wanted (acc : Accumulator) : Nat := min PAGE_SIZE (MAX_TOTAL_BYTES - acc.totalBytes)

/-- The filters before the capture. -/
structure Passes (acc : Accumulator) (addr : Nat) (ops : IndirectOps) : Prop where
  room : acc.regions.length < MAX_REGIONS
  budget : acc.totalBytes < MAX_TOTAL_BYTES
  low : PAGE_SIZE ≤ addr
  high : addr < 2 ^ 56
  heap : ops.isWritableHeap addr = true

theorem centeredRange_eq {A : Arith} (hA : A.Exact) {addr : Nat} (hlow : PAGE_SIZE ≤ addr) (hhigh : addr < 2 ^ 56) :
    centeredRange A addr = some (pageStart addr, pageStart addr + PAGE_SIZE) := by
  have hword := wordCount_eq
  unfold PAGE_SIZE at hlow
  have hcentered : A.sub addr (PER_POINTER_BYTES / 2) = some (addr - PER_POINTER_BYTES / 2) :=
    hA.sub (by unfold PER_POINTER_BYTES; omega) (by omega)
  have hstart : maskPage (addr - PER_POINTER_BYTES / 2) = pageStart addr := maskPage_eq (by omega)
  have hle : pageStart addr ≤ addr := Nat.le_trans (Nat.div_mul_le_self _ _) (Nat.sub_le _ _)
  have hstop : maskPage (pageStart addr + PER_POINTER_BYTES + PAGE_SIZE - 1) = pageStart addr + PAGE_SIZE := by
    rw [maskPage_eq (by unfold PER_POINTER_BYTES PAGE_SIZE; omega)]
    unfold pageStart PER_POINTER_BYTES PAGE_SIZE
    omega
  unfold centeredRange
  simp only [hcentered, bind, Option.bind_some, hstart]
  rw [hA.add (by unfold PER_POINTER_BYTES; omega), Option.bind_some,
    hA.add (by unfold PER_POINTER_BYTES PAGE_SIZE; omega), Option.bind_some,
    hA.sub (by unfold PAGE_SIZE; omega) (by unfold PER_POINTER_BYTES PAGE_SIZE; omega), Option.bind_some, hstop]

theorem trimmedRange_eq {A : Arith} (hA : A.Exact) {acc : Accumulator} (hbudget : acc.totalBytes < MAX_TOTAL_BYTES)
    {start : Nat} (hstart : start < 2 ^ 56) :
    trimmedRange A acc start (start + PAGE_SIZE) = some (some (start + wanted acc, wanted acc)) := by
  have hword := wordCount_eq
  have hwant : A.sub (start + PAGE_SIZE) start = some PAGE_SIZE := by
    rw [hA.sub (by omega) (by unfold PAGE_SIZE; omega), Nat.add_sub_cancel_left]
  have hrem : A.sub MAX_TOTAL_BYTES acc.totalBytes = some (MAX_TOTAL_BYTES - acc.totalBytes) :=
    hA.sub (by omega) (by unfold MAX_TOTAL_BYTES; omega)
  unfold trimmedRange wanted
  simp only [hwant, hrem, bind, Option.bind_some]
  by_cases htrim : MAX_TOTAL_BYTES - acc.totalBytes < PAGE_SIZE
  · rw [if_pos htrim, hA.add (by unfold MAX_TOTAL_BYTES; omega), Option.bind_some, if_neg (by omega),
      hA.sub (by omega) (by unfold MAX_TOTAL_BYTES; omega), Option.bind_some, Nat.add_sub_cancel_left,
      Nat.min_eq_right (Nat.le_of_lt htrim)]
  · rw [if_neg htrim, Nat.min_eq_left (Nat.le_of_not_lt htrim)]

theorem consider_passes {A : Arith} (hA : A.Exact) {acc : Accumulator} {addr : Nat} {ops : IndirectOps}
    (h : Passes acc addr ops) (w : Writer) (buf : Bool) (first second : Option Nat) :
    consider A acc w addr ops buf first second =
      capture A acc w ops (pageStart addr) (pageStart addr + wanted acc) (wanted acc) buf first second := by
  have hle : pageStart addr ≤ addr := Nat.le_trans (Nat.div_mul_le_self _ _) (Nat.sub_le _ _)
  have hshift : addr >>> 56 = 0 := by
    rw [Nat.shiftRight_eq_div_pow]
    exact Nat.div_eq_of_lt h.high
  unfold consider
  rw [if_neg (Nat.not_le.2 h.room), if_neg (Nat.not_le.2 h.budget), if_neg (Nat.not_lt.2 h.low),
    if_neg (not_not.2 hshift), h.heap]
  simp only [Bool.not_true, Bool.false_eq_true, if_false, centeredRange_eq hA h.low h.high, bind, Option.bind_some,
    trimmedRange_eq hA h.budget (Nat.lt_of_le_of_lt hle h.high)]

theorem consider_filtered {acc : Accumulator} {addr : Nat} {ops : IndirectOps} (h : ¬Passes acc addr ops)
    (A : Arith) (w : Writer) (buf : Bool) (first second : Option Nat) :
    consider A acc w addr ops buf first second = some (acc, w) := by
  unfold consider
  split
  · rfl
  · split
    · rfl
    · split
      · rfl
      · split
        · rfl
        · split
          · rfl
          · rename_i hroom hbudget hlow hhigh hheap
            refine absurd ⟨by omega, by omega, by omega, ?_, by simpa using hheap⟩ h
            rw [not_not, Nat.shiftRight_eq_div_pow] at hhigh
            exact (Nat.div_eq_zero_iff_lt (by decide)).1 hhigh

/-- Reading returns no more than was asked for. -/
def ReadsAtMost (ops : IndirectOps) : Prop := ∀ addr len data, ops.readMemory addr len = some data → data.length ≤ len

/-- The whole range was read and written. -/
def Captured (acc : Accumulator) (w : Writer) (addr : Nat) (ops : IndirectOps) (buf : Bool) (first second : Option Nat) :
    Prop :=
  buf = true ∧ ∃ data, ops.readMemory (pageStart addr) (wanted acc) = some data ∧ data.length = wanted acc ∧
    (writeData w data first second).1 ≠ 0

/-- A candidate that passes the filters. -/
theorem capture_spec {acc : Accumulator} (h : Inv acc) {ops : IndirectOps} (hreads : ReadsAtMost ops) {addr : Nat}
    (hpass : Passes acc addr ops) (w : Writer) (buf : Bool) (first second : Option Nat) :
    ∃ out : Accumulator × Writer, (∀ A : Arith, A.Exact →
        capture A acc w ops (pageStart addr) (pageStart addr + wanted acc) (wanted acc) buf first second = some out) ∧
      Inv out.1 ∧ (∀ r ∈ acc.regions, r ∈ out.1.regions) ∧
      (Captured acc w addr ops buf first second → ¬Overlaps acc (pageStart addr) (pageStart addr + wanted acc) →
        ∃ rva size, ∀ r, r ∈ out.1.regions ↔
          r = ⟨pageStart addr, pageStart addr + wanted acc, rva, size⟩ ∨ r ∈ acc.regions) := by
  have hsame : ∀ w' : Writer, (¬Captured acc w addr ops buf first second ∨
      Overlaps acc (pageStart addr) (pageStart addr + wanted acc)) →
      Inv (acc, w').1 ∧ (∀ r ∈ acc.regions, r ∈ (acc, w').1.regions) ∧
      (Captured acc w addr ops buf first second → ¬Overlaps acc (pageStart addr) (pageStart addr + wanted acc) →
        ∃ rva size, ∀ r, r ∈ (acc, w').1.regions ↔
          r = ⟨pageStart addr, pageStart addr + wanted acc, rva, size⟩ ∨ r ∈ acc.regions) :=
    fun w' hno => ⟨h, fun _ hr => hr, fun hcap hfree => absurd hno (by simp [hcap, hfree])⟩
  unfold capture
  by_cases hover : overlapsExisting acc (pageStart addr) (pageStart addr + wanted acc) = true
  · refine ⟨(acc, w), fun A _ => by rw [if_pos hover], hsame w (Or.inr ((overlapsExisting_iff h).1 hover))⟩
  · have hfree : ¬Overlaps acc (pageStart addr) (pageStart addr + wanted acc) := (overlapsExisting_iff h).not.1 hover
    simp only [if_neg hover]
    cases buf with
    | false => exact ⟨(acc, w), fun A _ => rfl, hsame w (Or.inl (by simp [Captured]))⟩
    | true =>
      cases hread : ops.readMemory (pageStart addr) (wanted acc) with
      | none => exact ⟨(acc, w), fun A _ => rfl, hsame w (Or.inl (by simp [Captured, hread]))⟩
      | some data =>
        have hlen := hreads _ _ _ hread
        have hwanted : wanted acc ≤ PAGE_SIZE ∧ wanted acc ≤ MAX_TOTAL_BYTES - acc.totalBytes :=
          ⟨Nat.min_le_left _ _, Nat.min_le_right _ _⟩
        have hbudget := hpass.budget
        have hpos : 0 < wanted acc := Nat.lt_min.2 ⟨by decide, by omega⟩
        have hpage : PAGE_SIZE = 4096 := rfl
        simp only [if_true]
        by_cases hempty : data.length = 0
        · refine ⟨(acc, w), fun A _ => by rw [if_pos hempty], hsame w (Or.inl ?_)⟩
          rintro ⟨-, data', hread', hfull, -⟩
          rw [hread] at hread'
          cases hread'
          omega
        · simp only [if_neg hempty]
          by_cases hrva : (writeData w data first second).1 = 0
          · refine ⟨(acc, (writeData w data first second).2), fun A _ => by rw [if_pos hrva], hsame _ (Or.inl ?_)⟩
            rintro ⟨-, data', hread', -, hwrote⟩
            rw [hread] at hread'
            cases hread'
            exact hwrote hrva
          · have hmod : data.length % 2 ^ 32 = data.length := Nat.mod_eq_of_lt (by omega)
            have hle : pageStart addr ≤ addr := Nat.le_trans (Nat.div_mul_le_self _ _) (Nat.sub_le _ _)
            have hhigh := hpass.high
            have hword := wordCount_eq
            have hfree' : ¬Overlaps acc (pageStart addr) (pageStart addr + data.length) := by
              rintro ⟨r, hr, hstart, hstop⟩
              exact hfree ⟨r, hr, by omega, hstop⟩
            obtain ⟨acc', hins, hinv, hmem⟩ := insertSorted_spec h
              (r := ⟨pageStart addr, pageStart addr + data.length, (writeData w data first second).1, data.length⟩)
              ⟨by simp only; omega, rfl⟩ hfree' (by simp only; omega) hpass.room
            refine ⟨(acc', (writeData w data first second).2), ?_, hinv, fun r hr => (hmem r).2 (Or.inr hr), ?_⟩
            · intro A hA
              rw [if_neg hrva]
              simp only [hA.add (a := pageStart addr) (b := data.length) (by omega), bind, Option.bind_some, hmod,
                hins A hA]
            · rintro ⟨-, data', hread', hfull, -⟩ -
              rw [hread] at hread'
              cases hread'
              rw [hfull] at hmem
              exact ⟨_, _, hmem⟩

/-! ## Runs -/

/-- A word that is considered, with what its callbacks and writes do. -/
structure Candidate where
  addr : Nat
  ops : IndirectOps
  buf : Bool
  first : Option Nat
  second : Option Nat

def Candidate.consider (A : Arith) (c : Candidate) (acc : Accumulator) (w : Writer) : Option (Accumulator × Writer) :=
  Minidump.consider A acc w c.addr c.ops c.buf c.first c.second

def considerAll (A : Arith) : Accumulator → Writer → List Candidate → Option (Accumulator × Writer)
  | acc, w, [] => some (acc, w)
  | acc, w, c :: cs =>
    match c.consider A acc w with
    | none => none
    | some (acc, w) => considerAll A acc w cs

/-- The address lies in a region. -/
def Within (acc : Accumulator) (addr : Nat) : Prop := ∃ r ∈ acc.regions, r.start ≤ addr ∧ addr < r.stop

/-- The address lies far enough into its page, and not behind the end of the budget. -/
def InReach (acc : Accumulator) (addr : Nat) : Prop :=
  PER_POINTER_BYTES / 2 ≤ addr % PAGE_SIZE ∧ addr % PAGE_SIZE < MAX_TOTAL_BYTES - acc.totalBytes

/-- The captured page is the one of the address when that lies far enough into it. -/
theorem inReach_iff {acc : Accumulator} {addr : Nat} (hlow : PAGE_SIZE ≤ addr) :
    pageStart addr ≤ addr ∧ addr < pageStart addr + wanted acc ↔ InReach acc addr := by
  unfold InReach pageStart wanted PER_POINTER_BYTES PAGE_SIZE at *
  omega

/-- One candidate, computed without wrapping around. -/
theorem consider_spec {acc : Accumulator} (h : Inv acc) {c : Candidate} (hreads : ReadsAtMost c.ops) (w : Writer) :
    ∃ out : Accumulator × Writer, (∀ A : Arith, A.Exact → c.consider A acc w = some out) ∧ Inv out.1 ∧
      (Passes acc c.addr c.ops → Captured acc w c.addr c.ops c.buf c.first c.second →
        (Within out.1 c.addr ∨ Overlaps acc (pageStart c.addr) (pageStart c.addr + wanted acc) ↔
          InReach acc c.addr ∨ Within acc c.addr ∨ Overlaps acc (pageStart c.addr) (pageStart c.addr + wanted acc))) := by
  by_cases hpass : Passes acc c.addr c.ops
  · obtain ⟨out, hout, hinv, hkept, hcaptured⟩ := capture_spec h hreads hpass w c.buf c.first c.second
    refine ⟨out, fun A hA => (consider_passes hA hpass w c.buf c.first c.second).trans (hout A hA), hinv, ?_⟩
    intro _ hcap
    by_cases hover : Overlaps acc (pageStart c.addr) (pageStart c.addr + wanted acc)
    · simp [hover]
    · obtain ⟨rva, size, hmem⟩ := hcaptured hcap hover
      have hreach := @inReach_iff acc _ hpass.low
      simp only [hover, or_false, Within, hmem, or_and_right, exists_or, exists_eq_left, hreach]
  · exact ⟨(acc, w), fun A _ => consider_filtered hpass A w c.buf c.first c.second, h, fun hyes => absurd hyes hpass⟩

theorem considerAll_spec {A : Arith} (hA : A.Exact) {acc : Accumulator} (h : Inv acc) (w : Writer)
    {candidates : List Candidate} (hreads : ∀ c ∈ candidates, ReadsAtMost c.ops) :
    ∃ out : Accumulator × Writer, considerAll A acc w candidates = some out ∧ Inv out.1 := by
  induction candidates generalizing acc w with
  | nil => exact ⟨(acc, w), rfl, h⟩
  | cons c cs ih =>
    rw [List.forall_mem_cons] at hreads
    obtain ⟨out, hout, hinv, -⟩ := consider_spec h hreads.1 w
    unfold considerAll
    rw [hout A hA]
    exact ih hinv out.2 hreads.2

/-- In every run the regions are sorted, apart and within the caps, and nothing wraps around. A
candidate that was read and written in full is covered exactly when it lies far enough into its
page, and not behind the end of the budget, unless an earlier region has it or overlaps its page. -/
theorem indirect_capture (w : Writer) {candidates : List Candidate} (hreads : ∀ c ∈ candidates, ReadsAtMost c.ops) :
    ∃ acc w', considerAll .machine indirectInit w candidates = some (acc, w') ∧ Inv acc ∧
      ∀ c : Candidate, ReadsAtMost c.ops →
        c.consider .checked acc w' = c.consider .machine acc w' ∧
        ∃ acc' w'', c.consider .machine acc w' = some (acc', w'') ∧
          (Passes acc c.addr c.ops → Captured acc w' c.addr c.ops c.buf c.first c.second →
            (Within acc' c.addr ∨ Overlaps acc (pageStart c.addr) (pageStart c.addr + wanted acc) ↔
              InReach acc c.addr ∨ Within acc c.addr ∨
                Overlaps acc (pageStart c.addr) (pageStart c.addr + wanted acc))) := by
  obtain ⟨⟨acc, w'⟩, hrun, hinv⟩ := considerAll_spec Arith.machine_exact inv_indirectInit w hreads
  refine ⟨acc, w', hrun, hinv, ?_⟩
  intro c hc
  obtain ⟨⟨acc', w''⟩, hout, -, hcovered⟩ := consider_spec hinv hc w'
  rw [hout _ Arith.machine_exact, hout _ Arith.checked_exact]
  exact ⟨rfl, acc', w'', rfl, hcovered⟩

/-- Reading zeros. -/
def zeros : IndirectOps := ⟨fun _ => true, fun _ len => some (List.replicate len 0)⟩

theorem zeros_reads : ReadsAtMost zeros := by
  intro addr len data h
  cases h
  exact Nat.le_of_eq List.length_replicate

/-- A pointer into the middle of a page. -/
theorem indirect_capture_middle :
    (∀ c ∈ [(⟨0x2800, zeros, true, some 4096, none⟩ : Candidate)], ReadsAtMost c.ops) ∧
      ∃ acc w, considerAll .machine indirectInit ⟨[], 32, 32⟩ [⟨0x2800, zeros, true, some 4096, none⟩] = some (acc, w) ∧
        Inv acc := by
  have hreads : ∀ c ∈ [(⟨0x2800, zeros, true, some 4096, none⟩ : Candidate)], ReadsAtMost c.ops :=
    List.forall_mem_singleton.2 zeros_reads
  obtain ⟨acc, w, hrun, hinv, -⟩ := indirect_capture ⟨[], 32, 32⟩ hreads
  exact ⟨hreads, acc, w, hrun, hinv⟩

/-- The first candidate points to the start of a page: the page before it is captured. -/
theorem page_start_missed :
    Passes indirectInit 0x2000 zeros ∧ Captured indirectInit ⟨[], 32, 32⟩ 0x2000 zeros true (some 4096) none ∧
      ∃ acc w, consider .machine indirectInit ⟨[], 32, 32⟩ 0x2000 zeros true (some 4096) none = some (acc, w) ∧
        ¬Within acc 0x2000 ∧ ¬Within indirectInit 0x2000 ∧
        ¬Overlaps indirectInit (pageStart 0x2000) (pageStart 0x2000 + wanted indirectInit) := by
  have hpass : Passes indirectInit 0x2000 zeros := ⟨by decide, by decide, by decide, by decide, rfl⟩
  have hwant : wanted indirectInit = 4096 := by decide
  have hcap : Captured indirectInit ⟨[], 32, 32⟩ 0x2000 zeros true (some 4096) none := by
    refine ⟨rfl, List.replicate 4096 0, by rw [hwant]; rfl, by rw [List.length_replicate, hwant], ?_⟩
    obtain ⟨hsmall, -⟩ | ⟨z, k, -, -, -, hwrote⟩ :=
      writeData_cases ⟨[], 32, 32⟩ (List.replicate 4096 0) (some 4096) none
    · exact absurd (hsmall ⟨4096, rfl, by rw [List.length_replicate]⟩) (by decide)
    · rw [hwrote]
      exact show UInt32.ofNat 32 ≠ 0 by decide
  have hover : ¬Overlaps indirectInit (pageStart 0x2000) (pageStart 0x2000 + wanted indirectInit) := by
    simp [Overlaps, indirectInit]
  have hwithin : ¬Within indirectInit 0x2000 := by simp [Within, indirectInit]
  obtain ⟨⟨acc, w⟩, hout, -, hcovered⟩ := consider_spec (c := ⟨0x2000, zeros, true, some 4096, none⟩) inv_indirectInit
    zeros_reads ⟨[], 32, 32⟩
  refine ⟨hpass, hcap, acc, w, hout _ Arith.machine_exact, ?_, hwithin, hover⟩
  intro hyes
  obtain hreach | hin | hin := (hcovered hpass hcap).1 (Or.inl hyes)
  · exact absurd hreach.1 (by decide)
  · exact hwithin hin
  · exact hover hin

end SentryNative.Minidump
