import Mathlib.Algebra.BigOperators.Ring.List
import Mathlib.Algebra.Ring.Nat
import SentryNative.Lib.Addresses

/-!
# The page allocator

`sentry_unix_pageallocator.c`: inside of signal handlers, memory is cut from anonymously mapped
pages and never given back. Calls are serialised by a lock, so a run is a list of calls.

* `Inv`: the window of the current page is the unused rest of a mapped range;
* `alloc_spec`: one call keeps the invariant, in any arithmetic that is exact on words;
* `page_allocator_blocks`: what holds of every run.
-/

namespace SentryNative.Alloc

open CLib

def ALIGN : Nat := 8

def SIZE_MAX : Nat := wordCount - 1

/-- `sizeof(struct page_header)` -/
def headerSize : Nat := 16

/-- `struct page_header`, with its address. -/
structure PageHeader where
  base : Nat
  numPages : Nat
  deriving DecidableEq, Repr

/-- `struct page_allocator_s`; the headers are linked from the last page on. -/
structure PageAllocator where
  pageSize : Nat
  lastPage : List PageHeader
  currentPage : Option Nat
  pageOffset : Nat
  pagesAllocated : Nat
  deriving DecidableEq, Repr

/-- `sentry__page_allocator_enable` -/
def enable (pageSize : Nat) : PageAllocator := ⟨pageSize, [], none, 0, 0⟩

/-- `get_pages`; `mmap` maps a length to the address of the pages, or fails. -/
def getPages (A : Arith) (g : PageAllocator) (numPages : Nat) (mmap : Nat → Option Nat) :
    Option (Option Nat × PageAllocator) := do
  let length ← A.mul g.pageSize numPages
  match mmap length with
  | none => some (none, g)
  | some rv =>
    let pagesAllocated ← A.add g.pagesAllocated numPages
    some (some rv, { g with lastPage := ⟨rv, numPages⟩ :: g.lastPage, pagesAllocated := pagesAllocated })

/-- The current page is large enough. -/
def allocCurrent (A : Arith) (g : PageAllocator) (currentPage size : Nat) : Option (Option Nat × PageAllocator) := do
  let rv ← A.add currentPage g.pageOffset
  let pageOffset ← A.add g.pageOffset size
  if pageOffset = g.pageSize then some (some rv, { g with pageOffset := 0, currentPage := none })
  else some (some rv, { g with pageOffset := pageOffset })

/-- The page that a range of pages ends with. -/
def rebase (A : Arith) (g : PageAllocator) (rv pages pageOffset : Nat) : Option (Option Nat) :=
  if pageOffset ≠ 0 then do
    let before ← A.sub pages 1
    let bytes ← A.mul g.pageSize before
    let currentPage ← A.add rv bytes
    some (some currentPage)
  else some none

/-- New pages are allocated. -/
def allocNew (A : Arith) (g : PageAllocator) (size : Nat) (mmap : Nat → Option Nat) :
    Option (Option Nat × PageAllocator) := do
  let requestedSize ← A.add size headerSize
  let rounded ← (A.add requestedSize g.pageSize).bind fun s => A.sub s 1
  let pages := rounded / g.pageSize
  let actualSize ← A.mul g.pageSize pages
  let (rv, g) ← getPages A g pages mmap
  match rv with
  | none => some (none, g)
  | some rv =>
    let diff ← A.sub actualSize requestedSize
    let rest ← A.sub g.pageSize diff
    let pageOffset := rest % g.pageSize
    let currentPage ← rebase A g rv pages pageOffset
    let result ← A.add rv headerSize
    some (some result, { g with pageOffset := pageOffset, currentPage := currentPage })

/-- What is done under the lock. -/
def allocLocked (A : Arith) (g : PageAllocator) (size : Nat) (mmap : Nat → Option Nat) :
    Option (Option Nat × PageAllocator) :=
  match g.currentPage with
  | none => allocNew A g size mmap
  | some currentPage => do
    let room ← A.sub g.pageSize g.pageOffset
    if size ≤ room then allocCurrent A g currentPage size else allocNew A g size mmap

/-- `sentry__page_allocator_alloc`: null or an address, and the allocator after the call. -/
def alloc (A : Arith) (g : PageAllocator) (size : Nat) (mmap : Nat → Option Nat) :
    Option (Option Nat × PageAllocator) :=
  if size = 0 then some (none, g)
  else do
    let padding ← A.sub ALIGN (size % ALIGN)
    let limit ← A.sub SIZE_MAX padding
    if limit < size then some (none, g)
    else do
      let size ← A.add size padding
      let limit ← A.sub SIZE_MAX headerSize
      if limit < size then some (none, g)
      else do
        let withHeader ← A.add size headerSize
        let limit ← (A.sub SIZE_MAX g.pageSize).bind fun s => A.add s 1
        if limit < withHeader then some (none, g) else allocLocked A g size mmap

/-! ## The invariant -/

/-- The bytes of a range. -/
def PageHeader.size (h : PageHeader) (pageSize : Nat) : Nat := pageSize * h.numPages

/-- A block that was handed out, with the size that was asked for. -/
structure Block where
  addr : Nat
  size : Nat
  deriving DecidableEq, Repr

/-- What `mmap` may return: pages that start at a page and lie apart from those mapped before. -/
def Fresh (g : PageAllocator) (mmap : Nat → Option Nat) : Prop :=
  ∀ length base, mmap length = some base →
    0 < base ∧ g.pageSize ∣ base ∧ base + length ≤ wordCount ∧
      ∀ h ∈ g.lastPage, Apart base length h.base (h.size g.pageSize)

/-- The block lies in one mapped range, after its header. -/
def Inside (g : PageAllocator) (b : Block) : Prop :=
  ∃ h ∈ g.lastPage, h.base + headerSize ≤ b.addr ∧ b.addr + b.size ≤ h.base + h.size g.pageSize

/-- The unused rest of the current page. -/
structure Window (g : PageAllocator) (blocks : List Block) (page : Nat) : Prop where
  offset_pos : 0 < g.pageOffset
  offset_lt : g.pageOffset < g.pageSize
  aligned : ALIGN ∣ page + g.pageOffset
  inside : ∃ h ∈ g.lastPage, h.base + headerSize ≤ page + g.pageOffset ∧
    page + g.pageSize = h.base + h.size g.pageSize
  unused : ∀ b ∈ blocks, Apart b.addr b.size (page + g.pageOffset) (g.pageSize - g.pageOffset)

structure Inv (g : PageAllocator) (blocks : List Block) : Prop where
  pageSize : ∃ k, 6 ≤ k ∧ k < 64 ∧ g.pageSize = 2 ^ k
  mapped : ∀ h ∈ g.lastPage, 0 < h.base ∧ g.pageSize ∣ h.base ∧ h.base + h.size g.pageSize ≤ wordCount
  room : ∀ h ∈ g.lastPage, headerSize ≤ h.size g.pageSize
  apart : g.lastPage.Pairwise fun h h' => Apart h.base (h.size g.pageSize) h'.base (h'.size g.pageSize)
  counted : g.pagesAllocated = (g.lastPage.map (·.numPages)).sum
  blocks_aligned : ∀ b ∈ blocks, ALIGN ∣ b.addr
  blocks_inside : ∀ b ∈ blocks, Inside g b
  blocks_apart : blocks.Pairwise fun b b' => Apart b.addr b.size b'.addr b'.size
  window : ∀ page, g.currentPage = some page → Window g blocks page

theorem inv_enable {k : Nat} (hk : 6 ≤ k ∧ k < 64) : Inv (enable (2 ^ k)) [] where
  pageSize := ⟨k, hk.1, hk.2, rfl⟩
  mapped := by simp [enable]
  room := by simp [enable]
  apart := List.Pairwise.nil
  counted := rfl
  blocks_aligned := by simp
  blocks_inside := by simp
  blocks_apart := List.Pairwise.nil
  window := by simp [enable]

section

variable {g : PageAllocator} {blocks : List Block}

theorem Inv.pageSize_bounds (h : Inv g blocks) : 64 ≤ g.pageSize ∧ g.pageSize < wordCount ∧ 64 ∣ g.pageSize := by
  obtain ⟨k, hle, hlt, hpow⟩ := h.pageSize
  rw [hpow]
  exact ⟨Nat.pow_le_pow_right (n := 2) (by decide) hle, Nat.pow_lt_pow_right (by decide) hlt, Nat.pow_dvd_pow 2 hle⟩

/-- The pages of all ranges fit in the address space. -/
theorem Inv.pages_le (h : Inv g blocks) : g.pageSize * g.pagesAllocated ≤ wordCount := by
  have hsum : ((g.lastPage.map fun h => (h.base, h.size g.pageSize)).map (·.2)).sum ≤ wordCount := by
    apply sum_le_of_apart
    · exact List.pairwise_map.2 h.apart
    · intro r hr
      obtain ⟨hd, hmem, rfl⟩ := List.mem_map.1 hr
      exact (h.mapped hd hmem).2.2
  rw [List.map_map] at hsum
  rw [h.counted]
  calc g.pageSize * (g.lastPage.map (·.numPages)).sum
      = (g.lastPage.map fun h => h.size g.pageSize).sum :=
        (List.sum_map_mul_left g.lastPage (fun h => h.numPages) g.pageSize).symm
    _ ≤ wordCount := hsum

/-- A block lies apart from every header. -/
theorem Inv.header_apart (h : Inv g blocks) {b : Block} (hb : b ∈ blocks) {hd : PageHeader}
    (hmem : hd ∈ g.lastPage) : Apart b.addr b.size hd.base headerSize := by
  have hroom := h.room hd hmem
  obtain ⟨own, hown, hstart, hend⟩ := h.blocks_inside b hb
  by_cases heq : hd = own
  · subst heq
    exact Or.inr hstart
  · have : Std.Symm fun h h' : PageHeader => Apart h.base (h.size g.pageSize) h'.base (h'.size g.pageSize) :=
      ⟨fun _ _ hab => hab.symm⟩
    have hapart : Apart own.base (own.size g.pageSize) hd.base (hd.size g.pageSize) :=
      h.apart.forall hown hmem (Ne.symm heq)
    exact hapart.within ⟨by omega, by omega⟩ ⟨Nat.le_refl _, by omega⟩

/-! ## One call -/

/-- The size after padding. -/
def padded (size : Nat) : Nat := size + (ALIGN - size % ALIGN)

theorem padded_spec (size : Nat) : ALIGN ∣ padded size ∧ size < padded size := by
  unfold padded ALIGN
  omega

/-- The guards: what reaches the lock can be rounded up to pages. -/
theorem alloc_padded {A : Arith} (hA : A.Exact) {size : Nat} (hpage : 0 < g.pageSize ∧ g.pageSize < wordCount)
    (hzero : size ≠ 0) (hsize : size < wordCount) (mmap : Nat → Option Nat) :
    alloc A g size mmap =
      if padded size + headerSize + g.pageSize ≤ wordCount then allocLocked A g (padded size) mmap
      else some (none, g) := by
  have hword := wordCount_eq
  have hpad : A.sub ALIGN (size % ALIGN) = some (ALIGN - size % ALIGN) :=
    hA.sub (by unfold ALIGN; omega) (by unfold ALIGN; omega)
  have hlimit : A.sub SIZE_MAX (ALIGN - size % ALIGN) = some (SIZE_MAX - (ALIGN - size % ALIGN)) :=
    hA.sub (by unfold ALIGN SIZE_MAX; omega) (by unfold SIZE_MAX; omega)
  have hheader : A.sub SIZE_MAX headerSize = some (SIZE_MAX - headerSize) :=
    hA.sub (by unfold headerSize SIZE_MAX; omega) (by unfold SIZE_MAX; omega)
  have hpages : ((A.sub SIZE_MAX g.pageSize).bind fun s => A.add s 1) = some (SIZE_MAX - g.pageSize + 1) := by
    rw [hA.sub (by unfold SIZE_MAX; omega) (by unfold SIZE_MAX; omega), Option.bind_some]
    exact hA.add (by unfold SIZE_MAX; omega)
  unfold alloc
  simp only [if_neg hzero, hpad, hlimit, hheader, hpages, bind, Option.bind_some]
  split
  · rw [if_neg (by unfold padded SIZE_MAX headerSize at *; omega)]
  · have hsum : A.add size (ALIGN - size % ALIGN) = some (padded size) :=
      hA.add (by unfold SIZE_MAX at *; omega)
    rw [hsum, Option.bind_some]
    split
    · rw [if_neg (by unfold SIZE_MAX headerSize at *; omega)]
    · rw [hA.add (by unfold SIZE_MAX headerSize at *; omega), Option.bind_some]
      split
      · rw [if_neg (by unfold SIZE_MAX headerSize at *; omega)]
      · rw [if_pos (by unfold SIZE_MAX headerSize at *; omega)]

/-- Rounding up to pages. -/
theorem rounded_spec (page req : Nat) (hpage : 0 < page) (hreq : 0 < req) :
    req ≤ page * ((req + page - 1) / page) ∧ page * ((req + page - 1) / page) < req + page ∧
      1 ≤ (req + page - 1) / page := by
  have hle := Nat.mul_div_le (req + page - 1) page
  have hlt := Nat.lt_mul_div_succ (req + page - 1) hpage
  rw [Nat.mul_add, Nat.mul_one] at hlt
  have hone : 1 ≤ (req + page - 1) / page := (Nat.one_le_div_iff hpage).2 (by omega)
  exact ⟨by omega, by omega, hone⟩

/-- The call after it was served from the current page. -/
def servedCurrent (g : PageAllocator) (page size : Nat) : Option Nat × PageAllocator :=
  (some (page + g.pageOffset),
    if g.pageOffset + size = g.pageSize then { g with pageOffset := 0, currentPage := none }
    else { g with pageOffset := g.pageOffset + size })

theorem allocCurrent_eq {A : Arith} (hA : A.Exact) (h : Inv g blocks) {page : Nat} (hwin : Window g blocks page)
    {size : Nat} (hroom : size ≤ g.pageSize - g.pageOffset) :
    allocCurrent A g page size = some (servedCurrent g page size) := by
  have hpage := h.pageSize_bounds
  have hoff := hwin.offset_lt
  obtain ⟨hd, hmem, -, hend⟩ := hwin.inside
  have hword := (h.mapped hd hmem).2.2
  unfold allocCurrent servedCurrent
  simp only [hA.add (a := page) (b := g.pageOffset) (by omega), hA.add (a := g.pageOffset) (b := size) (by omega), bind,
    Option.bind_some]
  split <;> rfl

theorem servedCurrent_inv (h : Inv g blocks) {page size need : Nat} (hcur : g.currentPage = some page)
    (hneed : ALIGN ∣ need ∧ size < need) (hroom : need ≤ g.pageSize - g.pageOffset) :
    Inv (servedCurrent g page need).2 (⟨page + g.pageOffset, size⟩ :: blocks) := by
  have hwin := h.window page hcur
  have hoff := hwin.offset_lt
  -- only the window moves
  obtain ⟨page', off', hserved, hmoved⟩ : ∃ page' off',
      (servedCurrent g page need).2 = { g with currentPage := page', pageOffset := off' } ∧
        ∀ p, page' = some p → g.pageOffset + need ≠ g.pageSize ∧ p = page ∧ off' = g.pageOffset + need := by
    unfold servedCurrent
    split
    · exact ⟨none, 0, rfl, by simp⟩
    · rename_i hne
      refine ⟨g.currentPage, g.pageOffset + need, rfl, ?_⟩
      intro p hp
      rw [hcur, Option.some.injEq] at hp
      exact ⟨hne, hp.symm, rfl⟩
  rw [hserved]
  refine ⟨h.pageSize, h.mapped, h.room, h.apart, h.counted, ?_, ?_, ?_, ?_⟩
  · rw [List.forall_mem_cons]
    exact ⟨hwin.aligned, h.blocks_aligned⟩
  · rw [List.forall_mem_cons]
    refine ⟨?_, h.blocks_inside⟩
    obtain ⟨hd, hmem, hstart, hend⟩ := hwin.inside
    exact ⟨hd, hmem, hstart, by simp only; omega⟩
  · refine List.pairwise_cons.2 ⟨?_, h.blocks_apart⟩
    intro b hb
    exact (hwin.unused b hb).symm.within ⟨Nat.le_refl _, by simp only; omega⟩ ⟨Nat.le_refl _, Nat.le_refl _⟩
  · intro p hp
    obtain ⟨hne, rfl, rfl⟩ := hmoved p hp
    have hpos := hwin.offset_pos
    refine ⟨by simp only; omega, by simp only; omega, ?_, ?_, ?_⟩
    · have haligned := Nat.dvd_add hwin.aligned hneed.1
      rwa [Nat.add_assoc] at haligned
    · obtain ⟨hd, hmem, hstart, hend⟩ := hwin.inside
      exact ⟨hd, hmem, by simp only; omega, hend⟩
    · rw [List.forall_mem_cons]
      constructor
      · exact Or.inl (by simp only; omega)
      · intro b hb
        exact (hwin.unused b hb).within ⟨Nat.le_refl _, Nat.le_refl _⟩ ⟨by simp only; omega, by simp only; omega⟩

/-- The pages that a size with its header is rounded up to. -/
def pagesFor (g : PageAllocator) (size : Nat) : Nat := (size + headerSize + g.pageSize - 1) / g.pageSize

/-- The call after it was served from new pages, or not at all. -/
def servedNew (g : PageAllocator) (size : Nat) (mmap : Nat → Option Nat) : Option Nat × PageAllocator :=
  match mmap (g.pageSize * pagesFor g size) with
  | none => (none, g)
  | some rv =>
    let pageOffset := (g.pageSize - (g.pageSize * pagesFor g size - (size + headerSize))) % g.pageSize
    (some (rv + headerSize),
      { g with lastPage := ⟨rv, pagesFor g size⟩ :: g.lastPage
               pagesAllocated := g.pagesAllocated + pagesFor g size
               pageOffset := pageOffset
               currentPage := if pageOffset ≠ 0 then some (rv + g.pageSize * (pagesFor g size - 1)) else none })

/-- The rounded sum is computed exactly. -/
def RoundsUp (A : Arith) (g : PageAllocator) (size : Nat) : Prop :=
  ((A.add (size + headerSize) g.pageSize).bind fun s => A.sub s 1) = some (size + headerSize + g.pageSize - 1)

theorem Inv.fresh_header (h : Inv g blocks) {mmap : Nat → Option Nat} (hfresh : Fresh g mmap) {rv pages : Nat}
    (hmap : mmap (g.pageSize * pages) = some rv) (hroom : headerSize ≤ g.pageSize * pages) :
    Inv { g with lastPage := ⟨rv, pages⟩ :: g.lastPage, pagesAllocated := g.pagesAllocated + pages
                 currentPage := none } blocks := by
  obtain ⟨hpos, hdvd, hend, hapart⟩ := hfresh _ rv hmap
  refine ⟨h.pageSize, ?_, ?_, ?_, ?_, h.blocks_aligned, ?_, h.blocks_apart, by simp⟩
  · rw [List.forall_mem_cons]
    exact ⟨⟨hpos, hdvd, hend⟩, h.mapped⟩
  · rw [List.forall_mem_cons]
    exact ⟨hroom, h.room⟩
  · exact List.pairwise_cons.2 ⟨hapart, h.apart⟩
  · simp only [List.map_cons, List.sum_cons, h.counted]
    exact Nat.add_comm _ _
  · intro b hb
    obtain ⟨hd, hmem, hin⟩ := h.blocks_inside b hb
    exact ⟨hd, List.mem_cons_of_mem _ hmem, hin⟩

theorem allocNew_eq {A : Arith} (hA : A.Exact) (h : Inv g blocks) {mmap : Nat → Option Nat} (hfresh : Fresh g mmap)
    {size : Nat} (hsize : size + headerSize + g.pageSize ≤ wordCount) (hround : RoundsUp A g size) :
    allocNew A g size mmap = some (servedNew g size mmap) := by
  obtain ⟨hpage, hword, -⟩ := h.pageSize_bounds
  obtain ⟨hreq, hlt, hone⟩ := rounded_spec g.pageSize (size + headerSize) (by omega)
    (by unfold headerSize; omega)
  have hcount : (size + headerSize + g.pageSize - 1) / g.pageSize = pagesFor g size := rfl
  rw [hcount] at hreq hlt hone
  have hmul : A.mul g.pageSize (pagesFor g size) = some (g.pageSize * pagesFor g size) := hA.mul (by omega)
  unfold allocNew servedNew getPages
  unfold RoundsUp at hround
  simp only [hA.add (a := size) (b := headerSize) (by omega), hround, hcount, hmul, bind, Option.bind_some]
  cases hmap : mmap (g.pageSize * pagesFor g size) with
  | none => rfl
  | some rv =>
    -- the counter is bounded by the address space, the new pages included
    have hpages := (h.fresh_header hfresh hmap (by omega)).pages_le
    have hend := (hfresh _ rv hmap).2.2.1
    have hcounter : g.pagesAllocated + pagesFor g size < wordCount := by
      have hle := Nat.mul_le_mul_right (g.pagesAllocated + pagesFor g size) hpage
      simp only at hpages
      omega
    have hfull : g.pageSize ≤ g.pageSize * pagesFor g size := Nat.le_mul_of_pos_right _ hone
    have hbefore : g.pageSize * (pagesFor g size - 1) = g.pageSize * pagesFor g size - g.pageSize := by
      rw [Nat.mul_sub, Nat.mul_one]
    simp only [hA.add hcounter, Option.bind_some, hA.sub hreq (by omega),
      hA.sub (a := g.pageSize) (b := g.pageSize * pagesFor g size - (size + headerSize)) (by omega) (by omega), rebase]
    split
    · simp only [hA.sub hone (by omega), hA.mul (a := g.pageSize) (b := pagesFor g size - 1) (by omega),
        hA.add (a := rv) (b := g.pageSize * (pagesFor g size - 1)) (by omega),
        hA.add (a := rv) (b := headerSize) (by unfold headerSize at *; omega), bind, Option.bind_some]
    · simp only [hA.add (a := rv) (b := headerSize) (by unfold headerSize at *; omega), Option.bind_some]

theorem servedNew_inv (h : Inv g blocks) {mmap : Nat → Option Nat} (hfresh : Fresh g mmap) {size need rv : Nat}
    (hneed : ALIGN ∣ need ∧ size < need) (hmap : mmap (g.pageSize * pagesFor g need) = some rv) :
    Inv (servedNew g need mmap).2 (⟨rv + headerSize, size⟩ :: blocks) := by
  obtain ⟨hpage, hword, hdvd⟩ := h.pageSize_bounds
  obtain ⟨hreq, hlt, hone⟩ := rounded_spec g.pageSize (need + headerSize) (by omega)
    (by unfold headerSize; omega)
  have hcount : (need + headerSize + g.pageSize - 1) / g.pageSize = pagesFor g need := rfl
  rw [hcount] at hreq hlt hone
  obtain ⟨-, hbase, hend, hapart⟩ := hfresh _ rv hmap
  have hheader := h.fresh_header hfresh hmap (by omega)
  have halign : ALIGN ∣ rv + headerSize :=
    Nat.dvd_add (Nat.dvd_trans (Nat.dvd_trans (by decide) hdvd) hbase) (by decide)
  unfold servedNew
  simp only [hmap]
  refine ⟨h.pageSize, hheader.mapped, hheader.room, hheader.apart, hheader.counted, ?_, ?_, ?_, ?_⟩
  · rw [List.forall_mem_cons]
    exact ⟨halign, h.blocks_aligned⟩
  · rw [List.forall_mem_cons]
    refine ⟨⟨_, List.mem_cons_self, Nat.le_refl _, ?_⟩, hheader.blocks_inside⟩
    simp only [PageHeader.size]
    omega
  · refine List.pairwise_cons.2 ⟨?_, h.blocks_apart⟩
    intro b hb
    obtain ⟨hd, hmem, hstart, hstop⟩ := h.blocks_inside b hb
    exact (hapart hd hmem).within ⟨by simp only; omega, by simp only; omega⟩ ⟨by omega, hstop⟩
  · intro page hcur
    split at hcur
    · rename_i hrest
      cases hcur
      -- a page is not full, so what is left of it starts right behind the request
      have hoff : (g.pageSize - (g.pageSize * pagesFor g need - (need + headerSize))) % g.pageSize =
          g.pageSize - (g.pageSize * pagesFor g need - (need + headerSize)) := by
        apply Nat.mod_eq_of_lt
        by_contra hge
        apply hrest
        rw [show g.pageSize * pagesFor g need - (need + headerSize) = 0 by omega, Nat.sub_zero, Nat.mod_self]
      have hfull : g.pageSize ≤ g.pageSize * pagesFor g need := Nat.le_mul_of_pos_right _ hone
      have hbefore : g.pageSize * (pagesFor g need - 1) = g.pageSize * pagesFor g need - g.pageSize := by
        rw [Nat.mul_sub, Nat.mul_one]
      have hplace : rv + g.pageSize * (pagesFor g need - 1) +
          (g.pageSize - (g.pageSize * pagesFor g need - (need + headerSize))) = rv + headerSize + need := by omega
      rw [hoff] at hrest ⊢
      refine ⟨Nat.pos_of_ne_zero hrest, ?_, ?_, ⟨_, List.mem_cons_self, ?_, ?_⟩, ?_⟩
      · simp only
        rw [← hoff]
        exact Nat.mod_lt _ (by omega)
      · simp only [hplace]
        exact Nat.dvd_add halign hneed.1
      · simp only [hplace]
        omega
      · simp only [PageHeader.size]
        omega
      · rw [List.forall_mem_cons]
        simp only [hplace]
        constructor
        · exact Or.inl (by omega)
        · intro b hb
          obtain ⟨hd, hmem, hstart, hstop⟩ := h.blocks_inside b hb
          exact (hapart hd hmem).symm.within ⟨by omega, hstop⟩ ⟨by omega, by omega⟩
    · cases hcur

/-- What a call comes to, computed without an error. -/
def served (g : PageAllocator) (size : Nat) (mmap : Nat → Option Nat) : Option Nat × PageAllocator :=
  if size ≠ 0 ∧ padded size + headerSize + g.pageSize ≤ wordCount then
    match g.currentPage with
    | none => servedNew g (padded size) mmap
    | some page =>
      if padded size ≤ g.pageSize - g.pageOffset then servedCurrent g page (padded size)
      else servedNew g (padded size) mmap
  else (none, g)

theorem alloc_eq {A : Arith} (hA : A.Exact) (h : Inv g blocks) {mmap : Nat → Option Nat} (hfresh : Fresh g mmap)
    {size : Nat} (hsize : size < wordCount)
    (hround : padded size + headerSize + g.pageSize ≤ wordCount → RoundsUp A g (padded size)) :
    alloc A g size mmap = some (served g size mmap) := by
  obtain ⟨hpage, hword, -⟩ := h.pageSize_bounds
  unfold served
  by_cases hzero : size = 0
  · rw [if_neg fun hboth => hboth.1 hzero]
    exact if_pos hzero
  · rw [alloc_padded hA ⟨by omega, hword⟩ hzero hsize]
    by_cases hfits : padded size + headerSize + g.pageSize ≤ wordCount
    · rw [if_pos hfits, if_pos ⟨hzero, hfits⟩]
      unfold allocLocked
      cases hcur : g.currentPage with
      | none => exact allocNew_eq hA h hfresh hfits (hround hfits)
      | some page =>
        have hwin := h.window page hcur
        have hoff := hwin.offset_lt
        simp only [hA.sub (Nat.le_of_lt hoff) hword, bind, Option.bind_some]
        split
        · rename_i hroom
          exact allocCurrent_eq hA h hwin hroom
        · exact allocNew_eq hA h hfresh hfits (hround hfits)
    · rw [if_neg hfits, if_neg fun hboth => hfits hboth.2]

/-- A call hands out a block, or returns null and changes nothing. -/
theorem served_spec (h : Inv g blocks) {mmap : Nat → Option Nat} (hfresh : Fresh g mmap) (size : Nat) :
    served g size mmap = (none, g) ∨
      ∃ addr, (served g size mmap).1 = some addr ∧ 0 < size ∧ Inv (served g size mmap).2 (⟨addr, size⟩ :: blocks) := by
  have hnew : ∀ need, ALIGN ∣ need ∧ size < need → servedNew g need mmap = (none, g) ∨
      ∃ addr, (servedNew g need mmap).1 = some addr ∧ Inv (servedNew g need mmap).2 (⟨addr, size⟩ :: blocks) := by
    intro need hneed
    cases hmap : mmap (g.pageSize * pagesFor g need) with
    | none =>
      left
      unfold servedNew
      rw [hmap]
    | some rv =>
      right
      refine ⟨rv + headerSize, ?_, servedNew_inv h hfresh hneed hmap⟩
      unfold servedNew
      rw [hmap]
  unfold served
  by_cases hgo : size ≠ 0 ∧ padded size + headerSize + g.pageSize ≤ wordCount
  · rw [if_pos hgo]
    have hpos := Nat.pos_of_ne_zero hgo.1
    cases hcur : g.currentPage with
    | none =>
      obtain hnull | ⟨addr, haddr, hinv⟩ := hnew _ (padded_spec size)
      · exact Or.inl hnull
      · exact Or.inr ⟨addr, haddr, hpos, hinv⟩
    | some page =>
      dsimp only
      split
      · rename_i hroom
        exact Or.inr ⟨_, rfl, hpos, servedCurrent_inv h hcur (padded_spec size) hroom⟩
      · obtain hnull | ⟨addr, haddr, hinv⟩ := hnew _ (padded_spec size)
        · exact Or.inl hnull
        · exact Or.inr ⟨addr, haddr, hpos, hinv⟩
  · rw [if_neg hgo]
    exact Or.inl rfl

end

/-! ## Runs -/

/-- A request, with what `mmap` does if it is called. -/
structure Call where
  size : Nat
  mmap : Nat → Option Nat

/-- The calls of a run, with the blocks that were handed out. -/
def run : PageAllocator → List Block → List Call → Option (List Block × PageAllocator)
  | g, blocks, [] => some (blocks, g)
  | g, blocks, c :: calls =>
    match alloc .machine g c.size c.mmap with
    | none => none
    | some (none, g) => run g blocks calls
    | some (some addr, g) => run g (⟨addr, c.size⟩ :: blocks) calls

/-- Sizes are words, and `mmap` returns fresh pages. -/
def Fair : PageAllocator → List Call → Prop
  | _, [] => True
  | g, c :: calls => c.size < wordCount ∧ Fresh g c.mmap ∧
    ∀ out ∈ alloc .machine g c.size c.mmap, Fair out.2 calls

theorem roundsUp_machine {g : PageAllocator} {size : Nat} (h : size + headerSize + g.pageSize ≤ wordCount) :
    RoundsUp .machine g size :=
  Arith.machine_add_sub_one (by unfold headerSize; omega) h

theorem roundsUp_checked {g : PageAllocator} {size : Nat} (h : size + headerSize + g.pageSize < wordCount) :
    RoundsUp .checked g size := by
  unfold RoundsUp
  rw [Arith.checked_exact.add h, Option.bind_some]
  exact Arith.checked_exact.sub (by unfold headerSize; omega) h

theorem machine_served {g : PageAllocator} {blocks : List Block} (h : Inv g blocks) {c : Call}
    (hsize : c.size < wordCount) (hfresh : Fresh g c.mmap) :
    alloc .machine g c.size c.mmap = some (served g c.size c.mmap) :=
  alloc_eq Arith.machine_exact h hfresh hsize roundsUp_machine

theorem run_inv {g : PageAllocator} {blocks : List Block} (h : Inv g blocks) {calls : List Call} (hfair : Fair g calls) :
    ∃ blocks' g', run g blocks calls = some (blocks', g') ∧ Inv g' blocks' := by
  induction calls generalizing g blocks with
  | nil => exact ⟨blocks, g, rfl, h⟩
  | cons c calls ih =>
    obtain ⟨hsize, hfresh, hrest⟩ := hfair
    have hcall := machine_served h hsize hfresh
    rw [hcall] at hrest
    have hfair' : Fair (served g c.size c.mmap).2 calls := hrest _ rfl
    unfold run
    rw [hcall]
    obtain hnull | ⟨addr, haddr, -, hinv⟩ := served_spec h hfresh c.size
    · rw [hnull] at hfair' ⊢
      exact ih h hfair'
    · rw [show served g c.size c.mmap = (some addr, (served g c.size c.mmap).2) from Prod.ext haddr rfl]
      exact ih hinv hfair'

/-- Where `mmap` fails, the call is served from the current page or changes nothing. -/
theorem served_of_failed {g : PageAllocator} {mmap : Nat → Option Nat} (hfail : ∀ length, mmap length = none)
    (size : Nat) : served g size mmap = (none, g) ∨
      ∃ page, g.currentPage = some page ∧ padded size ≤ g.pageSize - g.pageOffset := by
  have hnew : ∀ need, servedNew g need mmap = (none, g) := by
    intro need
    unfold servedNew
    rw [hfail]
  unfold served
  split
  · cases hcur : g.currentPage with
    | none => exact Or.inl (hnew _)
    | some page =>
      by_cases hroom : padded size ≤ g.pageSize - g.pageOffset
      · exact Or.inr ⟨page, rfl, hroom⟩
      · refine Or.inl ?_
        dsimp only
        rw [if_neg hroom, hnew]
  · exact Or.inl rfl

/-- After every run, blocks are aligned, in one range each and apart from each other and from all
headers. Every further call is computed exactly, and without wrapping around unless the rounded
size is the last one that is accepted. -/
theorem page_allocator_blocks {k : Nat} (hk : 6 ≤ k ∧ k < 64) {calls : List Call} (hfair : Fair (enable (2 ^ k)) calls) :
    ∃ blocks g, run (enable (2 ^ k)) [] calls = some (blocks, g) ∧
      (∀ b ∈ blocks, ALIGN ∣ b.addr ∧ Inside g b ∧ ∀ h ∈ g.lastPage, Apart b.addr b.size h.base headerSize) ∧
      (blocks.Pairwise fun b b' => Apart b.addr b.size b'.addr b'.size) ∧
      ∀ c : Call, c.size < wordCount → Fresh g c.mmap →
        alloc .machine g c.size c.mmap = some (served g c.size c.mmap) ∧
          (padded c.size + headerSize + g.pageSize ≠ wordCount →
            alloc .checked g c.size c.mmap = alloc .machine g c.size c.mmap) ∧
          ((served g c.size c.mmap).1 = none → (served g c.size c.mmap).2 = g) ∧
          ((∀ length, c.mmap length = none) → served g c.size c.mmap = (none, g) ∨
            ∃ page, g.currentPage = some page ∧ padded c.size ≤ g.pageSize - g.pageOffset) := by
  obtain ⟨blocks, g, hrun, hinv⟩ := run_inv (inv_enable hk) hfair
  refine ⟨blocks, g, hrun, ?_, hinv.blocks_apart, ?_⟩
  · intro b hb
    exact ⟨hinv.blocks_aligned b hb, hinv.blocks_inside b hb, fun h hmem => hinv.header_apart hb hmem⟩
  · intro c hsize hfresh
    have hcall := machine_served hinv hsize hfresh
    refine ⟨hcall, ?_, ?_, fun hfail => served_of_failed hfail c.size⟩
    · intro hne
      rw [hcall]
      exact alloc_eq Arith.checked_exact hinv hfresh hsize fun hle => roundsUp_checked (by omega)
    · intro hnone
      obtain hnull | ⟨addr, haddr, -, -⟩ := served_spec hinv hfresh c.size
      · rw [hnull]
      · rw [haddr] at hnone
        cases hnone

/-- Two requests of five bytes, from one page. -/
theorem page_allocator_blocks_two :
    (6 ≤ 12 ∧ 12 < 64) ∧
      Fair (enable (2 ^ 12)) [⟨5, fun n => if n ≤ 4096 then some 8192 else none⟩, ⟨5, fun _ => none⟩] ∧
      ∃ blocks g, run (enable (2 ^ 12)) []
        [⟨5, fun n => if n ≤ 4096 then some 8192 else none⟩, ⟨5, fun _ => none⟩] = some (blocks, g) ∧
        blocks.Pairwise fun b b' => Apart b.addr b.size b'.addr b'.size := by
  have hfair : Fair (enable (2 ^ 12)) [⟨5, fun n => if n ≤ 4096 then some 8192 else none⟩, ⟨5, fun _ => none⟩] := by
    refine ⟨by decide, ?_, fun out _ => ⟨by decide, nofun, fun _ _ => trivial⟩⟩
    intro length base h
    simp only at h
    split at h
    · cases h
      exact ⟨by decide, by decide, by rw [wordCount_eq]; omega, by simp [enable]⟩
    · cases h
  obtain ⟨blocks, g, hrun, -, hapart, -⟩ := page_allocator_blocks (by decide) hfair
  exact ⟨by decide, hfair, blocks, g, hrun, hapart⟩

/-- The last size that is accepted: its sum wraps around before one is subtracted. -/
theorem rounding_wraps :
    wordCount - 4113 < wordCount ∧ alloc .checked (enable 4096) (wordCount - 4113) (fun _ => none) = none ∧
      Arith.machine.add (padded (wordCount - 4113) + headerSize) 4096 = some 0 ∧
      alloc .machine (enable 4096) (wordCount - 4113) (fun _ => none) = some (none, enable 4096) := by
  decide +kernel

end SentryNative.Alloc
