import Mathlib.Algebra.Order.BigOperators.Group.List
import Mathlib.Data.List.Sort
import SentryNative.Retry.Siblings

/-!
# Pruning the cache

`sentry_database.c`: `sentry__cleanup_cache` collects the files with the envelope extension, each
with the size of its siblings, sorts them newest first and removes those over one of the limits
together with their siblings.

* `fates_kept_first`: what is kept is the start of the order;
* `cleanup_eq`: which files are left, and what is recorded;
* `envelope_not_sibling`: no envelope is taken for a sibling;
* `cleanup_cache`: exactly when the cache is consistent afterwards.
-/

namespace SentryNative.Retry

open CLib

/-- A file of the cache directory. -/
structure CacheFile where
  name : Bytes
  mtime : Int
  size : Nat
  deriving DecidableEq, Repr

/-- `cache_entry_t`: the size is that of the file and its siblings. -/
structure CacheEntry where
  file : CacheFile
  size : Nat
  deriving DecidableEq, Repr

structure CacheLimits where
  maxAge : Int
  maxSize : Nat
  maxItems : Nat
  deriving DecidableEq, Repr

/-- Whether the second name is that of a sibling of the first. -/
def siblingOf (envelopeName name : Bytes) : Bool :=
  match parseCacheFilename envelopeName with
  | none => false
  | some parsed => isCacheSibling name parsed.uuid

/-- The files for which `foreach_cache_sibling` calls back: they are collected before the first call. -/
def cacheSiblings (dir : List CacheFile) (envelopeName : Bytes) : List CacheFile :=
  dir.filter fun f => siblingOf envelopeName f.name

/-- `sentry__path_remove` -/
def removeFile (dir : List CacheFile) (name : Bytes) : List CacheFile := dir.filter (·.name ≠ name)

/-- An entry is removed after its siblings. -/
def removeEntry (dir : List CacheFile) (name : Bytes) : List CacheFile :=
  removeFile ((cacheSiblings dir name).foldl (fun dir f => removeFile dir f.name) dir) name

/-- The first pass of `sentry__cleanup_cache`. -/
def collectEntries (dir : List CacheFile) : List CacheEntry :=
  (dir.filter fun f => pathEndsWith f.name extension).map fun f =>
    ⟨f, f.size + ((cacheSiblings dir f.name).map (·.size)).sum⟩

def tooOld (limits : CacheLimits) (now : Int) (e : CacheEntry) : Bool :=
  0 < limits.maxAge ∧ e.file.mtime < now - limits.maxAge

/-- Over the size or the count, for the entry at an index with the size up to it. -/
def overflows (limits : CacheLimits) (i accumulated : Nat) : Bool :=
  0 < limits.maxSize ∧ limits.maxSize < accumulated ∨ 0 < limits.maxItems ∧ limits.maxItems ≤ i

/-- The second pass: what is left of the directory, and the names that were recorded as
`cache_overflow`. -/
def pruneLoop (limits : CacheLimits) (now : Int) (i accumulated : Nat) (dir : List CacheFile) (recorded : List Bytes) :
    List CacheEntry → List CacheFile × List Bytes
  | [] => (dir, recorded)
  | e :: es =>
    if tooOld limits now e then
      pruneLoop limits now (i + 1) accumulated (removeEntry dir e.file.name) recorded es
    else if overflows limits i (accumulated + e.size) then
      pruneLoop limits now (i + 1) (accumulated + e.size) (removeEntry dir e.file.name) (recorded ++ [e.file.name]) es
    else pruneLoop limits now (i + 1) (accumulated + e.size) dir recorded es

/-- `sentry__cleanup_cache`, with the order that `qsort` makes. -/
def cleanupCache (sort : List CacheEntry → List CacheEntry) (limits : CacheLimits) (now : Int) (dir : List CacheFile) :
    List CacheFile × List Bytes :=
  pruneLoop limits now 0 0 dir [] (sort (collectEntries dir))

/-! ## The fate of each entry -/

inductive Fate where
  | kept
  | aged
  | overflow
  deriving DecidableEq, Repr

/-- The decisions of the second pass. -/
def fates (limits : CacheLimits) (now : Int) (i accumulated : Nat) : List CacheEntry → List (CacheEntry × Fate)
  | [] => []
  | e :: es =>
    if tooOld limits now e then (e, .aged) :: fates limits now (i + 1) accumulated es
    else (e, if overflows limits i (accumulated + e.size) then .overflow else .kept) ::
      fates limits now (i + 1) (accumulated + e.size) es

section
variable {limits : CacheLimits} {now : Int}

theorem fates_fst (i accumulated : Nat) (es : List CacheEntry) :
    (fates limits now i accumulated es).map (·.1) = es := by
  induction es generalizing i accumulated with
  | nil => rfl
  | cons e es ih =>
    rw [fates]
    split <;> simp [ih]

theorem overflows_mono {i j a b : Nat} (hi : i ≤ j) (ha : a ≤ b) (h : overflows limits i a = true) :
    overflows limits j b = true := by
  simp only [overflows, decide_eq_true_eq] at h ⊢
  omega

/-- Behind an entry that overflows nothing is kept. -/
theorem fates_of_overflow {es : List CacheEntry} {i accumulated : Nat}
    (h : ∀ b, accumulated ≤ b → overflows limits i b = true) :
    ∀ p ∈ fates limits now i accumulated es, p.2 ≠ .kept := by
  induction es generalizing i accumulated with
  | nil => simp [fates]
  | cons e es ih =>
    have hnext : ∀ a, accumulated ≤ a → ∀ b, a ≤ b → overflows limits (i + 1) b = true := by
      intro a ha b hb
      exact overflows_mono (Nat.le_succ i) (Nat.le_refl b) (h b (Nat.le_trans ha hb))
    rw [fates]
    split
    · rw [List.forall_mem_cons]
      exact ⟨by simp, ih (hnext accumulated (Nat.le_refl _))⟩
    · rw [List.forall_mem_cons]
      refine ⟨?_, ih (hnext _ (Nat.le_add_right _ _))⟩
      simp [h _ (Nat.le_add_right _ _)]

/-- Behind an entry that is too old nothing is kept, for it is not newer. -/
theorem fates_of_old {es : List CacheEntry} (h : ∀ e ∈ es, tooOld limits now e = true) (i accumulated : Nat) :
    ∀ p ∈ fates limits now i accumulated es, p.2 ≠ .kept := by
  induction es generalizing i accumulated with
  | nil => simp [fates]
  | cons e es ih =>
    obtain ⟨he, hes⟩ := List.forall_mem_cons.mp h
    rw [fates, if_pos he, List.forall_mem_cons]
    exact ⟨by simp, ih hes _ _⟩

theorem tooOld_of_le {e e' : CacheEntry} (h : e'.file.mtime ≤ e.file.mtime) (hold : tooOld limits now e = true) :
    tooOld limits now e' = true := by
  simp only [tooOld, decide_eq_true_eq] at hold ⊢
  omega

/-- What is kept is the start of the order. -/
theorem fates_kept_first {es : List CacheEntry} (hsorted : es.Pairwise fun a b => b.file.mtime ≤ a.file.mtime)
    (i accumulated : Nat) :
    ∃ n, (∀ p ∈ (fates limits now i accumulated es).take n, p.2 = .kept) ∧
      ∀ p ∈ (fates limits now i accumulated es).drop n, p.2 ≠ .kept := by
  induction es generalizing i accumulated with
  | nil => exact ⟨0, by simp [fates]⟩
  | cons e es ih =>
    obtain ⟨hhead, htail⟩ := List.pairwise_cons.mp hsorted
    rw [fates]
    split
    · next hold =>
      refine ⟨0, by simp, ?_⟩
      rw [List.drop_zero, List.forall_mem_cons]
      exact ⟨by simp, fates_of_old (fun e' he' => tooOld_of_le (hhead e' he') hold) _ _⟩
    · split
      · next hover =>
        refine ⟨0, by simp, ?_⟩
        rw [List.drop_zero, List.forall_mem_cons]
        refine ⟨by simp, fates_of_overflow fun b hb => ?_⟩
        exact overflows_mono (Nat.le_succ i) hb hover
      · obtain ⟨n, hkept, hpruned⟩ := ih htail (i + 1) (accumulated + e.size)
        refine ⟨n + 1, ?_, hpruned⟩
        rw [List.take_succ_cons, List.forall_mem_cons]
        exact ⟨rfl, hkept⟩

/-- The entries that are kept are within the limits. -/
theorem fates_limits (i accumulated n : Nat) {es : List CacheEntry}
    (h : ∀ p ∈ (fates limits now i accumulated es).take n, p.2 = .kept) :
    (∀ e ∈ es.take n, tooOld limits now e = false) ∧
      (0 < limits.maxItems → es.take n ≠ [] → i + (es.take n).length ≤ limits.maxItems) ∧
      (0 < limits.maxSize → es.take n ≠ [] → accumulated + ((es.take n).map (·.size)).sum ≤ limits.maxSize) := by
  induction es generalizing i accumulated n with
  | nil => simp
  | cons e es ih =>
    cases n with
    | zero => simp
    | succ n =>
      rw [fates] at h
      split at h
      · rw [List.take_succ_cons, List.forall_mem_cons] at h
        exact absurd h.1 (by simp)
      · next hold =>
        rw [List.take_succ_cons, List.forall_mem_cons] at h
        obtain ⟨hover, hrest⟩ := h
        have hwithin : overflows limits i (accumulated + e.size) = false := by
          by_contra hne
          simp [hne] at hover
        obtain ⟨hages, hitems, hsizes⟩ := ih _ _ n hrest
        simp only [overflows, decide_eq_false_iff_not, not_or, not_and] at hwithin
        rw [List.take_succ_cons]
        refine ⟨List.forall_mem_cons.mpr ⟨by simpa using hold, hages⟩, ?_, ?_⟩
        · intro hpos _
          have hi := hwithin.2 hpos
          by_cases hnil : es.take n = []
          · simp only [hnil, List.length_cons, List.length_nil]
            omega
          · have := hitems hpos hnil
            simp only [List.length_cons]
            omega
        · intro hpos _
          have ha := hwithin.1 hpos
          by_cases hnil : es.take n = []
          · simp only [hnil, List.map_cons, List.map_nil, List.sum_cons, List.sum_nil]
            omega
          · have := hsizes hpos hnil
            simp only [List.map_cons, List.sum_cons]
            omega

end

/-! ## What is left -/

/-- Removing the entry of a name takes this file along. -/
def hits (entryName name : Bytes) : Bool := name = entryName ∨ siblingOf entryName name

theorem mem_removeFile {dir : List CacheFile} {name : Bytes} {f : CacheFile} :
    f ∈ removeFile dir name ↔ f ∈ dir ∧ f.name ≠ name := by
  simp [removeFile]

theorem mem_foldl_removeFile {gs dir : List CacheFile} {f : CacheFile} :
    f ∈ gs.foldl (fun dir g => removeFile dir g.name) dir ↔ f ∈ dir ∧ ∀ g ∈ gs, f.name ≠ g.name := by
  induction gs generalizing dir with
  | nil => simp
  | cons g gs ih => rw [List.foldl_cons, ih, mem_removeFile, List.forall_mem_cons, and_assoc]

theorem mem_removeEntry {dir : List CacheFile} {name : Bytes} {f : CacheFile} :
    f ∈ removeEntry dir name ↔ f ∈ dir ∧ hits name f.name = false := by
  rw [removeEntry, mem_removeFile, mem_foldl_removeFile]
  simp only [cacheSiblings, List.mem_filter, hits, decide_eq_false_iff_not, not_or]
  constructor
  · rintro ⟨⟨hf, hsib⟩, hne⟩
    exact ⟨hf, hne, fun h => hsib f ⟨hf, h⟩ rfl⟩
  · rintro ⟨hf, hne, hsib⟩
    refine ⟨⟨hf, ?_⟩, hne⟩
    rintro g ⟨-, hg⟩ heq
    rw [heq] at hsib
    exact hsib hg

section
variable {limits : CacheLimits} {now : Int}

/-- The second pass leaves the files that no pruned entry takes along. -/
theorem mem_pruneLoop {i accumulated : Nat} {dir : List CacheFile} {recorded : List Bytes} {es : List CacheEntry}
    {f : CacheFile} :
    f ∈ (pruneLoop limits now i accumulated dir recorded es).1 ↔
      f ∈ dir ∧ ∀ p ∈ fates limits now i accumulated es, p.2 ≠ .kept → hits p.1.file.name f.name = false := by
  induction es generalizing i accumulated dir recorded with
  | nil => simp [pruneLoop, fates]
  | cons e es ih =>
    rw [pruneLoop, fates]
    split
    · rw [ih, mem_removeEntry, List.forall_mem_cons, and_assoc]
      simp
    · split
      · rw [ih, mem_removeEntry, List.forall_mem_cons, and_assoc]
        simp
      · rw [ih, List.forall_mem_cons]
        simp

/-- The entries that overflow are recorded. -/
theorem recorded_pruneLoop (i accumulated : Nat) (dir : List CacheFile) (recorded : List Bytes) (es : List CacheEntry) :
    (pruneLoop limits now i accumulated dir recorded es).2 =
      recorded ++ ((fates limits now i accumulated es).filter (·.2 = .overflow)).map (·.1.file.name) := by
  induction es generalizing i accumulated dir recorded with
  | nil => simp [pruneLoop, fates]
  | cons e es ih =>
    rw [pruneLoop, fates]
    split
    · rw [ih]
      rfl
    · split
      · rw [ih, List.append_assoc]
        rfl
      · rw [ih]
        rfl

/-- An entry that is pruned is too old or overflows, and only one that is too old is not recorded. -/
theorem fates_aged {i accumulated : Nat} {es : List CacheEntry} {p : CacheEntry × Fate}
    (h : p ∈ fates limits now i accumulated es) : p.2 = .aged ↔ tooOld limits now p.1 = true := by
  induction es generalizing i accumulated with
  | nil => simp [fates] at h
  | cons e es ih =>
    rw [fates] at h
    split at h
    · next hold =>
      obtain rfl | h := List.mem_cons.mp h
      · simp [hold]
      · exact ih h
    · next hold =>
      obtain rfl | h := List.mem_cons.mp h
      · split <;> simpa using hold
      · exact ih h

end

/-! ## Names of envelopes -/

/-- The names of the envelopes of an event, bare or queued for a retry. -/
def EnvelopeName (u : Uuid) (name : Bytes) : Prop :=
  name = makeCachePath 0 (-1) u.asString ∨ ∃ ts n : Nat, ts < 2 ^ 64 ∧ n < 2 ^ 31 ∧ name = makeCachePath ts n u.asString

theorem EnvelopeName.uuid {u : Uuid} {name : Bytes} (h : EnvelopeName u name) :
    ∃ ts count, parseCacheFilename name = some ⟨ts, count, u.asString⟩ := by
  obtain rfl | ⟨ts, n, hts, hn, rfl⟩ := h
  · exact ⟨_, _, parse_bare u⟩
  · exact ⟨_, _, parse_makeCachePath u hts hn⟩

/-- Two texts with a dash are equal if they are up to their first dashes and behind these. -/
theorem first_dash_inj {p q x y : Bytes} (hp : 45 ∉ p) (hq : 45 ∉ q) (h : p ++ 45 :: x = q ++ 45 :: y) :
    p = q ∧ x = y := by
  have htail := eq_of_first_dash hp hq h
  subst htail
  exact ⟨List.append_cancel_right h, rfl⟩

/-- An event id by its dashes. -/
theorem asString_parts (u : Uuid) : ∃ a b c d e, u.asString = a ++ 45 :: (b ++ 45 :: (c ++ 45 :: (d ++ 45 :: e))) ∧
    (45 ∉ a ∧ a.length = 8) ∧ (45 ∉ b ∧ b.length = 4) ∧ (45 ∉ c ∧ c.length = 4) ∧ (45 ∉ d ∧ d.length = 4) ∧
      45 ∉ e ∧ e.length = 12 := by
  have hz : ∀ b, (45 : UInt8) ∉ hexByte b := fun b hb => (hexByte_ne hb).1 rfl
  refine ⟨_, _, _, _, _, rfl, ⟨?_, rfl⟩, ⟨?_, rfl⟩, ⟨?_, rfl⟩, ⟨?_, rfl⟩, ?_, rfl⟩ <;>
    simp only [List.mem_append, hz, or_self, not_false_eq_true]

/-- The name of a retry by its dashes. -/
theorem makeCachePath_parts (ts n : Nat) (u : Uuid) : ∃ a b c x,
    makeCachePath ts n u.asString = a ++ 45 :: (b ++ 45 :: (c ++ 45 :: x)) ∧ 45 ∉ a ∧ 45 ∉ b ∧ 45 ∉ c ∧ c.length = 8 := by
  obtain ⟨a, b, c, d, e, heq, ha, -⟩ := asString_parts u
  refine ⟨printNat ts, pad2 n, a, (b ++ 45 :: (c ++ 45 :: (d ++ 45 :: e))) ++ extension, ?_, dash_not_digit fun c hc => isDigit_of_mem_printNat hc,
    dash_not_digit fun c hc => isDigit_of_mem_pad2 hc, ha⟩
  rw [makeCachePath_uuid, heq]
  simp only [List.append_assoc, List.cons_append]

/-- No envelope is taken for a sibling of an event. -/
theorem envelope_not_sibling {u : Uuid} {name : Bytes} (h : EnvelopeName u name) (v : Uuid) :
    isCacheSibling name v.asString = false := by
  rw [Bool.eq_false_iff]
  intro hsib
  simp only [isCacheSibling, decide_eq_true_eq] at hsib
  have htake : v.asString.take 36 = v.asString := List.take_of_length_le (by simp)
  rw [htake] at hsib
  obtain rfl | ⟨ts, n, -, -, rfl⟩ := h
  · -- a bare name is the event id and the extension
    rw [makeCachePath_bare, List.drop_left' (asString_length u)] at hsib
    obtain hdash | ⟨-, hne⟩ := hsib.2
    · rw [List.getElem?_append_right (by simp)] at hdash
      cases hdash
    · exact hne rfl
  · -- the third part of a retry is twice as long as that of an event id
    obtain ⟨a, b, c, x, hname, ha, hb, hc, hlen⟩ := makeCachePath_parts ts n u
    obtain ⟨a', b', c', d', e', hv, ha', hb', hc', -⟩ := asString_parts v
    have happ := List.take_append_drop 36 (makeCachePath ts n u.asString)
    rw [hsib.1, hv, hname] at happ
    simp only [List.append_assoc, List.cons_append] at happ
    obtain ⟨-, happ⟩ := first_dash_inj ha'.1 ha happ
    obtain ⟨-, happ⟩ := first_dash_inj hb'.1 hb happ
    obtain ⟨heq, -⟩ := first_dash_inj hc'.1 hc happ
    rw [← heq, hc'.2] at hlen
    cases hlen

/-- A number is read up to its last digit, where the text starts with neither blank nor sign. -/
theorem scanInteger_split {s rest : Bytes} {neg : Bool} {v : Nat}
    (hhead : ∀ c, s.head? = some c → isSpace c = false ∧ c ≠ 45 ∧ c ≠ 43) (h : scanInteger s = some (neg, v, rest)) :
    ∃ ds, s = ds ++ rest ∧ 45 ∉ ds := by
  have hdrop : s.dropWhile isSpace = s := by
    cases s with
    | nil => rfl
    | cons c s => rw [List.dropWhile_cons, if_neg (by simp [(hhead c rfl).1])]
  unfold scanInteger at h
  rw [hdrop] at h
  dsimp only at h
  split at h
  · exact absurd rfl (hhead 45 rfl).2.1
  · exact absurd rfl (hhead 43 rfl).2.2
  · split at h
    · cases h
    · cases h
      refine ⟨s.takeWhile isDigit, (List.takeWhile_append_dropWhile).symm, ?_⟩
      exact dash_not_digit fun c hc => List.mem_takeWhile_imp hc

theorem strtoull_split {s : Bytes} (hhead : ∀ c, s.head? = some c → isSpace c = false ∧ c ≠ 45 ∧ c ≠ 43) :
    ∃ ds, s = ds ++ (strtoull s).rest ∧ 45 ∉ ds := by
  unfold strtoull
  cases hscan : scanInteger s with
  | none => exact ⟨[], rfl, by simp⟩
  | some r =>
    obtain ⟨neg, v, rest⟩ := r
    have hsplit := scanInteger_split hhead hscan
    dsimp only
    split
    · exact hsplit
    · split <;> exact hsplit

theorem strtoll_split {s : Bytes} (hhead : ∀ c, s.head? = some c → isSpace c = false ∧ c ≠ 45 ∧ c ≠ 43) :
    ∃ ds, s = ds ++ (strtoll s).rest ∧ 45 ∉ ds := by
  unfold strtoll
  cases hscan : scanInteger s with
  | none => exact ⟨[], rfl, by simp⟩
  | some r =>
    obtain ⟨neg, v, rest⟩ := r
    have hsplit := scanInteger_split hhead hscan
    obtain ⟨x, hx⟩ : ∃ x : Int, (if neg then -(v : Int) else v) = x := ⟨_, rfl⟩
    dsimp only
    rw [hx]
    split
    · exact hsplit
    · split <;> exact hsplit

theorem hexByte_head (b : UInt8) (s : Bytes) :
    ∀ c, (hexByte b ++ s).head? = some c → isSpace c = false ∧ c ≠ 45 ∧ c ≠ 43 := by
  have hall : ∀ n < 16, isSpace (hexDigit n) = false ∧ hexDigit n ≠ 45 ∧ hexDigit n ≠ 43 := by decide
  rintro c ⟨⟩
  exact hall _ (hi_lt b)

/-- The uuid that is read from the name of a sibling is no longer one: its first two parts are the
third and the fourth of the event id. -/
theorem sibling_parse {v : Uuid} {name : Bytes} (h : isCacheSibling name v.asString = true) {parsed : CacheName}
    (hparse : parseCacheFilename name = some parsed) :
    ∃ c d e x, parsed.uuid = c ++ 45 :: (d ++ 45 :: (e ++ x)) ∧ (45 ∉ c ∧ c.length = 4) ∧ (45 ∉ d ∧ d.length = 4) ∧
      45 ∉ e ∧ e.length = 12 := by
  simp only [isCacheSibling, decide_eq_true_eq] at h
  have htake : v.asString.take 36 = v.asString := List.take_of_length_le (by simp)
  rw [htake] at h
  have hname := List.take_append_drop 36 name
  rw [h.1] at hname
  have hz : ∀ b, (45 : UInt8) ∉ hexByte b := fun b hb => (hexByte_ne hb).1 rfl
  unfold parseCacheFilename at hparse
  split at hparse
  · next hbare =>
    -- the extension right behind the event id makes no sibling
    obtain hdash | ⟨-, hne⟩ := h.2
    · rw [← List.head?_drop, hbare.2] at hdash
      cases hdash
    · exact absurd hbare.2 hne
  · split at hparse
    · cases hparse
    · dsimp only at hparse
      split at hparse
      · next countStr hts =>
        split at hparse
        · next uuid hcount =>
          split at hparse
          · cases hparse
          · next hgood =>
            simp only [not_or, not_not] at hgood
            cases hparse
            obtain ⟨ds, hds, hdash⟩ := strtoull_split (s := name) (by rw [← hname]; exact hexByte_head (v 0) _)
            rw [hts, ← hname, Uuid.asString, List.append_assoc, List.cons_append] at hds
            have hcountStr := eq_of_first_dash (by simp only [List.mem_append, hz, or_self, not_false_eq_true]) hdash hds
            obtain ⟨ds', hds', hdash'⟩ := strtoll_split (s := countStr)
              (by rw [← hcountStr, List.append_assoc, List.append_assoc]; exact hexByte_head (v 4) _)
            rw [hcount, ← hcountStr, List.append_assoc, List.cons_append] at hds'
            have huuid := eq_of_first_dash (by simp only [List.mem_append, hz, or_self, not_false_eq_true]) hdash' hds'
            refine ⟨hexByte (v 6) ++ hexByte (v 7), hexByte (v 8) ++ hexByte (v 9),
              hexByte (v 10) ++ hexByte (v 11) ++ hexByte (v 12) ++ hexByte (v 13) ++ hexByte (v 14) ++ hexByte (v 15),
              (name.drop 36).take 14, ?_, ⟨?_, rfl⟩, ⟨?_, rfl⟩, ?_, rfl⟩
            · rw [← huuid]
              rfl
            all_goals simp only [List.mem_append, hz, or_self, not_false_eq_true]
        · cases hparse
      · cases hparse

/-- No envelope is taken for a sibling of what is read from the name of a sibling. -/
theorem envelope_not_sibling_parse {u v : Uuid} {envelope name : Bytes} (he : EnvelopeName u envelope)
    (h : isCacheSibling name v.asString = true) {parsed : CacheName} (hparse : parseCacheFilename name = some parsed) :
    isCacheSibling envelope parsed.uuid = false := by
  obtain ⟨c, d, e, x, huuid, hc, hd, hde, hlen⟩ := sibling_parse h hparse
  rw [Bool.eq_false_iff]
  intro hsib
  simp only [isCacheSibling, decide_eq_true_eq] at hsib
  have hstart : ∃ y, envelope = c ++ 45 :: (d ++ 45 :: (e ++ y)) := by
    have htake : parsed.uuid.take 36 = c ++ 45 :: (d ++ 45 :: (e ++ x.take 14)) := by
      have hsplit : parsed.uuid = (c ++ 45 :: (d ++ 45 :: e)) ++ x := by
        rw [huuid]
        simp only [List.append_assoc, List.cons_append]
      rw [hsplit, List.take_append]
      simp only [List.length_append, List.length_cons, hc.2, hd.2, hlen]
      rw [List.take_of_length_le (by simp only [List.length_append, List.length_cons]; omega)]
      simp only [List.append_assoc, List.cons_append]
    have happ := List.take_append_drop 36 envelope
    rw [hsib.1, htake] at happ
    refine ⟨x.take 14 ++ envelope.drop 36, happ.symm.trans ?_⟩
    simp only [List.append_assoc, List.cons_append]
  obtain ⟨y, hy⟩ := hstart
  obtain rfl | ⟨ts, n, -, -, rfl⟩ := he
  · obtain ⟨a', b', c', d', e', hu, ha', -⟩ := asString_parts u
    rw [makeCachePath_bare, hu, List.append_assoc, List.cons_append] at hy
    have heq := (first_dash_inj ha'.1 hc.1 hy).1
    rw [← heq, ha'.2] at hc
    cases hc.2
  · obtain ⟨a', b', c', x', hname, ha', hb', -, hlen'⟩ := makeCachePath_parts ts n u
    rw [hname] at hy
    obtain ⟨-, hy⟩ := first_dash_inj ha' hc.1 hy
    obtain ⟨-, hy⟩ := first_dash_inj hb' hd.1 hy
    have hget := congrArg (·[8]?) hy
    simp only [List.getElem?_append_left (show 8 < e.length by omega)] at hget
    rw [List.getElem?_append_right (by omega), hlen'] at hget
    exact hde (List.mem_of_getElem? hget.symm)

/-! ## The cache afterwards -/

/-- A cache directory: every file is an envelope or a sibling of an event. -/
structure CacheDir where
  files : List CacheFile
  distinct : (files.map (·.name)).Nodup
  named : ∀ f ∈ files, ∃ u : Uuid, EnvelopeName u f.name ∨ isCacheSibling f.name u.asString = true

def IsEnvelope (f : CacheFile) : Prop := ∃ u, EnvelopeName u f.name

/-- What is claimed of the files that are left and of what is recorded: the kept envelopes are the
start of an order of the envelopes, newest first. -/
structure Pruned (limits : CacheLimits) (now : Int) (dir : CacheDir) (after : List CacheFile) (recorded : List Bytes)
    (kept rest : List CacheFile) : Prop where
  order : (kept ++ rest).Pairwise fun a b => b.mtime ≤ a.mtime
  nodup : (kept ++ rest).Nodup
  envelopes : ∀ f, f ∈ kept ++ rest ↔ f ∈ dir.files ∧ IsEnvelope f
  present : ∀ f ∈ kept ++ rest, f ∈ after ↔ f ∈ kept
  young : ∀ f ∈ kept, 0 < limits.maxAge → now - limits.maxAge ≤ f.mtime
  count : 0 < limits.maxItems → kept.length ≤ limits.maxItems
  sizes : 0 < limits.maxSize →
    (kept.map fun f => f.size + ((cacheSiblings dir.files f.name).map (·.size)).sum).sum ≤ limits.maxSize
  siblings : ∀ e ∈ kept, ∀ f ∈ dir.files, siblingOf e.name f.name = true → f ∈ after
  gone : ∀ e ∈ rest, ∀ f ∈ dir.files, siblingOf e.name f.name = true →
    (∀ e' ∈ kept, siblingOf e'.name f.name = false) → f ∉ after
  overflow : ∀ name, name ∈ recorded ↔ ∃ f ∈ rest, f.name = name ∧ ¬ (0 < limits.maxAge ∧ f.mtime < now - limits.maxAge)

/-- No file that belongs to a kept envelope goes with an entry over the limits, and no sibling with the
envelope extension is over the size or the count. -/
def Separate (limits : CacheLimits) (now : Int) (dir : CacheDir) (entries : List CacheEntry) : Prop :=
  (∀ p ∈ fates limits now 0 0 entries, p.2 ≠ .kept → ∀ q ∈ fates limits now 0 0 entries, q.2 = .kept →
      IsEnvelope q.1.file → ∀ f ∈ dir.files, siblingOf q.1.file.name f.name = true → hits p.1.file.name f.name = false) ∧
    ∀ p ∈ fates limits now 0 0 entries, p.2 = .overflow → IsEnvelope p.1.file

/-- What the C library promises of `qsort` with `compare_cache_entries_newest_first`: the entries in an
order that is newest first. -/
def NewestFirst (sort : List CacheEntry → List CacheEntry) : Prop :=
  ∀ es, (sort es).Perm es ∧ (sort es).Pairwise fun a b => b.file.mtime ≤ a.file.mtime

section
variable {sort : List CacheEntry → List CacheEntry} (hsort : NewestFirst sort) (limits : CacheLimits) (now : Int)
  (dir : CacheDir)

include hsort

theorem mem_sorted {e : CacheEntry} : e ∈ sort (collectEntries dir.files) ↔ e ∈ collectEntries dir.files :=
  (hsort _).1.mem_iff

/-- Every entry is a file of the directory. -/
theorem file_mem {e : CacheEntry} (h : e ∈ sort (collectEntries dir.files)) :
    e.file ∈ dir.files ∧ e.size = e.file.size + ((cacheSiblings dir.files e.file.name).map (·.size)).sum := by
  rw [mem_sorted hsort dir, collectEntries, List.mem_map] at h
  obtain ⟨f, hf, rfl⟩ := h
  exact ⟨(List.mem_filter.mp hf).1, rfl⟩

/-- Every envelope has an entry. -/
theorem entry_of_envelope {f : CacheFile} (hf : f ∈ dir.files) (henv : IsEnvelope f) :
    ∃ e ∈ sort (collectEntries dir.files), e.file = f := by
  obtain ⟨u, hu⟩ := henv
  obtain ⟨ts, count, hparse⟩ := hu.uuid
  have hext : extension <:+ f.name := extension_of_parse (by rw [hparse]; simp)
  refine ⟨⟨f, f.size + ((cacheSiblings dir.files f.name).map (·.size)).sum⟩, ?_, rfl⟩
  rw [mem_sorted hsort dir, collectEntries, List.mem_map]
  exact ⟨f, List.mem_filter.mpr ⟨hf, (pathEndsWith_iff _ _).mpr hext⟩, rfl⟩

theorem names_nodup : ((sort (collectEntries dir.files)).map (·.file.name)).Nodup := by
  have hperm := (hsort (collectEntries dir.files)).1.map (·.file.name)
  rw [hperm.nodup_iff, collectEntries, List.map_map]
  exact dir.distinct.sublist (List.filter_sublist.map _)

/-- An entry over the limits does not take an envelope along that is kept. -/
theorem kept_not_hit {p q : CacheEntry × Fate} (hp : p ∈ fates limits now 0 0 (sort (collectEntries dir.files)))
    (hq : q ∈ fates limits now 0 0 (sort (collectEntries dir.files))) (hpruned : p.2 ≠ .kept) (hkept : q.2 = .kept)
    (henv : IsEnvelope q.1.file) : hits p.1.file.name q.1.file.name = false := by
  have hfst := @fates_fst limits now 0 0 (sort (collectEntries dir.files))
  rw [hits, decide_eq_false_iff_not, not_or]
  constructor
  · intro hname
    have hnodup : ((fates limits now 0 0 (sort (collectEntries dir.files))).map (·.1.file.name)).Nodup := by
      have hnames := names_nodup hsort dir
      rwa [← hfst, List.map_map] at hnames
    have heq : q = p := List.inj_on_of_nodup_map hnodup hq hp hname
    rw [heq] at hkept
    exact hpruned hkept
  · have hfile : p.1.file ∈ dir.files := by
      refine (file_mem hsort dir ?_).1
      rw [← hfst]
      exact List.mem_map_of_mem hp
    obtain ⟨w, hw⟩ := henv
    unfold siblingOf
    cases hparse : parseCacheFilename p.1.file.name with
    | none => simp
    | some parsed =>
      obtain ⟨u, hu | hu⟩ := dir.named _ hfile
      · obtain ⟨ts, count, hparse'⟩ := hu.uuid
        rw [hparse] at hparse'
        cases hparse'
        simp [envelope_not_sibling hw u]
      · simp [envelope_not_sibling_parse hw hu hparse]

omit hsort in
theorem mem_cleanup {f : CacheFile} :
    f ∈ (cleanupCache sort limits now dir.files).1 ↔ f ∈ dir.files ∧
      ∀ p ∈ fates limits now 0 0 (sort (collectEntries dir.files)), p.2 ≠ .kept → hits p.1.file.name f.name = false :=
  mem_pruneLoop

omit hsort in
theorem mem_recorded {name : Bytes} :
    name ∈ (cleanupCache sort limits now dir.files).2 ↔
      ∃ p ∈ fates limits now 0 0 (sort (collectEntries dir.files)), p.2 = .overflow ∧ p.1.file.name = name := by
  rw [cleanupCache, recorded_pruneLoop, List.nil_append, List.mem_map]
  constructor
  · rintro ⟨p, hp, rfl⟩
    obtain ⟨hmem, hover⟩ := List.mem_filter.mp hp
    exact ⟨p, hmem, by simpa using hover, rfl⟩
  · rintro ⟨p, hmem, hover, rfl⟩
    exact ⟨p, List.mem_filter.mpr ⟨hmem, by simpa using hover⟩, rfl⟩

/-- Where the claims hold, no entry over the limits takes along what a kept envelope needs. -/
theorem separate_of_pruned {kept rest : List CacheFile}
    (h : Pruned limits now dir (cleanupCache sort limits now dir.files).1 (cleanupCache sort limits now dir.files).2
      kept rest) : Separate limits now dir (sort (collectEntries dir.files)) := by
  have hfile : ∀ p ∈ fates limits now 0 0 (sort (collectEntries dir.files)), p.1.file ∈ dir.files := by
    intro p hp
    refine (file_mem hsort dir ?_).1
    rw [← @fates_fst limits now 0 0 (sort (collectEntries dir.files))]
    exact List.mem_map_of_mem hp
  constructor
  · intro p hp hpruned q hq hkept henv f hf hsib
    have hafter : q.1.file ∈ (cleanupCache sort limits now dir.files).1 :=
      (mem_cleanup limits now dir).mpr ⟨hfile q hq, fun p' hp' hpruned' =>
        kept_not_hit hsort limits now dir hp' hq hpruned' hkept henv⟩
    have hmem : q.1.file ∈ kept := (h.present _ ((h.envelopes _).mpr ⟨hfile q hq, henv⟩)).mp hafter
    exact ((mem_cleanup limits now dir).mp (h.siblings _ hmem f hf hsib)).2 p hp hpruned
  · intro p hp hover
    obtain ⟨f, hf, hname, -⟩ := (h.overflow _).mp ((mem_recorded limits now dir).mpr ⟨p, hp, hover, rfl⟩)
    obtain ⟨-, u, hu⟩ := (h.envelopes f).mp (List.mem_append_right _ hf)
    exact ⟨u, hname ▸ hu⟩

/-- The claims hold where no entry over the limits takes along what a kept envelope needs. -/
theorem pruned_of_separate (h : Separate limits now dir (sort (collectEntries dir.files))) :
    ∃ kept rest, Pruned limits now dir (cleanupCache sort limits now dir.files).1
      (cleanupCache sort limits now dir.files).2 kept rest := by
  classical
  obtain ⟨n, hkept, hpruned⟩ := @fates_kept_first limits now _ (hsort (collectEntries dir.files)).2 0 0
  obtain ⟨hyoung, hcount, hsizes⟩ := @fates_limits limits now 0 0 n _ hkept
  have hfst := @fates_fst limits now 0 0 (sort (collectEntries dir.files))
  have hfile := fun e => @file_mem sort hsort dir e
  have hentry := fun f => @entry_of_envelope sort hsort dir f
  have hnames := names_nodup hsort dir
  have hsorted := (hsort (collectEntries dir.files)).2
  have hsafe := fun p q => @kept_not_hit sort hsort limits now dir p q
  have hafter := fun f => @mem_cleanup sort limits now dir f
  have hrecorded := fun name => @mem_recorded sort limits now dir name
  have hage := fun p => @fates_aged limits now 0 0 (sort (collectEntries dir.files)) p
  obtain ⟨hsep, hover⟩ := h
  generalize hes : sort (collectEntries dir.files) = es at *
  generalize hps : fates limits now 0 0 es = ps at *
  have htakes : ∀ e, e ∈ es.take n ↔ ∃ p ∈ ps, p.2 = .kept ∧ p.1 = e := by
    intro e
    rw [← hfst, ← List.map_take, List.mem_map]
    constructor
    · rintro ⟨p, hp, rfl⟩
      exact ⟨p, List.mem_of_mem_take hp, hkept p hp, rfl⟩
    · rintro ⟨p, hp, hk, rfl⟩
      rw [← List.take_append_drop n ps, List.mem_append] at hp
      obtain hp | hp := hp
      · exact ⟨p, hp, rfl⟩
      · exact absurd hk (hpruned p hp)
  have hdrops : ∀ e, e ∈ es.drop n ↔ ∃ p ∈ ps, p.2 ≠ .kept ∧ p.1 = e := by
    intro e
    rw [← hfst, ← List.map_drop, List.mem_map]
    constructor
    · rintro ⟨p, hp, rfl⟩
      exact ⟨p, List.mem_of_mem_drop hp, hpruned p hp, rfl⟩
    · rintro ⟨p, hp, hk, rfl⟩
      rw [← List.take_append_drop n ps, List.mem_append] at hp
      obtain hp | hp := hp
      · exact absurd (hkept p hp) hk
      · exact ⟨p, hp, rfl⟩
  have hmem : ∀ p ∈ ps, p.1.file ∈ dir.files := by
    intro p hp
    refine (hfile p.1 ?_).1
    rw [← hfst]
    exact List.mem_map_of_mem hp
  refine ⟨((es.take n).filter fun e => IsEnvelope e.file).map (·.file),
    ((es.drop n).filter fun e => IsEnvelope e.file).map (·.file), ?_⟩
  have hkeptMem : ∀ f, f ∈ ((es.take n).filter fun e => IsEnvelope e.file).map (·.file) ↔
      ∃ p ∈ ps, p.2 = .kept ∧ p.1.file = f ∧ IsEnvelope f := by
    intro f
    simp only [List.mem_map, List.mem_filter, htakes, decide_eq_true_eq]
    constructor
    · rintro ⟨e, ⟨⟨p, hp, hk, rfl⟩, henv⟩, rfl⟩
      exact ⟨p, hp, hk, rfl, henv⟩
    · rintro ⟨p, hp, hk, rfl, henv⟩
      exact ⟨p.1, ⟨⟨p, hp, hk, rfl⟩, henv⟩, rfl⟩
  have hrestMem : ∀ f, f ∈ ((es.drop n).filter fun e => IsEnvelope e.file).map (·.file) ↔
      ∃ p ∈ ps, p.2 ≠ .kept ∧ p.1.file = f ∧ IsEnvelope f := by
    intro f
    simp only [List.mem_map, List.mem_filter, hdrops, decide_eq_true_eq]
    constructor
    · rintro ⟨e, ⟨⟨p, hp, hk, rfl⟩, henv⟩, rfl⟩
      exact ⟨p, hp, hk, rfl, henv⟩
    · rintro ⟨p, hp, hk, rfl, henv⟩
      exact ⟨p.1, ⟨⟨p, hp, hk, rfl⟩, henv⟩, rfl⟩
  have hall : ((es.take n).filter fun e => IsEnvelope e.file).map (·.file) ++
      ((es.drop n).filter fun e => IsEnvelope e.file).map (·.file) =
        (es.filter fun e => IsEnvelope e.file).map (·.file) := by
    rw [← List.map_append, ← List.filter_append, List.take_append_drop]
  constructor
  case order =>
    rw [hall]
    exact List.pairwise_map.mpr (hsorted.filter _)
  case nodup =>
    rw [hall]
    have hfiles : (es.map (·.file)).Nodup := by
      apply List.Nodup.of_map (·.name)
      rwa [List.map_map]
    exact hfiles.sublist (List.filter_sublist.map _)
  case envelopes =>
    intro f
    rw [List.mem_append, hkeptMem, hrestMem]
    constructor
    · rintro (⟨p, hp, -, rfl, henv⟩ | ⟨p, hp, -, rfl, henv⟩) <;> exact ⟨hmem p hp, henv⟩
    · rintro ⟨hf, henv⟩
      obtain ⟨e, he, rfl⟩ := hentry f hf henv
      rw [← hfst, List.mem_map] at he
      obtain ⟨p, hp, rfl⟩ := he
      by_cases hk : p.2 = .kept
      · exact Or.inl ⟨p, hp, hk, rfl, henv⟩
      · exact Or.inr ⟨p, hp, hk, rfl, henv⟩
  case present =>
    intro f hf
    rw [hafter]
    constructor
    · rintro ⟨-, hno⟩
      obtain hf | hf := List.mem_append.mp hf
      · exact hf
      · obtain ⟨p, hp, hk, rfl, -⟩ := (hrestMem f).mp hf
        have := hno p hp hk
        simp [hits] at this
    · intro hf
      obtain ⟨q, hq, hk, rfl, henv⟩ := (hkeptMem f).mp hf
      exact ⟨hmem q hq, fun p hp hk' => hsafe p q hp hq hk' hk henv⟩
  case young =>
    intro f hf hpos
    obtain ⟨e, he, rfl⟩ := List.mem_map.mp hf
    have hold := hyoung e (List.mem_filter.mp he).1
    simp only [tooOld, decide_eq_false_iff_not, not_and, not_lt] at hold
    exact hold hpos
  case count =>
    intro hpos
    have hle := (List.filter_sublist (l := es.take n) (p := fun e => IsEnvelope e.file)).length_le
    rw [List.length_map]
    by_cases hnil : es.take n = []
    · rw [hnil]
      exact Nat.zero_le _
    · have := hcount hpos hnil
      omega
  case sizes =>
    intro hpos
    have hsum : (((es.take n).filter fun e => IsEnvelope e.file).map (·.size)).sum ≤ ((es.take n).map (·.size)).sum :=
      (List.filter_sublist.map _).sum_le_sum fun _ _ => Nat.zero_le _
    have hsame : ((es.take n).filter fun e => IsEnvelope e.file).map (fun e => e.size) =
        (((es.take n).filter fun e => IsEnvelope e.file).map (·.file)).map
          (fun f => f.size + ((cacheSiblings dir.files f.name).map (·.size)).sum) := by
      rw [List.map_map]
      apply List.map_congr_left
      intro e he
      exact (hfile e (List.mem_of_mem_take (List.mem_filter.mp he).1)).2
    rw [← hsame]
    by_cases hnil : es.take n = []
    · rw [hnil]
      exact Nat.zero_le _
    · have := hsizes hpos hnil
      omega
  case siblings =>
    intro e he f hf hsib
    obtain ⟨q, hq, hk, rfl, henv⟩ := (hkeptMem e).mp he
    exact (hafter f).mpr ⟨hf, fun p hp hk' => hsep p hp hk' q hq hk henv f hf hsib⟩
  case gone =>
    intro e he f hf hsib _ hmem'
    obtain ⟨p, hp, hk, rfl, -⟩ := (hrestMem e).mp he
    have hno := ((hafter f).mp hmem').2 p hp hk
    simp [hits, hsib] at hno
  case overflow =>
    intro name
    rw [hrecorded]
    constructor
    · rintro ⟨p, hp, hfate, rfl⟩
      refine ⟨p.1.file, (hrestMem _).mpr ⟨p, hp, by rw [hfate]; simp, rfl, hover p hp hfate⟩, rfl, ?_⟩
      have hyoung' := (hage p hp).not.mp (by rw [hfate]; simp)
      simpa [tooOld] using hyoung'
    · rintro ⟨f, hf, rfl, hyoung'⟩
      obtain ⟨p, hp, hk, rfl, -⟩ := (hrestMem f).mp hf
      refine ⟨p, hp, ?_, rfl⟩
      have hne : p.2 ≠ .aged := by
        rw [Ne, hage p hp]
        simpa [tooOld] using hyoung'
      cases hfate : p.2 with
      | kept => exact absurd hfate hk
      | aged => exact absurd hfate hne
      | overflow => rfl

end

/-- After `sentry__cleanup_cache` the cache holds a consistent newest set exactly if no file that belongs to
a kept envelope goes with an entry over the limits, and no sibling with the envelope extension is
over the size or the count. -/
theorem cleanup_cache (sort : List CacheEntry → List CacheEntry) (hsort : NewestFirst sort) (limits : CacheLimits)
    (now : Int) (dir : CacheDir) :
    (∃ kept rest, Pruned limits now dir (cleanupCache sort limits now dir.files).1
      (cleanupCache sort limits now dir.files).2 kept rest) ↔
        Separate limits now dir (sort (collectEntries dir.files)) := by
  constructor
  · rintro ⟨kept, rest, h⟩
    exact separate_of_pruned hsort limits now dir h
  · exact pruned_of_separate hsort limits now dir

/-- A sort as the C library may have it. -/
def sortEntries (es : List CacheEntry) : List CacheEntry :=
  es.insertionSort fun a b => b.file.mtime ≤ a.file.mtime

theorem sortEntries_newestFirst : NewestFirst sortEntries := by
  intro es
  have htotal : Std.Total (fun a b : CacheEntry => b.file.mtime ≤ a.file.mtime) := ⟨fun a b => by omega⟩
  have htrans : IsTrans CacheEntry (fun a b => b.file.mtime ≤ a.file.mtime) := ⟨fun a b c hab hbc => by omega⟩
  exact ⟨List.perm_insertionSort _ es, List.pairwise_insertionSort _ es⟩

/-- An event id, `12121212-1212-1212-1212-121212121212`. -/
def sharedId : Uuid := fun _ => 0x12

/-- An envelope under its bare name, one of the same event that is queued for a retry, and a minidump. -/
def sharedFiles : List CacheFile :=
  [⟨sharedId.asString ++ extension, 20, 1⟩, ⟨[49, 45, 48, 48, 45] ++ (sharedId.asString ++ extension), 10, 1⟩,
    ⟨sharedId.asString ++ [46, 100, 109, 112], 20, 1⟩]

def sharedDir : CacheDir where
  files := sharedFiles
  distinct := by decide +kernel
  named := by
    intro f hf
    refine ⟨sharedId, ?_⟩
    simp only [sharedFiles, List.mem_cons, List.not_mem_nil, or_false] at hf
    obtain rfl | rfl | rfl := hf
    · exact Or.inl (Or.inl (makeCachePath_bare 0 sharedId).symm)
    · refine Or.inl (Or.inr ⟨1, 0, by decide, by decide, ?_⟩)
      rw [makeCachePath_uuid, pad2_digit (by decide)]
      simp [printNat, digitByte]
    · exact Or.inr (by decide +kernel)

/-- The theorem for a cache with two envelopes of one event. -/
theorem cleanup_cache_shared : NewestFirst sortEntries ∧
    ((∃ kept rest, Pruned ⟨0, 0, 2⟩ 100 sharedDir (cleanupCache sortEntries ⟨0, 0, 2⟩ 100 sharedDir.files).1
      (cleanupCache sortEntries ⟨0, 0, 2⟩ 100 sharedDir.files).2 kept rest) ↔
        Separate ⟨0, 0, 2⟩ 100 sharedDir (sortEntries (collectEntries sharedDir.files))) :=
  ⟨sortEntries_newestFirst, cleanup_cache sortEntries sortEntries_newestFirst ⟨0, 0, 2⟩ 100 sharedDir⟩

/-- With room for one envelope, the minidump of the newer one goes with the older one. -/
theorem shared_sibling_removed :
    (cleanupCache sortEntries ⟨0, 0, 1⟩ 100 sharedDir.files).1 = [⟨sharedId.asString ++ extension, 20, 1⟩] ∧
      ¬ ∃ kept rest, Pruned ⟨0, 0, 1⟩ 100 sharedDir (cleanupCache sortEntries ⟨0, 0, 1⟩ 100 sharedDir.files).1
        (cleanupCache sortEntries ⟨0, 0, 1⟩ 100 sharedDir.files).2 kept rest := by
  constructor
  · decide +kernel
  · rintro ⟨kept, rest, h⟩
    obtain ⟨hsep, -⟩ := separate_of_pruned sortEntries_newestFirst ⟨0, 0, 1⟩ 100 sharedDir h
    have hfates : fates ⟨0, 0, 1⟩ 100 0 0 (sortEntries (collectEntries sharedDir.files)) =
        [(⟨⟨sharedId.asString ++ extension, 20, 1⟩, 2⟩, .kept),
          (⟨⟨[49, 45, 48, 48, 45] ++ (sharedId.asString ++ extension), 10, 1⟩, 2⟩, .overflow)] := by
      decide +kernel
    rw [hfates] at hsep
    have hmiss := hsep _ (List.mem_cons_of_mem _ List.mem_cons_self) (by decide) _ List.mem_cons_self rfl
      ⟨sharedId, Or.inl (makeCachePath_bare 0 sharedId).symm⟩ ⟨sharedId.asString ++ [46, 100, 109, 112], 20, 1⟩
      (List.mem_cons_of_mem _ (List.mem_cons_of_mem _ List.mem_cons_self)) (by decide +kernel)
    revert hmiss
    decide +kernel

end SentryNative.Retry
