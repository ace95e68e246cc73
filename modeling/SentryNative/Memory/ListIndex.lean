import Mathlib.Data.List.Basic
import Mathlib.Tactic.Ring

/-!
# Lists by index

`reserve` of `sentry_value.c` with the sizes it computes, and the writes of
`sentry_value_set_by_index` into the block that it made. Sizes are words of 64 bits.
A cell that was never written holds nothing, and a buffer without a block is one
without cells.
-/

namespace SentryNative.ListIndex

/-- What a buffer is made of: `sentry_value_t` in a list, `obj_pair_t` in an object. -/
inductive Item where
  | value
  | pair
  deriving DecidableEq, Repr

def Item.size : Item → Nat
  | .value => 8
  | .pair => 16

/-- The calls of `malloc` in one operation. -/
inductive Site where
  /-- `list_clone`: the list. -/
  | clone
  /-- `list_clone`: its items. -/
  | items
  /-- `reserve`. -/
  | grow
  deriving DecidableEq, Repr

inductive Fault where
  /-- A loop does not end. -/
  | hang
  /-- A cell outside of its block was touched, or one was read that was never written. -/
  | memory
  deriving DecidableEq, Repr

structure Buffer (α : Type) where
  block : List (Option α)
  allocated : Nat
  deriving DecidableEq, Repr

variable {α : Type}

/-! ## `reserve` -/

/-- The loop of `reserve`; nothing where it takes more turns. -/
def growLoop (minLen : Nat) : Nat → Nat → Option Nat
  | 0, _ => none
  | turns + 1, n => if n < minLen then growLoop minLen turns (n * 2 % 2 ^ 64) else some n

/-- Where the loop of `reserve` starts. -/
def firstSize (allocated : Nat) : Nat := if allocated = 0 then 16 else allocated

/-- `reserve`. After 64 turns of its loop the size is 0, so one that takes more turns
never ends. -/
def reserve (item : Item) (malloc : Nat → Bool) (buf : Buffer α) (minLen : Nat) :
    Except Fault (Bool × Buffer α) :=
  if minLen ≤ buf.allocated then .ok (true, buf)
  else
    match growLoop minLen 65 (firstSize buf.allocated) with
    | none => .error .hang
    | some n =>
      let bytes := n * item.size % 2 ^ 64
      if malloc bytes then
        let cells := bytes / item.size
        if buf.allocated ≤ buf.block.length ∧ buf.allocated ≤ cells then
          .ok (true, ⟨buf.block.take buf.allocated ++
            List.replicate (cells - buf.allocated) none, n⟩)
        else .error .memory
      else .ok (false, buf)

/-- The block has the cells that the buffer says, and their bytes are a size. -/
structure Buffer.Fits (item : Item) (buf : Buffer α) : Prop where
  cells : buf.block.length = buf.allocated
  bytes : buf.allocated * item.size < 2 ^ 64

/-- A size the loop comes to holds so many items, and its bytes are a size. -/
def Reaches (item : Item) (allocated minLen : Nat) : Prop :=
  ∃ k, minLen ≤ firstSize allocated * 2 ^ k ∧ firstSize allocated * 2 ^ k * item.size < 2 ^ 64

theorem growLoop_ge {m f a n : Nat} (h : growLoop m f a = some n) : m ≤ n := by
  induction f generalizing a with
  | zero => simp [growLoop] at h
  | succ f ih =>
    simp only [growLoop] at h
    split at h
    · exact ih h
    · cases h
      omega

/-- The size before the last doubling was too small, and the doubling was exact. -/
theorem growLoop_last {m f a n : Nat} (ha : a < 2 ^ 64) (h : growLoop m f a = some n) :
    n = a ∨ ∃ p, p < m ∧ n = 2 * p := by
  have hge := growLoop_ge h
  induction f generalizing a with
  | zero => simp [growLoop] at h
  | succ f ih =>
    simp only [growLoop] at h
    split at h
    · rename_i hlt
      rcases ih (Nat.mod_lt _ (by decide)) h with rfl | hp
      · exact .inr ⟨a, hlt, by omega⟩
      · exact .inr hp
    · exact .inl (by simpa using h.symm)

theorem growLoop_lt {m f a n : Nat} (ha : a < 2 ^ 64) (h : growLoop m f a = some n) :
    n < 2 ^ 64 := by
  induction f generalizing a with
  | zero => simp [growLoop] at h
  | succ f ih =>
    simp only [growLoop] at h
    split at h
    · exact ih (Nat.mod_lt _ (by decide)) h
    · cases h
      exact ha

/-- As long as no doubling wraps around, the size is a multiple of the first. -/
theorem growLoop_exact {m f a n : Nat} (ha : a < 2 ^ 64) (h : growLoop m f a = some n) :
    (∃ k, n = a * 2 ^ k) ∨ 2 ^ 63 < m := by
  induction f generalizing a with
  | zero => simp [growLoop] at h
  | succ f ih =>
    simp only [growLoop] at h
    split at h
    · rename_i hlt
      rcases Nat.lt_or_ge (a * 2) (2 ^ 64) with hsmall | hwrap
      · rw [Nat.mod_eq_of_lt hsmall] at h
        rcases ih hsmall h with ⟨k, rfl⟩ | hm
        · exact .inl ⟨k + 1, by ring⟩
        · exact .inr hm
      · exact .inr (by omega)
    · exact .inl ⟨0, by simpa using h.symm⟩

theorem growLoop_mono {m f g a n : Nat} (hfg : f ≤ g) (h : growLoop m f a = some n) :
    growLoop m g a = some n := by
  induction f generalizing g a with
  | zero => simp [growLoop] at h
  | succ f ih =>
    cases g with
    | zero => omega
    | succ g =>
      simp only [growLoop] at h ⊢
      split at h
      · rename_i hlt
        rw [if_pos hlt]
        exact ih (by omega) h
      · rename_i hge
        rw [if_neg hge, h]

theorem growLoop_enough {m a k : Nat} (hm : m ≤ a * 2 ^ k) (hk : a * 2 ^ k < 2 ^ 64) :
    ∃ n, growLoop m (k + 1) a = some n ∧ n ≤ a * 2 ^ k := by
  induction k generalizing a with
  | zero =>
    have hnot : ¬ a < m := by omega
    exact ⟨a, by rw [growLoop, if_neg hnot], by omega⟩
  | succ k ih =>
    have hmul : a * 2 ^ (k + 1) = a * 2 * 2 ^ k := by ring
    rw [hmul] at hm hk ⊢
    have hpos : 0 < 2 ^ k := Nat.pos_of_neZero _
    have hle : a * 2 ≤ a * 2 * 2 ^ k := Nat.le_mul_of_pos_right _ hpos
    by_cases hlt : a < m
    · obtain ⟨n, hn, hle⟩ := ih hm hk
      refine ⟨n, ?_, hle⟩
      rw [growLoop, if_pos hlt, Nat.mod_eq_of_lt (by omega)]
      exact hn
    · exact ⟨a, by rw [growLoop, if_neg hlt], by omega⟩

theorem growLoop_zero {m f n : Nat} (h : growLoop m f 0 = some n) : growLoop m 1 0 = some n := by
  induction f with
  | zero => simp [growLoop] at h
  | succ f ih =>
    simp only [growLoop] at h ⊢
    split at h
    · exact absurd (ih (by simpa using h)) (by simp_all [growLoop])
    · rename_i hge
      rw [if_neg hge, h]

/-- What 65 turns do not end, nothing ends. -/
theorem growLoop_turns {m f a n : Nat} (ha : a < 2 ^ 64) (h : growLoop m f a = some n) :
    growLoop m 65 a = some n := by
  have hgen : ∀ j f a, a < 2 ^ 64 → a * 2 ^ j % 2 ^ 64 = 0 → growLoop m f a = some n →
      growLoop m (j + 1) a = some n := by
    intro j
    induction j with
    | zero =>
      intro f a ha hz h
      obtain rfl : a = 0 := by omega
      exact growLoop_zero h
    | succ j ih =>
      intro f a ha hz h
      cases f with
      | zero => simp [growLoop] at h
      | succ f =>
        rw [growLoop] at h ⊢
        split at h
        · rename_i hlt
          rw [if_pos hlt]
          refine ih f _ (Nat.mod_lt _ (by decide)) ?_ h
          rw [Nat.mod_mul_mod, mul_assoc, ← pow_succ']
          exact hz
        · rename_i hge
          rw [if_neg hge, h]
  exact hgen 64 f a ha (Nat.mul_mod_left _ _) h

theorem firstSize_pos (a : Nat) : 0 < firstSize a := by
  unfold firstSize
  split <;> omega

theorem le_firstSize (a : Nat) : a ≤ firstSize a := by
  unfold firstSize
  split <;> omega

theorem Buffer.Fits.firstSize_bytes {item : Item} {buf : Buffer α} (h : buf.Fits item) :
    firstSize buf.allocated * item.size < 2 ^ 64 := by
  have hb := h.bytes
  unfold firstSize
  split
  · cases item <;> decide
  · exact hb

theorem Item.size_cases (item : Item) : item.size = 8 ∨ item.size = 16 := by
  cases item
  · exact .inl rfl
  · exact .inr rfl

theorem growLoop_reaches {item : Item} {m a : Nat} (h : Reaches item a m) :
    ∃ n, growLoop m 65 (firstSize a) = some n ∧ n * item.size < 2 ^ 64 := by
  obtain ⟨k, hm, hk⟩ := h
  have hsize : 1 ≤ item.size := by rcases item.size_cases with hs | hs <;> omega
  have hlt : firstSize a * 2 ^ k < 2 ^ 64 :=
    lt_of_le_of_lt (Nat.le_mul_of_pos_right _ hsize) hk
  have hpow : 2 ^ k < 2 ^ 64 := lt_of_le_of_lt (Nat.le_mul_of_pos_left _ (firstSize_pos a)) hlt
  have hturns : k + 1 ≤ 65 := by
    have := (Nat.pow_lt_pow_iff_right (by decide)).mp hpow
    omega
  obtain ⟨n, hn, hle⟩ := growLoop_enough hm hlt
  exact ⟨n, growLoop_mono hturns hn, lt_of_le_of_lt (Nat.mul_le_mul_right _ hle) hk⟩

/-- A size whose bytes are a size is one that the loop reached without wrapping. -/
theorem reaches_of_growLoop {item : Item} {m f a n : Nat} (ha : firstSize a < 2 ^ 64)
    (h : growLoop m f (firstSize a) = some n) (hn : n * item.size < 2 ^ 64) :
    Reaches item a m := by
  have hge := growLoop_ge h
  rcases growLoop_exact ha h with ⟨k, rfl⟩ | hm
  · exact ⟨k, hge, hn⟩
  · rcases item.size_cases with hs | hs <;> rw [hs] at hn <;> omega

theorem reserve_held {item : Item} {malloc : Nat → Bool} {buf : Buffer α} {m : Nat}
    (h : m ≤ buf.allocated) : reserve item malloc buf m = .ok (true, buf) := if_pos h

/-- The buffer with a larger block. -/
def Buffer.grown (buf : Buffer α) (n : Nat) : Buffer α :=
  ⟨buf.block ++ List.replicate (n - buf.allocated) none, n⟩

theorem Buffer.Fits.grown {item : Item} {buf : Buffer α} (h : buf.Fits item) {n : Nat}
    (hle : buf.allocated ≤ n) (hn : n * item.size < 2 ^ 64) : (buf.grown n).Fits item where
  cells := by
    simp only [Buffer.grown, List.length_append, List.length_replicate, h.cells]
    omega
  bytes := hn

theorem reserve_reaches {item : Item} {buf : Buffer α} (h : buf.Fits item) {m : Nat}
    (hm : ¬ m ≤ buf.allocated) (hr : Reaches item buf.allocated m) :
    ∃ n, m ≤ n ∧ n * item.size < 2 ^ 64 ∧ ∀ malloc, reserve item malloc buf m =
      .ok (if malloc (n * item.size) then (true, buf.grown n) else (false, buf)) := by
  obtain ⟨n, hn, hbytes⟩ := growLoop_reaches hr
  have hge := growLoop_ge hn
  have hsize : 0 < item.size := by rcases item.size_cases with hs | hs <;> omega
  refine ⟨n, hge, hbytes, fun malloc => ?_⟩
  simp only [reserve, if_neg hm, hn, Nat.mod_eq_of_lt hbytes, Nat.mul_div_cancel _ hsize]
  split
  · rw [if_pos ⟨le_of_eq h.cells.symm, by omega⟩, ← h.cells, List.take_length]
    rw [Buffer.grown, h.cells]
  · rfl

/-- Without it the loop does not end, or the block is too small for the new size. -/
theorem reserve_wraps {item : Item} {buf : Buffer α} (h : buf.Fits item) {m : Nat}
    (hm : ¬ m ≤ buf.allocated) (hr : ¬ Reaches item buf.allocated m) :
    (∀ malloc, reserve item malloc buf m = .error .hang) ∨
      ∃ n p, p < m ∧ n = 2 * p ∧ 2 ^ 64 ≤ n * item.size ∧ n < 2 ^ 64 ∧
        (reserve item (fun _ => true) buf m = .error .memory ∨
          ∃ block, reserve item (fun _ => true) buf m = .ok (true, ⟨block, n⟩) ∧
            block.length = n * item.size % 2 ^ 64 / item.size) := by
  have hfirst : firstSize buf.allocated < 2 ^ 64 := by
    have := h.firstSize_bytes
    rcases item.size_cases with hs | hs <;> rw [hs] at this <;> omega
  cases hg : growLoop m 65 (firstSize buf.allocated) with
  | none =>
    left
    intro malloc
    simp only [reserve, if_neg hm, hg]
  | some n =>
    right
    have hbytes : 2 ^ 64 ≤ n * item.size := by
      by_contra hlt
      exact hr (reaches_of_growLoop hfirst hg (by omega))
    have hlast : ∃ p, p < m ∧ n = 2 * p := by
      rcases growLoop_last hfirst hg with rfl | hp
      · exact absurd h.firstSize_bytes (by omega)
      · exact hp
    obtain ⟨p, hp, hn⟩ := hlast
    refine ⟨n, p, hp, hn, hbytes, growLoop_lt hfirst hg, ?_⟩
    simp only [reserve, if_neg hm, hg, if_true]
    split
    · rename_i hfit
      refine .inr ⟨_, rfl, ?_⟩
      simp only [List.length_append, List.length_take, List.length_replicate, Nat.min_eq_left hfit.1]
      omega
    · exact .inl rfl

/-- `reserve` ends, and where it succeeds the items fit in the block and no product
wrapped around. -/
def Reserves (item : Item) (buf : Buffer α) (minLen : Nat) : Prop :=
  ∀ malloc, ∃ ok buf', reserve item malloc buf minLen = .ok (ok, buf') ∧
    (ok = true → minLen ≤ buf'.allocated ∧ buf'.Fits item)

theorem reserves_iff {item : Item} {buf : Buffer α} (h : buf.Fits item) (m : Nat) :
    Reserves item buf m ↔ m ≤ buf.allocated ∨ Reaches item buf.allocated m := by
  by_cases hm : m ≤ buf.allocated
  · exact iff_of_true (fun malloc => ⟨true, buf, reserve_held hm, fun _ => ⟨hm, h⟩⟩) (.inl hm)
  by_cases hr : Reaches item buf.allocated m
  · refine iff_of_true (fun malloc => ?_) (.inr hr)
    obtain ⟨n, hge, hbytes, hrun⟩ := reserve_reaches h hm hr
    rw [hrun malloc]
    split
    · exact ⟨true, _, rfl, fun _ => ⟨hge, h.grown (by omega) hbytes⟩⟩
    · exact ⟨false, buf, rfl, fun hok => by cases hok⟩
  · refine iff_of_false (fun hres => ?_) (by rintro (h1 | h1) <;> contradiction)
    rcases reserve_wraps h hm hr with hhang | ⟨n, p, hp, hn, hbytes, hlt, hmem | ⟨block, hok, hlen⟩⟩
    · obtain ⟨ok, buf', hrun, -⟩ := hres fun _ => true
      rw [hhang] at hrun
      cases hrun
    · obtain ⟨ok, buf', hrun, -⟩ := hres fun _ => true
      rw [hmem] at hrun
      cases hrun
    · obtain ⟨ok, buf', hrun, hfits⟩ := hres fun _ => true
      rw [hok] at hrun
      cases hrun
      exact absurd (hfits rfl).2.bytes (by simpa using hbytes)

/-! ## Lists -/

/-- `list_t`. -/
structure ListT (α : Type) extends Buffer α where
  len : Nat
  refcount : Nat
  deriving DecidableEq, Repr

/-- A `thing_t` of a list. -/
structure Thing (α : Type) where
  frozen : Bool
  list : ListT α
  deriving DecidableEq, Repr

/-- `list_clone`. -/
def listClone (malloc : Site → Nat → Bool) (l : ListT α) : Except Fault (Option (ListT α)) :=
  if !malloc .clone 32 then .ok none
  else if l.len = 0 then .ok (some ⟨⟨[], 0⟩, 0, 1⟩)
  else
    let bytes := 8 * l.len % 2 ^ 64
    if !malloc .items bytes then .ok none
    else if l.len ≤ l.block.length ∧ l.len ≤ bytes / 8 then
      .ok (some ⟨⟨l.block.take l.len ++ List.replicate (bytes / 8 - l.len) none, l.len⟩, l.len, 1⟩)
    else .error .memory

/-- `thing_detach` of a list. -/
def thingDetach (malloc : Site → Nat → Bool) (l : ListT α) : Except Fault (Option (ListT α)) :=
  if l.refcount ≤ 1 then .ok (some l) else listClone malloc l

/-- The loop that fills new items with null. -/
def fillNull (null : α) : Nat → Nat → List (Option α) → Except Fault (List (Option α))
  | _, 0, block => .ok block
  | i, count + 1, block =>
    if i < block.length then fillNull null (i + 1) count (block.set i (some null))
    else .error .memory

/-- What an operation returns, the list after it, and the value whose reference it
dropped. -/
structure Outcome (α : Type) where
  rv : Nat
  thing : Thing α
  dropped : α
  deriving DecidableEq, Repr

/-- The items up to `i`, and how many they are. -/
def padItems (null : α) (l : ListT α) (i : Nat) : Except Fault (List (Option α) × Nat) :=
  if l.len ≤ i then
    (fillNull null l.len ((i + 1) % 2 ^ 64 - l.len) l.block).map fun block =>
      (block, (i + 1) % 2 ^ 64)
  else .ok (l.block, l.len)

/-- The writes of `sentry_value_set_by_index` after `reserve`. -/
def writeAt (null : α) (t : Thing α) (l : ListT α) (i : Nat) (v : α) : Except Fault (Outcome α) := do
  let (block, len) ← padItems null l i
  match block[i]? with
  | some (some old) =>
    return ⟨0, { t with list := { l with block := block.set i (some v), len } }, old⟩
  | _ => .error .memory

/-- `sentry_value_set_by_index`. -/
def setByIndex (null : α) (malloc : Site → Nat → Bool) (t : Thing α) (i : Nat) (v : α) :
    Except Fault (Outcome α) := do
  if t.frozen then return ⟨1, t, v⟩
  match ← thingDetach malloc t.list with
  | none => return ⟨1, t, v⟩
  | some l =>
    let (ok, buf) ← reserve .value (malloc .grow) l.toBuffer ((i + 1) % 2 ^ 64)
    let l := { l with toBuffer := buf }
    if ok then writeAt null t l i v
    else return ⟨1, { t with list := l }, v⟩

/-- The list has these elements, in a block that holds them. -/
structure ListT.Holds (l : ListT α) (xs : List α) : Prop where
  fits : l.toBuffer.Fits .value
  len : l.len = xs.length
  room : l.len ≤ l.allocated
  cells : l.block.take l.len = xs.map some

/-- The items that the list has room for once it is its own. -/
def Thing.capacity (t : Thing α) : Nat :=
  if t.list.refcount ≤ 1 then t.list.allocated else t.list.len

/-- The elements, with null up to `i`. -/
def padded (null : α) (xs : List α) (i : Nat) : List α :=
  xs ++ List.replicate (i + 1 - xs.length) null

/-- Item `i` is set and every older item is kept, with null between them. -/
structure ItemSet (null : α) (xs : List α) (i : Nat) (v : α) (ys : List α) : Prop where
  length : ys.length = max xs.length (i + 1)
  item : ys[i]? = some v
  old : ∀ j, j < xs.length → j ≠ i → ys[j]? = xs[j]?
  gap : ∀ j, xs.length ≤ j → j < i → ys[j]? = some null

/-- Without a fault, and then with nothing changed or with all of it done. -/
def Outcome.Exact (null : α) (xs : List α) (t : Thing α) (i : Nat) (v : α) (r : Outcome α) : Prop :=
  r.thing.frozen = t.frozen ∧
    ((r.rv ≠ 0 ∧ r.thing.list.Holds xs ∧ r.dropped = v) ∨
      (r.rv = 0 ∧ (∃ ys, r.thing.list.Holds ys ∧ ItemSet null xs i v ys) ∧
        r.dropped = xs.getD i null))

theorem length_padded (null : α) (xs : List α) (i : Nat) :
    (padded null xs i).length = max xs.length (i + 1) := by
  simp only [padded, List.length_append, List.length_replicate]
  omega

theorem itemSet_padded (null : α) (xs : List α) (i : Nat) (v : α) :
    ItemSet null xs i v ((padded null xs i).set i v) where
  length := by rw [List.length_set, length_padded]
  item := List.getElem?_set_self (by rw [length_padded]; omega)
  old j hj hne := by
    rw [List.getElem?_set_ne (Ne.symm hne), padded, List.getElem?_append_left hj]
  gap j hj hi := by
    rw [List.getElem?_set_ne (by omega), padded, List.getElem?_append_right hj]
    exact List.getElem?_replicate_of_lt (by omega)

theorem fillNull_ok (null : α) {i count : Nat} {block : List (Option α)}
    (h : i + count ≤ block.length) :
    fillNull null i count block =
      .ok (block.take i ++ List.replicate count (some null) ++ block.drop (i + count)) := by
  induction count generalizing i block with
  | zero => simp [fillNull]
  | succ count ih =>
    rw [fillNull, if_pos (by omega), ih (by simpa using by omega)]
    congr 1
    rw [List.take_set, List.drop_set_of_lt (by omega), List.take_add_one,
      List.getElem?_eq_getElem (by omega), List.set_append_right _ _ (by simp),
      List.replicate_succ, show i + 1 + count = i + (count + 1) by omega]
    simp [Nat.min_eq_left (show i ≤ block.length by omega)]

theorem fillNull_length {null : α} {i count : Nat} {block block' : List (Option α)}
    (h : fillNull null i count block = .ok block') : block'.length = block.length := by
  induction count generalizing i block with
  | zero => cases h; rfl
  | succ count ih =>
    rw [fillNull] at h
    split at h
    · rw [ih h, List.length_set]
    · cases h

theorem getElem?_padded (null : α) (xs : List α) (i : Nat) :
    (padded null xs i)[i]? = some (xs.getD i null) := by
  rw [padded, List.getD_eq_getElem?_getD]
  rcases Nat.lt_or_ge i xs.length with hlt | hge
  · rw [List.getElem?_append_left hlt, List.getElem?_eq_getElem hlt, Option.getD_some]
  · rw [List.getElem?_append_right hge, List.getElem?_eq_none hge, Option.getD_none]
    exact List.getElem?_replicate_of_lt (by omega)

theorem ListT.Holds.block_eq {l : ListT α} {xs : List α} (h : l.Holds xs) :
    l.block = xs.map some ++ l.block.drop xs.length := by
  conv_lhs => rw [← List.take_append_drop l.len l.block, h.cells, h.len]

theorem padItems_of_holds (null : α) {l : ListT α} {xs : List α} (h : l.Holds xs) {i : Nat}
    (hi : i < l.allocated) :
    padItems null l i =
      .ok ((padded null xs i).map some ++ l.block.drop (padded null xs i).length,
        (padded null xs i).length) := by
  have hbytes := h.fits.bytes
  have hcells := h.fits.cells
  simp only [Item.size] at hbytes
  have hlen : (padded null xs i).length = max l.len (i + 1) := by rw [length_padded, h.len]
  rw [hlen, padItems]
  split
  · rename_i hle
    rw [Nat.mod_eq_of_lt (by omega), fillNull_ok null (by omega), h.cells,
      show l.len + (i + 1 - l.len) = i + 1 by omega, Nat.max_eq_right (by omega)]
    simp only [padded, List.map_append, List.map_replicate, h.len]
    rfl
  · rename_i hlt
    have hxs : padded null xs i = xs := by
      rw [padded, show i + 1 - xs.length = 0 by have := h.len; omega]
      exact List.append_nil xs
    rw [Nat.max_eq_left (by omega), hxs, h.len, ← h.block_eq]

theorem writeAt_inside (null : α) (t : Thing α) {l : ListT α} {xs : List α} (h : l.Holds xs)
    {i : Nat} (hi : i < l.allocated) (v : α) :
    ∃ l' : ListT α, (∃ ys, l'.Holds ys ∧ ItemSet null xs i v ys) ∧
      writeAt null t l i v = .ok ⟨0, { t with list := l' }, xs.getD i null⟩ := by
  have hlen : (padded null xs i).length ≤ l.block.length := by
    have := h.fits.cells
    have := h.room
    have := h.len
    rw [length_padded]
    omega
  have hlt : i < (padded null xs i).length := by
    rw [length_padded]
    omega
  have hget : ((padded null xs i).map some ++ l.block.drop (padded null xs i).length)[i]? =
      some (some (xs.getD i null)) := by
    rw [List.getElem?_append_left (by simpa using hlt), List.getElem?_map, getElem?_padded]
    rfl
  have hcells := h.fits.cells
  refine ⟨{ l with
      block := ((padded null xs i).map some ++ l.block.drop (padded null xs i).length).set i (some v)
      len := (padded null xs i).length },
    ⟨(padded null xs i).set i v, ⟨⟨?_, h.fits.bytes⟩, ?_, ?_, ?_⟩, itemSet_padded null xs i v⟩, ?_⟩
  · simp only [List.length_set, List.length_append, List.length_map, List.length_drop]
    omega
  · exact (List.length_set).symm
  · dsimp only
    omega
  · dsimp only
    rw [List.set_append_left _ _ (by simpa using hlt), List.take_append_of_le_length (by simp),
      List.take_of_length_le (by simp), List.map_set]
  · rw [writeAt, padItems_of_holds null h hi]
    simp only [bind, Except.bind, hget]
    rfl

theorem padItems_length {null : α} {l : ListT α} {i : Nat} {p : List (Option α) × Nat}
    (h : padItems null l i = .ok p) : p.1.length = l.block.length := by
  rw [padItems] at h
  split at h
  · cases hf : fillNull null l.len ((i + 1) % 2 ^ 64 - l.len) l.block with
    | error f =>
      rw [hf] at h
      cases h
    | ok block =>
      rw [hf] at h
      cases h
      exact fillNull_length hf
  · cases h
    rfl

theorem writeAt_outside {null : α} {t : Thing α} {l : ListT α} {i : Nat} {v : α} {r : Outcome α}
    (hi : l.block.length ≤ i) : writeAt null t l i v ≠ .ok r := by
  intro hrun
  cases hp : padItems null l i with
  | error f => simp [writeAt, hp, bind, Except.bind] at hrun
  | ok p =>
    have hlen := padItems_length hp
    have hnone : p.1[i]? = none := List.getElem?_eq_none (by omega)
    simp [writeAt, hp, bind, Except.bind, hnone] at hrun

theorem ListT.Holds.of_clone (xs : List α) (n : Nat) (hn : n = xs.length) (hb : n * 8 < 2 ^ 64) :
    (⟨⟨xs.map some, n⟩, n, 1⟩ : ListT α).Holds xs where
  fits := ⟨by rw [List.length_map, hn], hb⟩
  len := hn
  room := Nat.le_refl _
  cells := by rw [hn]; exact List.take_of_length_le (by simp)

theorem listClone_ok (malloc : Site → Nat → Bool) {l : ListT α} {xs : List α} (h : l.Holds xs) :
    listClone malloc l = .ok none ∨ ∃ l' : ListT α, listClone malloc l = .ok (some l') ∧
      l'.Holds xs ∧ l'.allocated = l.len := by
  have hcells := h.fits.cells
  have hbytes := h.fits.bytes
  have hroom := h.room
  simp only [Item.size] at hbytes
  unfold listClone
  split
  · exact .inl rfl
  · split
    · rename_i hz
      obtain rfl : xs = [] := List.length_eq_zero_iff.mp (by rw [← h.len, hz])
      exact .inr ⟨_, rfl, .of_clone [] 0 rfl (by decide), hz.symm⟩
    · have hdiv : 8 * l.len % 2 ^ 64 / 8 = l.len := by omega
      dsimp only
      split
      · exact .inl rfl
      · rw [hdiv, if_pos ⟨by omega, Nat.le_refl _⟩, Nat.sub_self, List.replicate_zero,
          List.append_nil, h.cells]
        exact .inr ⟨_, rfl, .of_clone xs l.len h.len (by omega), rfl⟩

theorem thingDetach_ok (malloc : Site → Nat → Bool) {t : Thing α} {xs : List α}
    (h : t.list.Holds xs) :
    thingDetach malloc t.list = .ok none ∨ ∃ l : ListT α,
      thingDetach malloc t.list = .ok (some l) ∧ l.Holds xs ∧ l.allocated = t.capacity := by
  unfold thingDetach Thing.capacity
  split
  · exact .inr ⟨t.list, rfl, h, rfl⟩
  · exact listClone_ok malloc h

/-- Where every call of `malloc` gives a block, the list becomes its own. -/
theorem thingDetach_granted {t : Thing α} {xs : List α} (h : t.list.Holds xs) :
    ∃ l : ListT α, thingDetach (fun _ _ => true) t.list = .ok (some l) ∧ l.Holds xs ∧
      l.allocated = t.capacity := by
  rcases thingDetach_ok (fun _ _ => true) h with hnone | hsome
  · simp only [thingDetach, listClone] at hnone
    split at hnone
    · cases hnone
    · simp only [Bool.not_true, Bool.false_eq_true, ↓reduceIte] at hnone
      split at hnone
      · cases hnone
      · split at hnone <;> cases hnone
  · exact hsome

/-- The loop of `reserve` gets to a size that has an item `i`, with bytes that are a
size, or the list has room for it already. -/
def Thing.Within (t : Thing α) (i : Nat) : Prop :=
  i < t.capacity ∨ Reaches .value t.capacity (i + 1)

/-- `sentry_value_set_by_index` ends without a fault, and sets the item or nothing. -/
def Sets (null : α) (xs : List α) (t : Thing α) (i : Nat) (v : α) : Prop :=
  ∀ malloc, ∃ r, setByIndex null malloc t i v = .ok r ∧ r.Exact null xs t i v

theorem Reaches.lt {a m : Nat} (h : Reaches .value a m) : m < 2 ^ 61 := by
  obtain ⟨k, hm, hk⟩ := h
  simp only [Item.size] at hk
  omega

theorem Buffer.Holds.grown {l : ListT α} {xs : List α} (h : l.Holds xs) {n : Nat}
    (hle : l.allocated ≤ n) (hn : n * 8 < 2 ^ 64) :
    ({ l with toBuffer := l.toBuffer.grown n } : ListT α).Holds xs where
  fits := h.fits.grown hle hn
  len := h.len
  room := h.room.trans hle
  cells := by
    have hcells := h.fits.cells
    have hroom := h.room
    exact (List.take_append_of_le_length (show l.len ≤ l.block.length by omega)).trans h.cells

theorem setByIndex_within (null : α) {t : Thing α} {xs : List α} (h : t.list.Holds xs) {i : Nat}
    (hi : t.Within i) (v : α) : Sets null xs t i v := by
  intro malloc
  unfold setByIndex
  split
  · exact ⟨_, rfl, rfl, .inl ⟨Nat.one_ne_zero, h, rfl⟩⟩
  rcases thingDetach_ok malloc h with hnone | ⟨l, hsome, hl, hcap⟩
  · simp only [hnone, bind, Except.bind]
    exact ⟨_, rfl, rfl, .inl ⟨Nat.one_ne_zero, h, rfl⟩⟩
  simp only [hsome, bind, Except.bind]
  have hword : (i + 1) % 2 ^ 64 = i + 1 := by
    have hbytes := hl.fits.bytes
    simp only [Item.size] at hbytes
    rcases hi with hlt | hr
    · omega
    · have := hr.lt
      omega
  rw [hword]
  by_cases hheld : i + 1 ≤ l.allocated
  · rw [reserve_held hheld]
    obtain ⟨l', hl', hrun⟩ := writeAt_inside null t hl (show i < l.allocated by omega) v
    exact ⟨_, hrun, rfl, .inr ⟨rfl, hl', rfl⟩⟩
  have hr : Reaches .value l.allocated (i + 1) := by
    rw [hcap] at hheld ⊢
    exact hi.resolve_left (by omega)
  obtain ⟨n, hge, hbytes, hrun⟩ := reserve_reaches hl.fits hheld hr
  rw [hrun]
  cases hg : malloc .grow (n * Item.value.size) with
  | true =>
    obtain ⟨l', hl', hrun⟩ :=
      writeAt_inside null t (Buffer.Holds.grown hl (by omega) hbytes) (show i < n by omega) v
    exact ⟨_, hrun, rfl, .inr ⟨rfl, hl', rfl⟩⟩
  | false => exact ⟨_, rfl, rfl, .inl ⟨Nat.one_ne_zero, hl, rfl⟩⟩

/-- Elsewhere the write does not come to an end, or it is outside of the block. -/
theorem setByIndex_beyond (null : α) {t : Thing α} {xs : List α} (h : t.list.Holds xs)
    (hf : t.frozen = false) {i : Nat} (hi : ¬ t.Within i) (v : α) (r : Outcome α) :
    setByIndex null (fun _ _ => true) t i v ≠ .ok r := by
  intro hrun
  obtain ⟨l, hsome, hl, hcap⟩ := thingDetach_granted h
  have hcells := hl.fits.cells
  have hnot : ¬ i < l.allocated ∧ ¬ Reaches .value l.allocated (i + 1) := by
    rw [hcap]
    exact not_or.mp hi
  simp only [setByIndex, hf, Bool.false_eq_true, ↓reduceIte, hsome, bind, Except.bind] at hrun
  by_cases hheld : (i + 1) % 2 ^ 64 ≤ l.allocated
  · rw [reserve_held hheld] at hrun
    exact writeAt_outside (l := l) (by omega) hrun
  by_cases hr : Reaches .value l.allocated ((i + 1) % 2 ^ 64)
  · obtain ⟨n, hge, hbytes, hres⟩ := reserve_reaches hl.fits hheld hr
    have hlen := (hl.fits.grown (show l.allocated ≤ n by omega) hbytes).cells
    simp only [Item.size] at hbytes
    rw [hres] at hrun
    have hwrap : (i + 1) % 2 ^ 64 ≠ i + 1 := fun heq => hnot.2 (heq ▸ hr)
    exact writeAt_outside (l := { l with toBuffer := l.toBuffer.grown n })
      (show (l.toBuffer.grown n).block.length ≤ i by rw [hlen]; dsimp only [Buffer.grown]; omega) hrun
  · rcases reserve_wraps hl.fits hheld hr with hhang | ⟨n, p, hp, hn, hbytes, hlt, hmem | ⟨block, hok, hlen⟩⟩
    · rw [hhang] at hrun
      cases hrun
    · rw [hmem] at hrun
      cases hrun
    · rw [hok] at hrun
      simp only [Item.size] at hlen hbytes
      exact writeAt_outside (l := { l with block := block, allocated := n })
        (show block.length ≤ i by omega) hrun

/-- A list sets the item, and a buffer of either kind reserves the length, exactly
where the loop of `reserve` gets to a size without a wrap. -/
theorem set_by_index_exact (null : α) (t : Thing α) (xs : List α) (h : t.list.Holds xs) (i : Nat)
    (v : α) (item : Item) (buf : Buffer α) (hb : buf.Fits item) (minLen : Nat) :
    (Sets null xs t i v ↔ t.frozen = true ∨ t.Within i) ∧
      (Reserves item buf minLen ↔ minLen ≤ buf.allocated ∨ Reaches item buf.allocated minLen) := by
  refine ⟨⟨fun hsets => ?_, ?_⟩, reserves_iff hb minLen⟩
  · by_contra hnot
    obtain ⟨hf, hi⟩ := not_or.mp hnot
    obtain ⟨r, hrun, -⟩ := hsets fun _ _ => true
    exact setByIndex_beyond null h (by simpa using hf) hi v r hrun
  · rintro (hf | hi)
    · intro malloc
      exact ⟨⟨1, t, v⟩, by simp [setByIndex, hf, pure, Except.pure], rfl,
        .inl ⟨Nat.one_ne_zero, h, rfl⟩⟩
    · exact setByIndex_within null h hi v

/-- `sentry_value_remove_by_index`, with the value whose reference it dropped. -/
def removeByIndex (malloc : Site → Nat → Bool) (t : Thing α) (i : Nat) :
    Except Fault (Nat × Thing α × Option α) := do
  if t.frozen then return (1, t, none)
  match ← thingDetach malloc t.list with
  | none => return (1, t, none)
  | some l =>
    if l.len ≤ i then return (0, { t with list := l }, none)
    else
      match l.block[i]? with
      | some (some old) =>
        let block := l.block.take i ++ (l.block.take l.len).drop (i + 1) ++ l.block.drop (l.len - 1)
        return (0, { t with list := { l with block, len := l.len - 1 } }, some old)
      | _ => .error .memory

/-- To remove an item needs no block, and it always ends. -/
theorem removeByIndex_ok (malloc : Site → Nat → Bool) {t : Thing α} {xs : List α}
    (h : t.list.Holds xs) (i : Nat) :
    ∃ rv t' dropped, removeByIndex malloc t i = .ok (rv, t', dropped) ∧
      ((rv ≠ 0 ∧ t' = t ∧ dropped = none) ∨
        (rv = 0 ∧ t'.list.Holds (xs.eraseIdx i) ∧ dropped = xs[i]?)) := by
  unfold removeByIndex
  split
  · exact ⟨1, t, none, rfl, .inl ⟨Nat.one_ne_zero, rfl, rfl⟩⟩
  rcases thingDetach_ok malloc h with hnone | ⟨l, hsome, hl, -⟩
  · simp only [hnone, bind, Except.bind]
    exact ⟨1, t, none, rfl, .inl ⟨Nat.one_ne_zero, rfl, rfl⟩⟩
  simp only [hsome, bind, Except.bind]
  have hlen := hl.len
  split
  · rename_i hle
    refine ⟨0, _, none, rfl, .inr ⟨rfl, ?_, (List.getElem?_eq_none (by omega)).symm⟩⟩
    rw [List.eraseIdx_of_length_le (by omega)]
    exact hl
  · rename_i hlt
    have hcells := hl.fits.cells
    have hroom := hl.room
    obtain ⟨x, hx⟩ : ∃ x, xs[i]? = some x :=
      Option.ne_none_iff_exists'.mp (by rw [ne_eq, List.getElem?_eq_none_iff]; omega)
    have hget : l.block[i]? = some (some x) := by
      rw [hl.block_eq, List.getElem?_append_left (by simp; omega), List.getElem?_map, hx]
      rfl
    have herase : l.block.take i ++ (l.block.take l.len).drop (i + 1) =
        (xs.eraseIdx i).map some := by
      rw [← Nat.min_eq_left (show i ≤ l.len by omega), ← List.take_take, hl.cells, List.eraseIdx_eq_take_drop_succ,
        List.map_append, List.map_take, List.map_drop, Nat.min_eq_left (by omega)]
    rw [hget]
    refine ⟨0, _, _, rfl, .inr ⟨rfl, ⟨⟨?_, hl.fits.bytes⟩, ?_, ?_, ?_⟩, hx.symm⟩⟩
    · simp only [List.length_append, List.length_take, List.length_drop]
      omega
    · rw [List.length_eraseIdx_of_lt (by omega), hlen]
    · dsimp only
      omega
    · dsimp only
      rw [herase, List.take_append_of_le_length, List.take_of_length_le] <;>
        simp [List.length_eraseIdx_of_lt (show i < xs.length by omega), hlen]

/-- The list of no items, as `sentry_value_new_list` makes it. -/
def newList (α : Type) : Thing α := ⟨false, ⟨⟨[], 0⟩, 0, 1⟩⟩

theorem newList_holds : (newList α).list.Holds [] := .of_clone [] 0 rfl (by decide)

theorem set_by_index_exact_new :
    (newList Nat).list.Holds [] ∧ (⟨[], 0⟩ : Buffer Nat).Fits .pair ∧
      (Sets 0 [] (newList Nat) 20 7 ↔ false = true ∨ (newList Nat).Within 20) ∧
      (Reserves (α := Nat) .pair ⟨[], 0⟩ 40 ↔ 40 ≤ 0 ∨ Reaches .pair 0 40) :=
  have hb : (⟨[], 0⟩ : Buffer Nat).Fits .pair := ⟨rfl, by decide⟩
  ⟨newList_holds, hb, set_by_index_exact 0 _ [] newList_holds 20 7 .pair _ hb 40⟩

/-- `2 ^ 63 + 1` items are more than any power of two that is a size, and the last
index wraps around to no items at all. -/
theorem set_by_index_wraps :
    (newList Nat).list.Holds [] ∧
      ((∀ malloc, setByIndex 0 malloc (newList Nat) (2 ^ 63) 7 = .error .hang) ∧
        (∀ turns, growLoop (2 ^ 63 + 1) turns 16 = none) ∧
        ¬ Sets 0 [] (newList Nat) (2 ^ 63) 7) ∧
      (∀ malloc, setByIndex 0 malloc (newList Nat) (2 ^ 64 - 1) 7 = .error .memory) ∧
      ¬ Sets 0 [] (newList Nat) (2 ^ 64 - 1) 7 := by
  have hhang : ∀ malloc, setByIndex 0 malloc (newList Nat) (2 ^ 63) 7 = .error .hang :=
    fun malloc => by rfl
  have hmem : ∀ malloc, setByIndex 0 malloc (newList Nat) (2 ^ 64 - 1) 7 = .error .memory :=
    fun malloc => by rfl
  refine ⟨newList_holds, ⟨hhang, fun turns => ?_, fun hsets => ?_⟩, hmem, fun hsets => ?_⟩
  rotate_left
  · obtain ⟨r, hrun, -⟩ := hsets fun _ _ => true
    rw [hhang] at hrun
    cases hrun
  · obtain ⟨r, hrun, -⟩ := hsets fun _ _ => true
    rw [hmem] at hrun
    cases hrun
  cases hg : growLoop (2 ^ 63 + 1) turns 16 with
  | none => rfl
  | some n =>
    have hlast := growLoop_turns (by decide) hg
    have hnone : growLoop (2 ^ 63 + 1) 65 16 = none := by decide
    rw [hnone] at hlast
    cases hlast

end SentryNative.ListIndex
