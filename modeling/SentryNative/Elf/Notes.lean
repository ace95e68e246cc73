import SentryNative.Lib.Addresses
import SentryNative.Lib.FileBytes

/-!
# ELF notes

`sentry__elf_find_note` walks the notes of a buffer in 64-bit arithmetic on sizes that come from
the buffer itself. A read outside of the memory it is given and a walk that does not end are faults.

* `findNote_eq`: it finds the first note of the given type and name of those laid out in the buffer.
-/

namespace SentryNative.Elf

open CLib

inductive Fault where
  | read
  | unfinished
  deriving DecidableEq, Repr

/-- Memory that can be read, from its first address on. -/
structure Region where
  base : Nat
  bytes : Bytes

def Region.load (r : Region) (addr size : Nat) : Except Fault Bytes :=
  if size = 0 ∨ r.base ≤ addr ∧ addr + size ≤ r.base + r.bytes.length then .ok (pread r.bytes size (addr - r.base))
  else .error .read

def add64 (a b : Nat) : Nat := (a + b) % wordCount
def sub64 (a b : Nat) : Nat := (a + (wordCount - b)) % wordCount

/-- `(n + mask) & ~mask` -/
def alignUp64 (mask n : Nat) : Nat := add64 n mask &&& (wordCount - 1 - mask)

/-- A pointer and the number of bytes behind it. -/
structure Span where
  addr : Nat
  size : Nat
  deriving DecidableEq, Repr

/-- `sizeof(Elf64_Nhdr)`, which is that of `Elf32_Nhdr`. -/
def nhdrSize : Nat := 12

section

variable (r : Region) (buf bufSize mask type : Nat) (name : Bytes)

/-- The comparison of a note's type and name; the name is only read where its size is right. -/
def noteMatches (noteType nameSize offset : Nat) : Except Fault Bool :=
  if noteType = type ∧ nameSize = name.length then
    (r.load (add64 buf offset) name.length).map fun got => got == name
  else .ok false

/-- The loop of `sentry__elf_find_note`. -/
def noteWalk : Nat → Nat → Except Fault (Option Span)
  | 0, _ => .error .unfinished
  | fuel + 1, offset =>
    if sub64 bufSize offset < nhdrSize then .ok none
    else
      (r.load (add64 buf offset) nhdrSize).bind fun note =>
        let nameSize := ofLe (pread note 4 0)
        let descSize := ofLe (pread note 4 4)
        let nameStart := add64 offset nhdrSize
        let descStart := alignUp64 mask (add64 nameStart nameSize)
        if nameSize > wordCount - 1 - mask ∨ descSize > wordCount - 1 - mask then .ok none
        else if nameSize > sub64 bufSize nameStart then .ok none
        else if descStart > bufSize then .ok none
        else if descSize > sub64 bufSize descStart then .ok none
        else
          (noteMatches r buf type name (ofLe (pread note 4 8)) nameSize nameStart).bind fun found =>
            let next := alignUp64 mask (add64 descStart descSize)
            if found then .ok (some ⟨add64 buf descStart, descSize⟩)
            else if next > bufSize then .ok none
            else noteWalk fuel next

end

/-- The alignment that is used, if it is one that notes can have. -/
def noteAlignment (alignment : Nat) : Option Nat :=
  if alignment < 4 then some 4 else if alignment ≠ 4 ∧ alignment ≠ 8 then none else some alignment

/-- `sentry__elf_find_note`. A walk that has not ended when it could have been at every offset does
not end. -/
def findNote (r : Region) (buf bufSize alignment type : Nat) (name : Bytes) : Except Fault (Option Span) :=
  if buf = 0 then .ok none
  else
    match noteAlignment alignment with
    | none => .ok none
    | some a => noteWalk r buf bufSize (a - 1) type name (bufSize + 1) 0

/-! ## The format -/

def alignUp (a n : Nat) : Nat := n + (a - n % a) % a

theorem le_alignUp (a n : Nat) : n ≤ alignUp a n := Nat.le_add_right _ _

/-- A note, with the offset of its descriptor in the buffer. -/
structure Note where
  type : Nat
  name : Bytes
  descOff : Nat
  desc : Bytes
  deriving DecidableEq, Repr

/-- The note at an offset, if it is in the buffer. -/
def noteAt (a : Nat) (b : Bytes) (off : Nat) : Option Note :=
  let nameSize := ofLe (pread b 4 off)
  let descSize := ofLe (pread b 4 (off + 4))
  let descOff := alignUp a (off + nhdrSize + nameSize)
  if off + nhdrSize ≤ b.length ∧ descOff + descSize ≤ b.length then
    some ⟨ofLe (pread b 4 (off + 8)), pread b nameSize (off + nhdrSize), descOff, pread b descSize descOff⟩
  else none

/-- Where the next note begins. -/
def Note.next (a : Nat) (n : Note) : Nat := alignUp a (n.descOff + n.desc.length)

theorem noteAt_next {a off : Nat} {b : Bytes} {n : Note} (h : noteAt a b off = some n) :
    off + nhdrSize ≤ n.next a ∧ off + nhdrSize ≤ b.length := by
  simp only [noteAt, Option.ite_none_right_eq_some, Option.some.injEq] at h
  obtain ⟨⟨hin, -⟩, rfl⟩ := h
  refine ⟨?_, hin⟩
  calc off + nhdrSize ≤ off + nhdrSize + ofLe (pread b 4 off) := Nat.le_add_right _ _
    _ ≤ alignUp a (off + nhdrSize + ofLe (pread b 4 off)) := le_alignUp _ _
    _ ≤ _ := Nat.le_add_right _ _
    _ ≤ _ := le_alignUp a _

/-- The notes one after another, up to one that is not in the buffer. -/
def notes (a : Nat) (b : Bytes) (off : Nat) : List Note :=
  match _h : noteAt a b off with
  | none => []
  | some n => n :: notes a b (n.next a)
termination_by b.length - off
decreasing_by
  have hnext := noteAt_next _h
  simp only [nhdrSize] at hnext
  omega

theorem notes_none {a off : Nat} {b : Bytes} (h : noteAt a b off = none) : notes a b off = [] := by
  rw [notes]
  split
  · rfl
  · simp_all

theorem notes_some {a off : Nat} {b : Bytes} {n : Note} (h : noteAt a b off = some n) :
    notes a b off = n :: notes a b (n.next a) := by
  rw [notes]
  split <;> simp_all

/-- The descriptor of a note lies in the buffer. -/
theorem desc_in {a off : Nat} {b : Bytes} {n : Note} (h : n ∈ notes a b off) : n.descOff + n.desc.length ≤ b.length := by
  induction off using notes.induct a b with
  | case1 off hnone =>
    rw [notes_none hnone] at h
    cases h
  | case2 off m hm ih =>
    rw [notes_some hm] at h
    rcases List.mem_cons.1 h with rfl | h
    · simp only [noteAt, Option.ite_none_right_eq_some, Option.some.injEq] at hm
      obtain ⟨⟨-, hin⟩, rfl⟩ := hm
      rw [length_pread hin]
      exact hin
    · exact ih h

/-- The first note of a type and a name. -/
def Note.first (a : Nat) (b : Bytes) (type : Nat) (name : Bytes) : Option Note :=
  (notes a b 0).find? fun n => n.type = type ∧ n.name = name

/-! ## The walk finds it -/

theorem add64_eq {a b : Nat} (h : a + b < wordCount) : add64 a b = a + b := Nat.mod_eq_of_lt h

theorem sub64_eq {a b : Nat} (h : b ≤ a) (hlt : a < wordCount) : sub64 a b = a - b := by
  have heq : a + (wordCount - b) = a - b + wordCount := by omega
  unfold sub64
  rw [heq, Nat.add_mod_right, Nat.mod_eq_of_lt (by omega)]

/-- Clearing the low bits of a word. -/
theorem and_high_bits {x k : Nat} (hk : k ≤ 64) (hx : x < wordCount) :
    x &&& (wordCount - 1 - (2 ^ k - 1)) = x / 2 ^ k * 2 ^ k := by
  have hmask : wordCount - 1 - (2 ^ k - 1) = (2 ^ (64 - k) - 1) <<< k := by
    have hpow : 2 ^ (64 - k) * 2 ^ k = wordCount := by rw [← Nat.pow_add, Nat.sub_add_cancel hk]; rfl
    have hpos : 0 < 2 ^ k := Nat.two_pow_pos k
    rw [Nat.shiftLeft_eq, Nat.sub_mul, hpow]
    omega
  rw [hmask, ← Nat.shiftRight_eq_div_pow, ← Nat.shiftLeft_eq]
  apply Nat.eq_of_testBit_eq
  intro i
  rw [Nat.testBit_and, Nat.testBit_shiftLeft, Nat.testBit_shiftLeft, Nat.testBit_two_pow_sub_one, Nat.testBit_shiftRight]
  by_cases hi : k ≤ i
  · by_cases hlt : i < 64
    · have hin : i - k < 64 - k := by omega
      simp [hi, hin]
    · have hout : x < 2 ^ i := Nat.lt_of_lt_of_le hx (Nat.pow_le_pow_right (by omega) (by omega))
      simp [hi, Nat.testBit_lt_two_pow hout]
  · simp [hi]

/-- What the mask of an alignment leaves of a number that it was added to. -/
theorem alignUp64_eq {a n : Nat} (ha : a = 4 ∨ a = 8) (h : n + 8 < wordCount) : alignUp64 (a - 1) n = alignUp a n := by
  unfold alignUp64 alignUp
  rcases ha with rfl | rfl
  · rw [add64_eq (by omega), show (4 - 1 : Nat) = 2 ^ 2 - 1 from rfl, and_high_bits (by omega) (by omega)]
    omega
  · rw [add64_eq (by omega), show (8 - 1 : Nat) = 2 ^ 3 - 1 from rfl, and_high_bits (by omega) (by omega)]
    omega

theorem alignUp_lt {a n : Nat} (ha : a = 4 ∨ a = 8) : alignUp a n < n + 8 := by
  unfold alignUp
  rcases ha with rfl | rfl <;> omega

theorem ofLe_lt (b : Bytes) : ofLe b < 256 ^ b.length := by
  induction b with
  | nil => decide
  | cons c b ih =>
    have hc := c.toNat_lt
    simp only [ofLe, List.foldr_cons, List.length_cons, Nat.pow_succ] at ih ⊢
    omega

theorem ofLe_pread_lt (b : Bytes) (len off : Nat) : ofLe (pread b len off) < 256 ^ len :=
  lt_of_lt_of_le (ofLe_lt _) (Nat.pow_le_pow_right (by omega) (by simp only [pread, List.length_take]; omega))

/-- A buffer inside of a region, too short for its offsets to wrap around. -/
structure Region.Holds (r : Region) (buf size : Nat) : Prop where
  pos : 0 < buf
  base : r.base ≤ buf
  stop : buf + size ≤ r.base + r.bytes.length
  word : buf + size < wordCount
  short : size < 2 ^ 63

def Region.buffer (r : Region) (buf size : Nat) : Bytes := pread r.bytes size (buf - r.base)

variable {r : Region} {buf size a off : Nat}

theorem Region.Holds.length (h : r.Holds buf size) : (r.buffer buf size).length = size :=
  length_pread (by have := h.base; have := h.stop; omega)

/-- A read inside of the buffer. -/
theorem Region.Holds.load (h : r.Holds buf size) {len : Nat} (hin : off + len ≤ size) :
    r.load (add64 buf off) len = .ok (pread (r.buffer buf size) len off) := by
  obtain ⟨hpos, hbase, hstop, hword, hshort⟩ := h
  by_cases hlen : len = 0
  · subst hlen
    rw [Region.load, if_pos (.inl rfl)]
    simp [pread]
  · rw [add64_eq (by omega), Region.load, if_pos (.inr ⟨by omega, by omega⟩), Region.buffer, pread_pread hin]
    congr 2
    omega

/-- The comparison looks at the name only where it stands in the buffer. -/
theorem noteMatches_eq (h : r.Holds buf size) (type : Nat) (name : Bytes) (noteType : Nat) {nameSize : Nat}
    (hin : off + nameSize ≤ size) :
    noteMatches r buf type name noteType nameSize off =
      .ok (decide (noteType = type ∧ pread (r.buffer buf size) nameSize off = name)) := by
  have hlen : (pread (r.buffer buf size) nameSize off).length = nameSize := length_pread (by rw [h.length]; exact hin)
  unfold noteMatches
  by_cases hm : noteType = type ∧ nameSize = name.length
  · obtain ⟨rfl, rfl⟩ := hm
    rw [if_pos ⟨rfl, rfl⟩, h.load hin]
    simp [Except.map, beq_eq_decide]
  · have hne : ¬(noteType = type ∧ pread (r.buffer buf size) nameSize off = name) := by
      rintro ⟨rfl, rfl⟩
      exact hm ⟨rfl, hlen.symm⟩
    rw [if_neg hm, decide_eq_false hne]

def Note.span (buf : Nat) (n : Note) : Span := ⟨buf + n.descOff, n.desc.length⟩

/-- One round of the loop: the note at the offset, if there is one, ends the walk or is passed over. -/
theorem noteWalk_succ (h : r.Holds buf size) (ha : a = 4 ∨ a = 8) (type : Nat) (name : Bytes) (fuel : Nat)
    (hoff : off ≤ size) :
    noteWalk r buf size (a - 1) type name (fuel + 1) off =
      match noteAt a (r.buffer buf size) off with
      | none => .ok none
      | some n =>
        if n.type = type ∧ n.name = name then .ok (some (n.span buf))
        else if n.next a > size then .ok none
        else noteWalk r buf size (a - 1) type name fuel (n.next a) := by
  obtain hshort := h.short
  have hword := h.word
  have hmask : a - 1 ≤ 7 := by omega
  rw [noteWalk, sub64_eq hoff (by rw [wordCount_eq]; omega)]
  by_cases hhead : size - off < nhdrSize
  · rw [if_pos hhead, noteAt, if_neg (by rw [h.length]; omega)]
  rw [if_neg hhead]
  simp only [nhdrSize, Nat.not_lt] at hhead
  rw [h.load (by simp only [nhdrSize]; omega)]
  simp only [Except.bind, nhdrSize, pread_pread (show 0 + 4 ≤ 12 by decide), pread_pread (show 4 + 4 ≤ 12 by decide),
    pread_pread (show 8 + 4 ≤ 12 by decide), Nat.add_zero]
  have hname := ofLe_pread_lt (r.buffer buf size) 4 off
  have hdesc := ofLe_pread_lt (r.buffer buf size) 4 (off + 4)
  simp only [noteAt, nhdrSize, h.length]
  generalize ofLe (pread (r.buffer buf size) 4 off) = nameSize at hname ⊢
  generalize ofLe (pread (r.buffer buf size) 4 (off + 4)) = descSize at hdesc ⊢
  have hpow : (256 : Nat) ^ 4 = 2 ^ 32 := by norm_num
  rw [hpow] at hname hdesc
  have hstart : add64 off 12 = off + 12 := add64_eq (by rw [wordCount_eq]; omega)
  have hend : add64 (off + 12) nameSize = off + 12 + nameSize := add64_eq (by rw [wordCount_eq]; omega)
  have hup : alignUp64 (a - 1) (off + 12 + nameSize) = alignUp a (off + 12 + nameSize) :=
    alignUp64_eq ha (by rw [wordCount_eq]; omega)
  have hle := le_alignUp a (off + 12 + nameSize)
  rw [if_neg (by rw [wordCount_eq]; omega), hstart, sub64_eq (by omega) (by rw [wordCount_eq]; omega), hend, hup]
  generalize alignUp a (off + 12 + nameSize) = descOff at hle ⊢
  by_cases hfits : descOff + descSize ≤ size
  · have hnote := noteMatches_eq h type name (ofLe (pread (r.buffer buf size) 4 (off + 8)))
      (show off + 12 + nameSize ≤ size by omega)
    have hlen : (pread (r.buffer buf size) descSize descOff).length = descSize :=
      length_pread (by rw [h.length]; exact hfits)
    rw [if_neg (by omega), if_neg (by omega), sub64_eq (by omega) (by rw [wordCount_eq]; omega), if_neg (by omega), hnote,
      if_pos (show off + 12 ≤ size ∧ descOff + descSize ≤ size from ⟨by omega, hfits⟩),
      add64_eq (show descOff + descSize < wordCount by rw [wordCount_eq]; omega), alignUp64_eq ha (by rw [wordCount_eq]; omega),
      add64_eq (show buf + descOff < wordCount by omega)]
    simp only [Note.span, Note.next, hlen, decide_eq_true_eq]
  · rw [if_neg (show ¬(off + 12 ≤ size ∧ descOff + descSize ≤ size) from fun hf => hfits hf.2)]
    split
    · rfl
    · split
      · rfl
      · rw [sub64_eq (by omega) (by rw [wordCount_eq]; omega), if_pos (by omega)]

/-- The walk from an offset finds the first of the notes from there on. -/
theorem noteWalk_eq (h : r.Holds buf size) (ha : a = 4 ∨ a = 8) (type : Nat) (name : Bytes) (fuel : Nat)
    (hoff : off ≤ size) (hfuel : size - off < fuel) :
    noteWalk r buf size (a - 1) type name fuel off =
      .ok (((notes a (r.buffer buf size) off).find? fun n => n.type = type ∧ n.name = name).map (·.span buf)) := by
  induction fuel generalizing off with
  | zero => omega
  | succ fuel ih =>
    rw [noteWalk_succ h ha type name fuel hoff]
    cases hn : noteAt a (r.buffer buf size) off with
    | none => rw [notes_none hn, List.find?_nil, Option.map_none]
    | some n =>
      rw [notes_some hn]
      have hnext := (noteAt_next hn).1
      simp only [nhdrSize] at hnext
      by_cases hm : n.type = type ∧ n.name = name
      · rw [List.find?_cons_of_pos (by simpa using hm)]
        exact if_pos hm
      · rw [List.find?_cons_of_neg (by simpa using hm)]
        simp only [if_neg hm]
        by_cases hbeyond : n.next a > size
        · -- nothing is left behind the buffer
          have hnone : noteAt a (r.buffer buf size) (n.next a) = none := by
            rw [noteAt, if_neg (by rw [h.length]; simp only [nhdrSize]; omega)]
          rw [if_pos hbeyond, notes_none hnone, List.find?_nil, Option.map_none]
        · rw [if_neg hbeyond]
          exact ih (by omega) (by omega)

/-- `sentry__elf_find_note` finds the first note of the type and name. -/
theorem findNote_eq (h : r.Holds buf size) {alignment : Nat} (ha : alignment = 4 ∨ alignment = 8) (type : Nat)
    (name : Bytes) :
    findNote r buf size alignment type name =
      .ok ((Note.first alignment (r.buffer buf size) type name).map (·.span buf)) := by
  have halign : noteAlignment alignment = some alignment := by
    unfold noteAlignment
    rcases ha with rfl | rfl <;> rfl
  rw [findNote, if_neg h.pos.ne', halign]
  exact noteWalk_eq h ha type name _ (Nat.zero_le _) (by omega)

/-- Whatever alignment is asked for, the note is one of the buffer's. -/
theorem findNote_ok (h : r.Holds buf size) (alignment type : Nat) (name : Bytes) :
    ∃ found, findNote r buf size alignment type name = .ok found ∧
      ∀ s ∈ found, buf ≤ s.addr ∧ s.addr + s.size ≤ buf + size := by
  cases halign : noteAlignment alignment with
  | none => exact ⟨none, by simp [findNote, halign], by simp⟩
  | some a =>
    have ha : a = 4 ∨ a = 8 := by
      unfold noteAlignment at halign
      split at halign
      · cases halign
        exact .inl rfl
      · split at halign <;> simp_all
        omega
    have hfound : findNote r buf size alignment type name = findNote r buf size a type name := by
      have hself : noteAlignment a = some a := by
        unfold noteAlignment
        rcases ha with rfl | rfl <;> rfl
      rw [findNote, findNote, halign, hself]
    refine ⟨_, hfound.trans (findNote_eq h ha type name), ?_⟩
    intro s hs
    obtain ⟨n, hn, rfl⟩ := Option.mem_map.1 hs
    have hmem := List.mem_of_find?_eq_some hn
    have hin := desc_in hmem
    rw [h.length] at hin
    simp only [Note.span]
    omega

end SentryNative.Elf
