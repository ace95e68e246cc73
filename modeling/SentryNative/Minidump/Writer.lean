import SentryNative.Lib.FileBytes

/-!
# The minidump writer

`sentry_minidump_common.c`: blocks are appended to a file, each padded to four bytes. A write that
falls short is undone by seeking back. Seeks succeed.

* `writeData_cases`: all that one call can do;
* `minidump_offsets`: what holds of every reported block, whatever the writes do.
-/

namespace SentryNative.Minidump

open CLib

def UINT32_MAX : Nat := 2 ^ 32 - 1

/-- `minidump_writer_base_t`, with the file behind `fd` and the position in it. -/
structure Writer where
  file : Bytes
  pos : Nat
  currentOffset : Nat
  deriving DecidableEq, Repr

/-- `write`: how many bytes it took, no more than there are, or none for an error. -/
def Writer.write (w : Writer) (data : Bytes) (outcome : Option Nat) : Int × Writer :=
  match outcome with
  | none => (-1, w)
  | some n =>
    let k := min n data.length
    (k, { w with file := overwrite w.file w.pos (data.take k), pos := w.pos + k })

/-- `lseek` by as much as was written, backwards. -/
def Writer.seekBack (w : Writer) (written : Int) : Writer := { w with pos := w.pos - written.toNat }

/-- The padding to the next multiple of four. -/
def padding (off : Nat) : Nat := (4 - off % 4) % 4

/-- The second half of `sentry__minidump_write_data`. -/
def Writer.align (w : Writer) (outcome : Option Nat) : Writer :=
  if 0 < padding w.currentOffset then
    let (padWritten, next) := w.write (List.replicate (padding w.currentOffset) 0) outcome
    if padWritten = padding w.currentOffset then
      { next with currentOffset := next.currentOffset + padding w.currentOffset }
    else if 0 < padWritten then next.seekBack padWritten
    else next
  else w

/-- `sentry__minidump_write_data`, with the outcomes of the write of the data and of the padding. -/
def writeData (w : Writer) (data : Bytes) (first second : Option Nat) : UInt32 × Writer :=
  if UINT32_MAX < w.currentOffset then (0, w)
  else
    let rva := UInt32.ofNat w.currentOffset
    let (written, next) := w.write data first
    if written ≠ data.length then (0, if 0 < written then next.seekBack written else next)
    else (rva, { next with currentOffset := next.currentOffset + data.length }.align second)

/-! ## One call -/

/-- The write took all it was given. -/
def Full (outcome : Option Nat) (size : Nat) : Prop := ∃ n, outcome = some n ∧ size ≤ n

/-- A write leaves the position behind what it took, or where it was. -/
theorem write_cases (w : Writer) (data : Bytes) (outcome : Option Nat) :
    (¬Full outcome data.length ∧ w.write data outcome = (-1, w)) ∨
      ∃ k, k ≤ data.length ∧ (Full outcome data.length → k = data.length) ∧
        w.write data outcome = (↑k, { w with file := overwrite w.file w.pos (data.take k), pos := w.pos + k }) := by
  cases outcome with
  | none =>
    refine Or.inl ⟨?_, rfl⟩
    rintro ⟨n, hn, -⟩
    cases hn
  | some n =>
    refine Or.inr ⟨min n data.length, Nat.min_le_right _ _, ?_, rfl⟩
    rintro ⟨m, hm, hle⟩
    cases hm
    exact Nat.min_eq_right hle

theorem wrote_full (w : Writer) {data : Bytes} {outcome : Option Nat} (h : Full outcome data.length) :
    (w.write data outcome).1 = data.length := by
  obtain ⟨hnot, -⟩ | ⟨k, -, hk, hwrote⟩ := write_cases w data outcome
  · exact absurd h hnot
  · rw [hwrote, hk h]

theorem seekBack_wrote (w : Writer) (file : Bytes) (k : Nat) :
    ({ w with file := file, pos := w.pos + k } : Writer).seekBack k = { w with file := file } := by
  simp [Writer.seekBack]

/-- A write that fell short, undone. -/
theorem undone (w : Writer) (data : Bytes) {outcome : Option Nat}
    (h : (w.write data outcome).1 ≠ data.length) :
    ∃ k, k ≤ data.length ∧
      (if 0 < (w.write data outcome).1 then (w.write data outcome).2.seekBack (w.write data outcome).1
        else (w.write data outcome).2) = { w with file := overwrite w.file w.pos (data.take k) } := by
  obtain ⟨-, herr⟩ | ⟨k, hk, -, hwrote⟩ := write_cases w data outcome
  · refine ⟨0, Nat.zero_le _, ?_⟩
    rw [herr, List.take_zero, overwrite_nil]
    rfl
  · refine ⟨k, hk, ?_⟩
    rw [hwrote]
    by_cases hzero : k = 0
    · subst hzero
      simp
    · rw [if_pos (by simp only; omega), seekBack_wrote]

theorem wrote_all (w : Writer) (data : Bytes) {outcome : Option Nat} (h : (w.write data outcome).1 = data.length) :
    w.write data outcome = (↑data.length, { w with
      file := overwrite w.file w.pos data, pos := w.pos + data.length }) := by
  obtain ⟨-, herr⟩ | ⟨k, hk, -, hwrote⟩ := write_cases w data outcome
  · rw [herr] at h
    simp only at h
    omega
  · rw [hwrote] at h ⊢
    obtain rfl : k = data.length := by
      simp only at h
      omega
    rw [List.take_length]

theorem align_cases (w : Writer) (outcome : Option Nat) : ∃ z k, k ≤ padding w.currentOffset ∧
    (Full outcome (padding w.currentOffset) → k = padding w.currentOffset) ∧
    w.align outcome = { file := overwrite w.file w.pos (List.replicate z 0)
                        pos := w.pos + k
                        currentOffset := w.currentOffset + k } := by
  have hlen : (List.replicate (padding w.currentOffset) (0 : UInt8)).length = padding w.currentOffset :=
    List.length_replicate
  unfold Writer.align
  by_cases hpad : 0 < padding w.currentOffset
  · rw [if_pos hpad]
    by_cases hfull : (w.write (List.replicate (padding w.currentOffset) 0) outcome).1 = padding w.currentOffset
    · refine ⟨padding w.currentOffset, padding w.currentOffset, Nat.le_refl _, fun _ => rfl, ?_⟩
      rw [wrote_all w _ (by rw [hlen]; exact hfull)]
      simp only [hlen, if_true]
    · obtain ⟨z, hz, hundone⟩ := undone w (List.replicate (padding w.currentOffset) 0) (by rw [hlen]; exact hfull)
      refine ⟨min z (padding w.currentOffset), 0, Nat.zero_le _, ?_, ?_⟩
      · intro hout
        rw [← hlen] at hout
        exact absurd ((wrote_full w hout).trans (by rw [hlen])) hfull
      · simp only [if_neg hfull]
        rw [List.take_replicate] at hundone
        exact hundone
  · refine ⟨0, 0, Nat.zero_le _, ?_, ?_⟩
    · intro _
      omega
    · rw [if_neg hpad, List.replicate_zero, overwrite_nil]
      rfl

/-- Everything a call can do: it reports nothing and moves nothing, or it reports the block at the
current offset and moves behind it and, when that was written, its padding. -/
theorem writeData_cases (w : Writer) (data : Bytes) (first second : Option Nat) :
    ((Full first data.length → UINT32_MAX < w.currentOffset) ∧
        ∃ k, writeData w data first second = (0, { w with file := overwrite w.file w.pos (data.take k) })) ∨
      ∃ z k, w.currentOffset ≤ UINT32_MAX ∧ k ≤ padding (w.currentOffset + data.length) ∧
        (Full second (padding (w.currentOffset + data.length)) → k = padding (w.currentOffset + data.length)) ∧
        writeData w data first second = (UInt32.ofNat w.currentOffset,
          { file := overwrite (overwrite w.file w.pos data) (w.pos + data.length) (List.replicate z 0)
            pos := w.pos + data.length + k
            currentOffset := w.currentOffset + data.length + k }) := by
  unfold writeData
  by_cases hbig : UINT32_MAX < w.currentOffset
  · refine Or.inl ⟨fun _ => hbig, 0, ?_⟩
    rw [if_pos hbig, List.take_zero, overwrite_nil]
  rw [if_neg hbig]
  by_cases hshort : (w.write data first).1 ≠ data.length
  · obtain ⟨k, -, hundone⟩ := undone w data hshort
    refine Or.inl ⟨?_, k, ?_⟩
    · intro hfull
      exact absurd (wrote_full w hfull) hshort
    · simp only [if_pos hshort, hundone]
  · rw [not_not] at hshort
    obtain ⟨z, k, hk, hfull, halign⟩ := align_cases
      { w with file := overwrite w.file w.pos data, pos := w.pos + data.length,
               currentOffset := w.currentOffset + data.length } second
    refine Or.inr ⟨z, k, Nat.le_of_not_lt hbig, hk, hfull, ?_⟩
    rw [wrote_all w data hshort]
    simp only [ne_eq, not_true_eq_false, if_false]
    rw [halign]

/-! ## Runs -/

/-- A call, with the outcomes of its writes. No object is larger than `ssize_t` can say. -/
structure Call where
  data : Bytes
  first : Option Nat
  second : Option Nat
  size_lt : data.length < 2 ^ 63

/-- A block that was reported, that is, with an RVA that is not zero. -/
structure Report where
  rva : UInt32
  data : Bytes

def Writer.call (w : Writer) (c : Call) : UInt32 × Writer := writeData w c.data c.first c.second

/-- The writer and the blocks reported so far. -/
def run (w : Writer) (reports : List Report) : List Call → Writer × List Report
  | [] => (w, reports)
  | c :: cs => run (w.call c).2 (if (w.call c).1 = 0 then reports else reports ++ [⟨(w.call c).1, c.data⟩]) cs

/-- The position is the offset, and every reported block stands below it. -/
structure Truthful (w : Writer) (reports : List Report) : Prop where
  pos : w.pos = w.currentOffset
  stands : ∀ r ∈ reports, Stands w.file r.rva.toNat r.data
  below : ∀ r ∈ reports, r.rva.toNat + r.data.length ≤ w.currentOffset

variable {w : Writer} {reports : List Report} {c : Call} {cs : List Call}

theorem toNat_rva {n : Nat} (h : n ≤ UINT32_MAX) : (UInt32.ofNat n).toNat = n := by
  rw [UInt32.toNat_ofNat']
  unfold UINT32_MAX at h
  exact Nat.mod_eq_of_lt (by omega)

theorem Truthful.call (h : Truthful w reports) (c : Call) :
    Truthful (w.call c).2 (if (w.call c).1 = 0 then reports else reports ++ [⟨(w.call c).1, c.data⟩]) := by
  have hkeep : ∀ r ∈ reports, ∀ part, Stands (overwrite w.file w.pos part) r.rva.toNat r.data := by
    intro r hr part
    apply (h.stands r hr).overwrite
    have hbelow := h.below r hr
    have hpos := h.pos
    omega
  obtain ⟨-, k, hcall⟩ | ⟨z, k, hle, -, -, hcall⟩ := writeData_cases w c.data c.first c.second
  · have heq : w.call c = (0, { w with file := overwrite w.file w.pos (c.data.take k) }) := hcall
    rw [heq, if_pos rfl]
    exact ⟨h.pos, fun r hr => hkeep r hr _, h.below⟩
  · have heq : w.call c = (UInt32.ofNat w.currentOffset,
        { file := overwrite (overwrite w.file w.pos c.data) (w.pos + c.data.length) (List.replicate z 0)
          pos := w.pos + c.data.length + k
          currentOffset := w.currentOffset + c.data.length + k }) := hcall
    have hnew : Stands (overwrite (overwrite w.file w.pos c.data) (w.pos + c.data.length) (List.replicate z 0))
        w.currentOffset c.data := by
      rw [← h.pos]
      exact (stands_overwrite w.file w.pos c.data).overwrite (Or.inl (Nat.le_refl _))
    have hold : ∀ r ∈ reports,
        Stands (overwrite (overwrite w.file w.pos c.data) (w.pos + c.data.length) (List.replicate z 0)) r.rva.toNat
            r.data ∧ r.rva.toNat + r.data.length ≤ w.currentOffset + c.data.length + k := by
      intro r hr
      have hbelow := h.below r hr
      have hpos := h.pos
      exact ⟨(hkeep r hr _).overwrite (by omega), by omega⟩
    rw [heq]
    split
    · exact ⟨by simp only [h.pos], fun r hr => (hold r hr).1, fun r hr => (hold r hr).2⟩
    · refine ⟨by simp only [h.pos], ?_, ?_⟩
      · intro r hr
        obtain hr | hr := List.mem_append.1 hr
        · exact (hold r hr).1
        · rw [List.mem_singleton.1 hr]
          simp only [toNat_rva hle]
          exact hnew
      · intro r hr
        obtain hr | hr := List.mem_append.1 hr
        · exact (hold r hr).2
        · rw [List.mem_singleton.1 hr]
          simp only [toNat_rva hle]
          omega

theorem Truthful.run (h : Truthful w reports) (cs : List Call) : Truthful (run w reports cs).1 (run w reports cs).2 := by
  induction cs generalizing w reports with
  | nil => exact h
  | cons c cs ih => exact ih (h.call c)

theorem padded (n : Nat) : (n + padding n) % 4 = 0 := by
  unfold padding
  omega

end SentryNative.Minidump
