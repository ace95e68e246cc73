import SentryNative.Lib.CNumber

/-!
# Files as byte strings

What `write` does at a position of a file, and what stays where it is.
-/

namespace CLib

/-- The file after some bytes were written at a position. What lies between the end of the file
and the position reads as zeros. -/
def overwrite (file : Bytes) (pos : Nat) (data : Bytes) : Bytes :=
  if data = [] then file
  else file.take pos ++ List.replicate (pos - file.length) 0 ++ (data ++ file.drop (pos + data.length))

/-- The bytes stand in the file from this offset on. -/
def Stands (file : Bytes) (off : Nat) (data : Bytes) : Prop :=
  ∀ i, i < data.length → file[off + i]? = data[i]?

/-- `pread`: what the file has from an offset on, no more than was asked for. -/
def pread (file : Bytes) (len off : Nat) : Bytes := (file.drop off).take len

/-- A number read from its bytes, the lowest one first. -/
def ofLe (b : Bytes) : Nat := b.foldr (fun b n => b.toNat + 256 * n) 0

section

variable {file data more : Bytes} {off pos i : Nat}

theorem overwrite_nil (file : Bytes) (pos : Nat) : overwrite file pos [] = file := if_pos rfl

theorem length_overwrite (h : data ≠ []) : (overwrite file pos data).length = max file.length (pos + data.length) := by
  unfold overwrite
  rw [if_neg h]
  simp only [List.length_append, List.length_take, List.length_replicate, List.length_drop]
  omega

/-- The bytes that were written. -/
theorem getElem?_overwrite (hi : i < data.length) : (overwrite file pos data)[pos + i]? = data[i]? := by
  have hne : data ≠ [] := List.ne_nil_of_length_pos (by omega)
  have hlen : (file.take pos ++ List.replicate (pos - file.length) (0 : UInt8)).length = pos := by
    rw [List.length_append, List.length_take, List.length_replicate]
    omega
  unfold overwrite
  rw [if_neg hne, List.getElem?_append_right (by omega), hlen, Nat.add_sub_cancel_left, List.getElem?_append_left hi]

/-- The bytes before and behind them. -/
theorem getElem?_overwrite_of_ne (hi : i < file.length) (hne : i < pos ∨ pos + data.length ≤ i) :
    (overwrite file pos data)[i]? = file[i]? := by
  unfold overwrite
  split
  · rfl
  · obtain hbefore | hafter := hne
    · rw [List.append_assoc, List.getElem?_append_left (by rw [List.length_take]; omega), List.getElem?_take_of_lt hbefore]
    · have hlen : (file.take pos ++ List.replicate (pos - file.length) (0 : UInt8)).length = pos := by
        rw [List.length_append, List.length_take, List.length_replicate]
        omega
      rw [List.getElem?_append_right (by omega), hlen, List.getElem?_append_right (by omega), List.getElem?_drop]
      congr 1
      omega

theorem stands_overwrite (file : Bytes) (pos : Nat) (data : Bytes) : Stands (overwrite file pos data) pos data :=
  fun _ hi => getElem?_overwrite hi

theorem Stands.lt_length (h : Stands file off data) (hi : i < data.length) : off + i < file.length := by
  have hget := h i hi
  rw [List.getElem?_eq_getElem hi] at hget
  exact (List.getElem?_eq_some_iff.1 hget).1

theorem Stands.end_le (h : Stands file off data) (hne : data ≠ []) : off + data.length ≤ file.length := by
  have hpos := List.length_pos_iff.2 hne
  have hlast := h.lt_length (i := data.length - 1) (by omega)
  omega

/-- A write elsewhere leaves the bytes. -/
theorem Stands.overwrite (h : Stands file off data) (hapart : off + data.length ≤ pos ∨ pos + more.length ≤ off) :
    Stands (overwrite file pos more) off data := by
  intro i hi
  rw [getElem?_overwrite_of_ne (h.lt_length hi) (by omega)]
  exact h i hi

/-- A part of bytes that stand in the file stands in it. -/
theorem Stands.sub {a b : Bytes} (h : Stands file off (a ++ (data ++ b))) : Stands file (off + a.length) data := by
  intro i hi
  have hget := h (a.length + i) (by simp only [List.length_append]; omega)
  rw [List.getElem?_append_right (by omega), Nat.add_sub_cancel_left, List.getElem?_append_left hi] at hget
  rw [Nat.add_assoc]
  exact hget

/-- A part of what was read. -/
theorem pread_pread {len off len' off' : Nat} (h : off' + len' ≤ len) :
    pread (pread file len off) len' off' = pread file len' (off + off') := by
  unfold pread
  rw [List.drop_take, List.drop_drop, List.take_take, Nat.min_eq_left (by omega)]

theorem length_pread {len : Nat} (h : off + len ≤ file.length) : (pread file len off).length = len := by
  unfold pread
  rw [List.length_take, List.length_drop]
  omega

end

end CLib
