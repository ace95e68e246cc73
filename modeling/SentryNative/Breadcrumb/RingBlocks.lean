import SentryNative.Breadcrumb.RingFile

/-!
# The ring files by blocks

Breadcrumbs come in blocks of `max_breadcrumbs`, and every block is in the file of its parity.
The file of the newest block holds that block so far, the other one the block before.
-/

namespace SentryNative.Breadcrumb

open CLib

/-- The file of a block. -/
def Rings.file (s : Rings) (block : Nat) : Bytes := if block % 2 = 0 then s.file1 else s.file2

theorem Rings.file_add_two (s : Rings) (b : Nat) : s.file (b + 2) = s.file b := by
  unfold Rings.file
  rw [Nat.add_mod_right]

/-- The counter tells the place of a breadcrumb as long as it does not wrap around within a
pair of blocks. -/
def Counts (m n : Nat) : Prop := n ≤ 2 ^ 64 ∨ 2 * m ∣ 2 ^ 64

variable {m k : Nat} {es : List Bytes}

theorem Counts.of_le {n : Nat} (h : Counts m n) (hk : k ≤ n) : Counts m k := by
  obtain hn | hd := h
  · exact Or.inl (by omega)
  · exact Or.inr hd

theorem counter_mod (h : Counts m (k + 1)) : k % 2 ^ 64 % (m * 2) = k % (m * 2) := by
  obtain hle | hdvd := h
  · rw [Nat.mod_eq_of_lt (by omega : k < 2 ^ 64)]
  · rw [Nat.mul_comm] at hdvd
    exact Nat.mod_mod_of_dvd k hdvd

theorem counter_first (h : Counts m (k + 1)) : k % 2 ^ 64 % m = k % m := by
  have hmod := congrArg (· % m) (counter_mod h)
  simpa [Nat.mod_mul_right_mod] using hmod

/-- A breadcrumb is in the first file when its block is even. -/
theorem in_first_file (hm : 0 < m) : k % (m * 2) < m ↔ k / m % 2 = 0 := by
  rw [Nat.mod_mul]
  have hlt := Nat.mod_lt k hm
  constructor
  · intro h
    by_contra hne
    have hone : k / m % 2 = 1 := by omega
    rw [hone] at h
    omega
  · intro h
    rw [h]
    omega

theorem pred_div (hm : 0 < m) (hk : k % m ≠ 0) : (k - 1) / m = k / m := by
  have hdiv := Nat.div_add_mod k m
  have hlt := Nat.mod_lt k hm
  rw [Nat.mul_comm] at hdiv
  apply Nat.div_eq_of_lt_le
  · omega
  · rw [Nat.add_mul]
    omega

theorem pred_div_first (hm : 0 < m) (hk : k % m = 0) (hpos : 0 < k) : (k - 1) / m + 1 = k / m := by
  have hdiv := Nat.div_add_mod k m
  rw [Nat.mul_comm, hk] at hdiv
  have hne : k / m ≠ 0 := by
    intro h0
    rw [h0] at hdiv
    omega
  obtain ⟨q, hq⟩ := Nat.exists_eq_add_one_of_ne_zero hne
  rw [hq, Nat.add_mul] at hdiv
  rw [hq, Nat.div_eq_of_lt_le (k := q)]
  · omega
  · rw [Nat.add_mul]
    omega

/-- What one write does to the two files, by the block it is for. -/
theorem addBreadcrumb_files (hm : 0 < m) (hm' : m < 2 ^ 32) (hk : Counts m (k + 1)) {s : Rings}
    (hs : s.numBreadcrumbs = k % 2 ^ 64) (e : Bytes) (written : Nat) :
    (addBreadcrumb m s e written).numBreadcrumbs = (k + 1) % 2 ^ 64 ∧
      (addBreadcrumb m s e written).file (k / m) =
        (if k % m = 0 then e.take written else s.file (k / m) ++ e.take written) ∧
      (addBreadcrumb m s e written).file (k / m + 1) = s.file (k / m + 1) := by
  have hwide : m * 2 % 2 ^ 64 = m * 2 := Nat.mod_eq_of_lt (by omega)
  have hfirst : s.numBreadcrumbs % m = k % m := by rw [hs, counter_first hk]
  have hplace : s.numBreadcrumbs % (m * 2 % 2 ^ 64) < m ↔ k / m % 2 = 0 := by
    rw [hs, hwide, counter_mod hk, in_first_file hm]
  have hnext : (s.numBreadcrumbs + 1) % 2 ^ 64 = (k + 1) % 2 ^ 64 := by rw [hs, Nat.mod_add_mod]
  unfold addBreadcrumb
  simp only [Nat.pos_iff_ne_zero.1 hm, if_false, hplace, hfirst, hnext]
  by_cases heven : k / m % 2 = 0
  · have hodd : (k / m + 1) % 2 = 1 := by omega
    simp [heven, hodd, Rings.file]
  · have hodd : (k / m + 1) % 2 = 0 := by omega
    simp [heven, hodd, Rings.file]

/-- The files after some breadcrumbs were written completely. -/
structure Blocks (m : Nat) (es : List Bytes) (s : Rings) : Prop where
  count : s.numBreadcrumbs = es.length % 2 ^ 64
  newest : s.file ((es.length - 1) / m) = (es.drop ((es.length - 1) / m * m)).flatten
  before : s.file ((es.length - 1) / m + 1) =
    if (es.length - 1) / m = 0 then [] else ((es.drop (((es.length - 1) / m - 1) * m)).take m).flatten

theorem startup_blocks : Blocks m [] startup := by
  refine ⟨rfl, ?_, ?_⟩ <;> simp [Rings.file, startup]

theorem addBreadcrumb_blocks (hm : 0 < m) (hm' : m < 2 ^ 32) (hn : Counts m (es.length + 1)) {s : Rings}
    (hs : Blocks m es s) (e : Bytes) : Blocks m (es ++ [e]) (addBreadcrumb m s e e.length) := by
  obtain ⟨hnum, hfile, hother⟩ := addBreadcrumb_files hm hm' hn hs.count e e.length
  have hlen : (es ++ [e]).length - 1 = es.length := by simp
  refine ⟨by rw [hnum]; simp, ?_, ?_⟩
  · rw [hlen, hfile, List.take_length]
    by_cases hfirst : es.length % m = 0
    · have hall : es.length / m * m = es.length := Nat.div_mul_cancel (Nat.dvd_of_mod_eq_zero hfirst)
      rw [if_pos hfirst, hall, List.drop_left]
      simp
    · have hle : es.length / m * m ≤ es.length := Nat.div_mul_le_self _ _
      have hnewest := hs.newest
      rw [pred_div hm hfirst] at hnewest
      rw [if_neg hfirst, List.drop_append_of_le_length hle, List.flatten_append, hnewest]
      simp
  · rw [hlen, hother]
    by_cases hzero : es.length / m = 0
    · have hbefore := hs.before
      have hlt : es.length < m := (Nat.div_eq_zero_iff_lt hm).1 hzero
      rw [Nat.div_eq_of_lt (by omega : es.length - 1 < m)] at hbefore
      rw [hzero]
      simpa using hbefore
    · have hle : es.length / m * m ≤ es.length := Nat.div_mul_le_self _ _
      obtain ⟨q, hq⟩ := Nat.exists_eq_add_one_of_ne_zero hzero
      rw [hq, Nat.add_mul] at hle
      have hstart : q * m ≤ es.length := by omega
      rw [if_neg hzero, hq, Nat.add_sub_cancel, List.drop_append_of_le_length hstart,
        List.take_append_of_le_length (by rw [List.length_drop]; omega)]
      by_cases hfirst : es.length % m = 0
      · have hpos : 0 < es.length := by
          rw [Nat.pos_iff_ne_zero]
          intro h0
          rw [h0] at hq
          simp at hq
        have hdiv := pred_div_first hm hfirst hpos
        have hprev : (es.length - 1) / m = q := by omega
        have hnewest := hs.newest
        rw [hprev] at hnewest
        have hwhole : (es.drop (q * m)).length ≤ m := by
          have hdm := Nat.div_add_mod es.length m
          rw [hfirst, hq, Nat.mul_comm, Nat.add_mul] at hdm
          rw [List.length_drop]
          omega
        rw [Rings.file_add_two, hnewest, List.take_of_length_le hwhole]
      · have hbefore := hs.before
        rw [pred_div hm hfirst, if_neg hzero, hq, Nat.add_sub_cancel] at hbefore
        exact hbefore

theorem addAll_blocks (hm : 0 < m) (hm' : m < 2 ^ 32) (hn : Counts m es.length) : Blocks m es (addAll m es) := by
  induction es using List.reverseRecOn with
  | nil => exact startup_blocks
  | append_singleton es e ih =>
    rw [List.length_append, List.length_singleton] at hn
    unfold addAll
    rw [List.foldl_append]
    exact addBreadcrumb_blocks hm hm' hn (ih (hn.of_le (by omega))) e

end SentryNative.Breadcrumb
