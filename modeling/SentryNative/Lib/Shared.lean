import SentryNative.Lib.Machine

/-!
# Objects behind reference counts

`o` says which object each place refers to and `r` the count stored with each object. `Counts` is the
law of a counted object: its count is the number of places that refer to it. One rule for each way a
program touches the counts.
-/

namespace Shared

variable {ι α : Type*} [DecidableEq ι] [DecidableEq α]

/-- A place changes what it holds, and the number of places that satisfy `P` follows. -/
theorem counted_update {β : Type*} {f : ι → β} {P : β → Prop} [DecidablePred P] {n m : Nat}
    (h : Machine.Counted (fun i => P (f i)) n) (i : ι) (v : β)
    (hm : m + (if P (f i) then 1 else 0) = n + (if P v then 1 else 0)) :
    Machine.Counted (fun j => P (Function.update f i v j)) m := by
  by_cases hi : P (f i) <;> by_cases hv : P v <;> simp only [hi, hv, ↓reduceIte] at hm
  · obtain rfl : m = n := by omega
    refine h.congr fun j => ?_
    by_cases hj : j = i
    · simp [hj, hi, hv]
    · simp [Function.update_of_ne hj]
  · obtain rfl : m = n - 1 := by omega
    refine h.remove hi fun j => ?_
    by_cases hj : j = i
    · simp [hj, hv]
    · simp [Function.update_of_ne hj, hj]
  · obtain rfl : m = n + 1 := by omega
    refine h.add hi fun j => ?_
    by_cases hj : j = i
    · simp [hj, hv]
    · simp [Function.update_of_ne hj, hj]
  · obtain rfl : m = n := by omega
    refine h.congr fun j => ?_
    by_cases hj : j = i
    · simp [hj, hi, hv]
    · simp [Function.update_of_ne hj]

/-- The count of every live object is the number of places that refer to it. -/
def Counts (o : ι → Option α) (r : α → Int) (alive : α → Bool) : Prop :=
  ∀ b, alive b = true → ∃ n : Nat, r b = n ∧ Machine.Counted (fun i => o i = some b) n

namespace Counts

variable {o : ι → Option α} {r : α → Int} {alive : α → Bool}

/-- An empty place takes a counted reference. -/
theorem take (h : Counts o r alive) {i : ι} {b : α} (hi : o i = none) :
    Counts (Function.update o i (some b)) (Function.update r b (r b + 1)) alive := by
  intro c hc
  obtain ⟨n, hn, hcount⟩ := h c hc
  by_cases hcb : c = b
  · subst hcb
    refine ⟨n + 1, by simp [hn], counted_update (P := (· = some c)) hcount i _ ?_⟩
    simp [hi]
  · refine ⟨n, by rw [Function.update_of_ne hcb, hn], counted_update (P := (· = some c)) hcount i _ ?_⟩
    simp [hi, Ne.symm hcb]

/-- A place gives its reference up. -/
theorem drop (h : Counts o r alive) {i : ι} {b : α} (hi : o i = some b) :
    Counts (Function.update o i none) (Function.update r b (r b - 1)) alive := by
  intro c hc
  obtain ⟨n, hn, hcount⟩ := h c hc
  by_cases hcb : c = b
  · subst hcb
    obtain ⟨k, rfl⟩ : ∃ k, n = k + 1 := by
      cases n with
      | zero => exact absurd hi (hcount.none i)
      | succ k => exact ⟨k, rfl⟩
    refine ⟨k, by simp [hn], counted_update (P := (· = some c)) hcount i _ ?_⟩
    simp [hi]
  · refine ⟨n, by rw [Function.update_of_ne hcb, hn], counted_update (P := (· = some c)) hcount i _ ?_⟩
    simp [hi, Ne.symm hcb]

/-- Two places exchange what they refer to. -/
theorem exchange (h : Counts o r alive) {i j : ι} (hij : i ≠ j) :
    Counts (Function.update (Function.update o i (o j)) j (o i)) r alive := by
  intro c hc
  obtain ⟨n, hn, hcount⟩ := h c hc
  refine ⟨n, hn, ?_⟩
  have hone : (if o i = some c then 1 else 0) ≤ n := by
    split
    · next hi =>
      cases n with
      | zero => exact absurd hi (hcount.none i)
      | succ k => omega
    · omega
  have hfirst := counted_update (m := n + (if o j = some c then 1 else 0)
    - (if o i = some c then 1 else 0)) (P := (· = some c)) hcount i (o j) (by omega)
  refine counted_update (P := (· = some c)) hfirst j (o i) ?_
  rw [Function.update_of_ne (Ne.symm hij)]
  omega

/-- A new object starts with the one reference of its maker. -/
theorem create (h : Counts o r alive) {i : ι} {b : α} (hi : o i = none) (hb : ∀ j, o j ≠ some b) :
    Counts (Function.update o i (some b)) (Function.update r b 1) (Function.update alive b true) := by
  intro c hc
  by_cases hcb : c = b
  · subst hcb
    refine ⟨1, by simp, counted_update (P := (· = some c)) (n := 0) (Machine.Counted.empty hb) i _ ?_⟩
    simp [hi]
  · rw [Function.update_of_ne hcb] at hc
    obtain ⟨n, hn, hcount⟩ := h c hc
    refine ⟨n, by rw [Function.update_of_ne hcb, hn], counted_update (P := (· = some c)) hcount i _ ?_⟩
    simp [hi, Ne.symm hcb]

theorem free (h : Counts o r alive) (b : α) : Counts o r (Function.update alive b false) := by
  intro c hc
  refine h c ?_
  by_cases hcb : c = b
  · simp [hcb] at hc
  · rwa [Function.update_of_ne hcb] at hc

/-- What is referred to has a positive count. -/
theorem pos (h : Counts o r alive) {b : α} (hb : alive b = true) {i : ι} (hi : o i = some b) :
    0 < r b := by
  obtain ⟨n, hn, hcount⟩ := h b hb
  cases n with
  | zero => exact absurd hi (hcount.none i)
  | succ k => omega

/-- A place that holds the only reference is the only one that refers. -/
theorem last (h : Counts o r alive) {b : α} (hb : alive b = true) (hr : r b = 0) (i : ι) :
    o i ≠ some b := by
  obtain ⟨n, hn, hcount⟩ := h b hb
  obtain rfl : n = 0 := by omega
  exact hcount.none i

end Counts

end Shared
