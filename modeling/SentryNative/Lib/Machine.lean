import Mathlib.Data.Finset.Card
import Mathlib.Data.Nat.ModEq
import Mathlib.Logic.Relation

/-!
# Transition systems

States reached from a start by steps, the rule that proves an invariant of all
of them, the counting of threads behind a shared counter, and the arithmetic of
positions in a ring.
-/

namespace Machine

variable {σ : Type*} {ι : Type*}

inductive Reachable (start : σ → Prop) (step : σ → σ → Prop) : σ → Prop where
  | start {s : σ} : start s → Reachable start step s
  | next {s t : σ} : Reachable start step s → step s t → Reachable start step t

/-- What holds at the start and is kept by every step holds of every reachable state. -/
theorem Reachable.invariant {start : σ → Prop} {step : σ → σ → Prop} {I : σ → Prop}
    (init : ∀ s, start s → I s) (keep : ∀ s t, I s → step s t → I t) {s : σ}
    (h : Reachable start step s) : I s := by
  induction h with
  | start hs => exact init _ hs
  | next _ hstep ih => exact keep _ _ ih hstep

theorem Reachable.trans {start : σ → Prop} {step : σ → σ → Prop} {s t : σ}
    (h : Reachable start step s) (run : Relation.ReflTransGen step s t) :
    Reachable start step t := by
  induction run with
  | refl => exact h
  | tail _ hstep ih => exact .next ih hstep

/-- What a step keeps, a run keeps, where the states of the run are reachable. -/
theorem Reachable.run_invariant {start : σ → Prop} {step : σ → σ → Prop} {I : σ → Prop}
    (keep : ∀ s t, Reachable start step s → I s → step s t → I t) {s t : σ}
    (h : Reachable start step s) (run : Relation.ReflTransGen step s t) (hs : I s) : I t := by
  induction run with
  | refl => exact hs
  | tail hrun hstep ih => exact keep _ _ (h.trans hrun) ih hstep

/-- The state after some steps, if each of them can be made. -/
def run {α : Type*} (step : σ → α → Option σ) (s : σ) : List α → Option σ
  | [] => some s
  | l :: ls => (step s l).bind fun t => run step t ls

/-- A run that can be made reaches its last state. -/
theorem Reachable.of_run {α : Type*} {start : σ → Prop} {R : σ → σ → Prop}
    {step : σ → α → Option σ} (hR : ∀ s l t, step s l = some t → R s t) {s t : σ}
    (h : Reachable start R s) {ls : List α} (hr : run step s ls = some t) :
    Reachable start R t := by
  induction ls generalizing s with
  | nil => cases hr; exact h
  | cons l ls ih =>
    simp only [run] at hr
    cases hs : step s l with
    | none => simp [hs] at hr
    | some u =>
      rw [hs, Option.bind_some] at hr
      exact ih (.next h (hR s l u hs)) hr

/-- A run whose last state satisfies a test. -/
theorem Reachable.exists_of_run {α : Type*} (step : σ → α → Option σ) {R : σ → σ → Prop}
    (hR : ∀ s l t, step s l = some t → R s t) {s : σ} (ls : List α) (p : σ → Bool)
    (hp : (run step s ls).any p = true) : ∃ t, Reachable (· = s) R t ∧ p t = true := by
  cases hr : run step s ls with
  | none => simp [hr] at hp
  | some t => exact ⟨t, .of_run hR (.start rfl) hr, by simpa [hr] using hp⟩

/-! ## Counters -/

/-- Exactly `n` indices satisfy `P`. -/
def Counted (P : ι → Prop) (n : Nat) : Prop := ∃ s : Finset ι, (∀ i, i ∈ s ↔ P i) ∧ s.card = n

namespace Counted

variable {P Q : ι → Prop} {n : Nat}

theorem none (h : Counted P 0) (i : ι) : ¬ P i := by
  obtain ⟨s, hs, hc⟩ := h
  rw [Finset.card_eq_zero] at hc
  rw [← hs i, hc]
  exact Finset.notMem_empty i

theorem empty (h : ∀ i, ¬ P i) : Counted P 0 := ⟨∅, by simpa using h, rfl⟩

theorem congr (h : Counted P n) (hQ : ∀ i, Q i ↔ P i) : Counted Q n := by
  obtain ⟨s, hs, hc⟩ := h
  exact ⟨s, fun i => (hs i).trans (hQ i).symm, hc⟩

theorem add [DecidableEq ι] (h : Counted P n) {i : ι} (hi : ¬ P i)
    (hQ : ∀ j, Q j ↔ j = i ∨ P j) : Counted Q (n + 1) := by
  obtain ⟨s, hs, hc⟩ := h
  refine ⟨insert i s, ?_, ?_⟩
  · intro j
    rw [Finset.mem_insert, hs, hQ]
  · rw [Finset.card_insert_of_notMem ((hs i).not.mpr hi), hc]

theorem remove [DecidableEq ι] (h : Counted P n) {i : ι} (hi : P i)
    (hQ : ∀ j, Q j ↔ j ≠ i ∧ P j) : Counted Q (n - 1) := by
  obtain ⟨s, hs, hc⟩ := h
  refine ⟨s.erase i, ?_, ?_⟩
  · intro j
    rw [Finset.mem_erase, hs, hQ]
  · rw [Finset.card_erase_of_mem ((hs i).mpr hi), hc]

end Counted

/-! ## Rings -/

/-- Two positions less than a turn apart that share a slot are the same. -/
theorem eq_of_mod_eq {n lo g h : Nat} (hg : lo ≤ g) (hg' : g < lo + n) (hh : lo ≤ h)
    (hh' : h < lo + n) (hm : g % n = h % n) : g = h := by
  rcases Nat.le_total g h with hle | hle
  · have hd := (Nat.modEq_iff_dvd' hle).mp hm
    have := Nat.eq_zero_of_dvd_of_lt hd (by omega)
    omega
  · have hd := (Nat.modEq_iff_dvd' hle).mp hm.symm
    have := Nat.eq_zero_of_dvd_of_lt hd (by omega)
    omega

/-! ## Positions among the kept elements of a sequence -/

section Kept

variable {α : Type*} (f : Nat → α) (p : α → Bool)

/-- The first `n` elements of a sequence that pass the test. -/
def kept (n : Nat) : List α := ((List.range n).map f).filter p

variable {f p}

theorem kept_split {g n : Nat} (h : g < n) (hp : p (f g) = true) :
    ∃ rest, kept f p n = kept f p g ++ f g :: rest := by
  obtain ⟨k, rfl⟩ := Nat.exists_eq_add_of_lt h
  refine ⟨((List.range k).map fun i => f (g + 1 + i)).filter p, ?_⟩
  have hr : List.range (g + k + 1) = List.range g ++ (g :: (List.range k).map (g + 1 + ·)) := by
    rw [show g + k + 1 = (g + 1) + k by omega, List.range_add, List.range_succ]
    simp
  simp only [kept, hr, List.map_append, List.map_cons, List.filter_append, List.filter_cons, hp,
    ↓reduceIte, List.map_map]
  rfl

theorem getElem?_kept {g n : Nat} (h : g < n) (hp : p (f g) = true) :
    (kept f p n)[(kept f p g).length]? = some (f g) := by
  obtain ⟨rest, hr⟩ := kept_split h hp
  rw [hr, List.getElem?_append_right (Nat.le_refl _)]
  simp

theorem length_kept_lt {g n : Nat} (h : g < n) (hp : p (f g) = true) :
    (kept f p g).length < (kept f p n).length := by
  obtain ⟨rest, hr⟩ := kept_split h hp
  rw [hr]
  simp

end Kept

end Machine
