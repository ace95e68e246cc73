import SentryNative.Envelope.Model
import SentryNative.Lib.Machine

/-!
# Counters under concurrency

Any number of threads discard, save and restore; a step is one atomic access to
one counter. Save and restore go through the counters one by one, so a saved
report is no snapshot, but what is taken from a counter is in the report. The
steps are those of runs in which no counter exceeds `LONG_MAX`.
-/

namespace SentryNative.ReportRuns

open CLib

abbrev Cell := DiscardReason × DataCategory

/-- The counters in the order of the two loops. -/
def cells : List Cell := DiscardReason.all.flatMap fun r => DataCategory.all.map fun c => (r, c)

/-- `LONG_MAX` where `long` has 64 bits. -/
def longMax : Nat := 2 ^ 63 - 1

/-- Where the call is that works on a report: the cells it has not reached yet. -/
inductive Phase where
  | saving (rest : List Cell)
  | saved
  | restoring (rest : List Cell)
  | done
  deriving DecidableEq

/-- A `sentry_client_report_t` and what is being done with it. -/
structure Report where
  counts : Counts
  phase : Phase

structure State where
  counters : Counts
  reports : List Report
  /-- The objects that `sentry__envelope_add_client_report` wrote. -/
  emitted : List Value
  /-- What was passed to `sentry__client_report_discard` and valid. -/
  discarded : Counts

def State.start : State := ⟨.zero, [], [], .zero⟩

def setCell (counts : Counts) (cell : Cell) (n : Nat) : Counts :=
  fun r c => if (r, c) = cell then n else counts r c

/-- The cell of a call of `sentry__client_report_discard` that passes its check:
`reason` and `category` below their `MAX`, a quantity above zero. -/
def validDiscard (reason category : Nat) (quantity : Int) : Option Cell :=
  if quantity ≤ 0 then none
  else
    match DiscardReason.all[reason]?, DataCategory.all[category]? with
    | some r, some c => some (r, c)
    | _, _ => none

inductive Step : State → State → Prop where
  | discard {s : State} (reason category : Nat) (quantity : Int) (cell : Cell)
      (valid : validDiscard reason category quantity = some cell)
      (fits : s.counters cell.1 cell.2 + quantity.toNat ≤ longMax) :
      Step s { s with
        counters := s.counters.discard cell.1 cell.2 quantity.toNat
        discarded := s.discarded.discard cell.1 cell.2 quantity.toNat }
  | discardInvalid {s : State} (reason category : Nat) (quantity : Int)
      (invalid : validDiscard reason category quantity = none) : Step s s
  | save {s : State} : Step s { s with reports := s.reports ++ [⟨.zero, .saving cells⟩] }
  /-- The exchange of one counter with zero. -/
  | saveCell {s : State} (i : Nat) (counts : Counts) (cell : Cell) (rest : List Cell)
      (report : s.reports[i]? = some ⟨counts, .saving (cell :: rest)⟩) :
      Step s { s with
        counters := setCell s.counters cell 0
        reports := s.reports.set i
          ⟨setCell counts cell (s.counters cell.1 cell.2), .saving rest⟩ }
  | saveDone {s : State} (i : Nat) (counts : Counts)
      (report : s.reports[i]? = some ⟨counts, .saving []⟩) :
      Step s { s with reports := s.reports.set i ⟨counts, .saved⟩ }
  | restore {s : State} (i : Nat) (counts : Counts)
      (report : s.reports[i]? = some ⟨counts, .saved⟩) :
      Step s { s with reports := s.reports.set i ⟨counts, .restoring cells⟩ }
  /-- The addition to one counter, where the report has a count for it. -/
  | restoreCell {s : State} (i : Nat) (counts : Counts) (cell : Cell) (rest : List Cell)
      (report : s.reports[i]? = some ⟨counts, .restoring (cell :: rest)⟩)
      (fits : s.counters cell.1 cell.2 + counts cell.1 cell.2 ≤ longMax) :
      Step s { s with
        counters := if 0 < counts cell.1 cell.2 then
            s.counters.discard cell.1 cell.2 (counts cell.1 cell.2)
          else s.counters
        reports := s.reports.set i ⟨counts, .restoring rest⟩ }
  /-- The report is zero after a restore. -/
  | restoreDone {s : State} (i : Nat) (counts : Counts)
      (report : s.reports[i]? = some ⟨counts, .restoring []⟩) :
      Step s { s with reports := s.reports.set i ⟨.zero, .done⟩ }
  | emit {s : State} (i : Nat) (counts : Counts) (timestamp : Bytes)
      (report : s.reports[i]? = some ⟨counts, .saved⟩) :
      Step s { s with
        reports := s.reports.set i ⟨counts, .done⟩
        emitted := s.emitted ++ [Envelope.clientReportValue counts timestamp] }

def Reachable : State → Prop := Machine.Reachable (· = .start) Step

/-! ## What a report and an emitted object hold -/

/-- What a report holds of a cell that was not given back or emitted. -/
def Report.held (report : Report) (cell : Cell) : Nat :=
  match report.phase with
  | .saving _ => report.counts cell.1 cell.2
  | .saved => report.counts cell.1 cell.2
  | .restoring rest => if cell ∈ rest then report.counts cell.1 cell.2 else 0
  | .done => 0

/-- An object of the list names a reason and a category. -/
def names (cell : Cell) (entry : Value) : Bool :=
  (entry.getByKey (ascii "reason")).asString = ascii cell.1.toText &&
    (entry.getByKey (ascii "category")).asString = ascii cell.2.toText

/-- The list of an emitted object. -/
def listed : Value → List Value
  | .list es => es
  | _ => []

def entriesFor (cell : Cell) (v : Value) : List Value :=
  (listed (v.getByKey (ascii "discarded_events"))).filter (names cell)

/-- The quantities an emitted object gives for a cell. -/
def quantity (cell : Cell) (v : Value) : Int :=
  ((entriesFor cell v).map fun e => Envelope.asInt64 (e.getByKey (ascii "quantity"))).sum

/-- A discarded item is in a counter, in a report or in an emitted object. -/
def Conserved (s : State) : Prop :=
  ∀ cell : Cell, (s.discarded cell.1 cell.2 : Int) =
    s.counters cell.1 cell.2 + (s.reports.map (·.held cell)).sum + (s.emitted.map (quantity cell)).sum

/-- Every positive count of an emitted object is listed once. -/
def ListedOnce (v : Value) : Prop :=
  ∀ cell : Cell, (entriesFor cell v).length = if 0 < quantity cell v then 1 else 0

/-! ## An emitted object -/

theorem mem_cells (cell : Cell) : cell ∈ cells := by
  obtain ⟨r, c⟩ := cell
  have hr : r ∈ DiscardReason.all := by cases r <;> decide
  have hc : c ∈ DataCategory.all := by cases c <;> decide
  exact List.mem_flatMap.mpr ⟨r, hr, List.mem_map.mpr ⟨c, hc, rfl⟩⟩

theorem cells_nodup : cells.Nodup := by decide

theorem reason_text (r r' : DiscardReason) :
    (Value.string (ascii r.toText)).asString = ascii r'.toText ↔ r = r' := by
  cases r <;> cases r' <;> decide

theorem category_text (c c' : DataCategory) :
    (Value.string (ascii c.toText)).asString = ascii c'.toText ↔ c = c' := by
  cases c <;> cases c' <;> decide

/-- One object of the list. -/
def entry (cell : Cell) (n : Nat) : Value :=
  .object [(ascii "reason", .string (ascii cell.1.toText)),
    (ascii "category", .string (ascii cell.2.toText)), (ascii "quantity", .int64 (Int64.ofNat n))]

theorem names_entry (cell cell' : Cell) (n : Nat) :
    names cell (entry cell' n) = decide (cell' = cell) := by
  have h1 : ascii "reason" ≠ ascii "category" := by decide
  have hr : (entry cell' n).getByKey (ascii "reason") = .string (ascii cell'.1.toText) := by
    simp [entry, Value.getByKey, Value.lookup]
  have hc : (entry cell' n).getByKey (ascii "category") = .string (ascii cell'.2.toText) := by
    simp [entry, Value.getByKey, Value.lookup, h1]
  obtain ⟨r, c⟩ := cell
  obtain ⟨r', c'⟩ := cell'
  simp only [names, hr, hc, reason_text, category_text, Prod.mk.injEq, Bool.decide_and]

theorem quantity_entry (cell : Cell) {n : Nat} (h : n ≤ longMax) :
    Envelope.asInt64 ((entry cell n).getByKey (ascii "quantity")) = n := by
  have h1 : ascii "reason" ≠ ascii "quantity" := by decide
  have h2 : ascii "category" ≠ ascii "quantity" := by decide
  have hq : (entry cell n).getByKey (ascii "quantity") = .int64 (Int64.ofNat n) := by
    simp [entry, Value.getByKey, Value.lookup, h1, h2]
  rw [hq]
  unfold longMax at h
  exact Int64.toInt_ofNat_of_lt (by omega)

theorem entries_eq (counts : Counts) : counts.entries =
    cells.filterMap fun cell => if 0 < counts cell.1 cell.2 then
      some (cell.1, cell.2, counts cell.1 cell.2) else none := by
  simp only [Counts.entries, cells, List.filterMap_flatMap, List.filterMap_map, Function.comp_def]

/-- The objects for one cell among those of some cells. -/
theorem filter_entries (counts : Counts) (cell : Cell) {l : List Cell} (hl : l.Nodup) :
    ((l.filterMap fun cell => if 0 < counts cell.1 cell.2 then
      some (cell.1, cell.2, counts cell.1 cell.2) else none).map fun (r, c, n) =>
        entry (r, c) n).filter (names cell) =
      if cell ∈ l ∧ 0 < counts cell.1 cell.2 then [entry cell (counts cell.1 cell.2)] else [] := by
  induction l with
  | nil => simp
  | cons a l ih =>
    obtain ⟨ha, hn⟩ := List.nodup_cons.mp hl
    by_cases hp : 0 < counts a.1 a.2
    · by_cases hac : a = cell
      · subst a
        simp [List.filterMap_cons, hp, names_entry, ih hn, ha]
      · have hne : ¬cell = a := fun he => hac he.symm
        simp [List.filterMap_cons, hp, names_entry, ih hn, hac, hne]
    · by_cases hac : a = cell
      · subst a
        simp [List.filterMap_cons, hp, ih hn]
      · have hne : ¬cell = a := fun he => hac he.symm
        simp [List.filterMap_cons, hp, ih hn, hne]

theorem entriesFor_value (counts : Counts) (timestamp : Bytes) (cell : Cell) :
    entriesFor cell (Envelope.clientReportValue counts timestamp) =
      if 0 < counts cell.1 cell.2 then [entry cell (counts cell.1 cell.2)] else [] := by
  have h1 : ascii "timestamp" ≠ ascii "discarded_events" := by decide
  have hl : listed ((Envelope.clientReportValue counts timestamp).getByKey
      (ascii "discarded_events")) = counts.entries.map fun (r, c, n) => entry (r, c) n := by
    simp only [Envelope.clientReportValue, Value.getByKey, Value.lookup, h1, if_false, if_true]
    rfl
  unfold entriesFor
  rw [hl, entries_eq, filter_entries counts cell cells_nodup]
  simp [mem_cells]

theorem quantity_value {counts : Counts} (timestamp : Bytes) (cell : Cell)
    (h : counts cell.1 cell.2 ≤ longMax) :
    quantity cell (Envelope.clientReportValue counts timestamp) = counts cell.1 cell.2 := by
  unfold quantity
  rw [entriesFor_value]
  split
  · simp [quantity_entry cell h]
  · rename_i hz
    have : counts cell.1 cell.2 = 0 := by omega
    simp [this]

theorem listedOnce_value {counts : Counts} (timestamp : Bytes)
    (h : ∀ cell : Cell, counts cell.1 cell.2 ≤ longMax) :
    ListedOnce (Envelope.clientReportValue counts timestamp) := by
  intro cell
  rw [quantity_value timestamp cell (h cell), entriesFor_value]
  by_cases hp : 0 < counts cell.1 cell.2
  · simp [hp]
  · simp [hp]

/-! ## Steps -/

/-- One report is replaced, and the sum over the reports moves by its share. -/
theorem sum_set {α : Type*} (f : α → Nat) {l : List α} {i : Nat} {x : α} (h : l[i]? = some x) (y : α) :
    ((l.set i y).map f).sum + f x = (l.map f).sum + f y := by
  induction l generalizing i with
  | nil => simp at h
  | cons a l ih =>
    cases i with
    | zero =>
      simp only [List.getElem?_cons_zero, Option.some.injEq] at h
      subst a
      simp only [List.set_cons_zero, List.map_cons, List.sum_cons]
      omega
    | succ i =>
      simp only [List.getElem?_cons_succ] at h
      have := ih h
      simp only [List.set_cons_succ, List.map_cons, List.sum_cons]
      omega

/-- The cells that a call has still to reach are distinct, and a save has taken
nothing from them yet. -/
structure Report.Sound (report : Report) : Prop where
  fits : ∀ cell : Cell, report.counts cell.1 cell.2 ≤ longMax
  saving : ∀ rest, report.phase = .saving rest → rest.Nodup ∧ ∀ cell ∈ rest,
    report.counts cell.1 cell.2 = 0
  restoring : ∀ rest, report.phase = .restoring rest → rest.Nodup

structure Inv (s : State) : Prop where
  conserved : Conserved s
  fits : ∀ cell : Cell, s.counters cell.1 cell.2 ≤ longMax
  reports : ∀ r ∈ s.reports, r.Sound
  emitted : ∀ v ∈ s.emitted, ListedOnce v

theorem sound_zero : Report.Sound ⟨.zero, .saving cells⟩ := by
  constructor
  · exact fun cell => Nat.zero_le _
  · intro rest h
    cases h
    exact ⟨cells_nodup, fun cell _ => rfl⟩
  · intro rest h
    cases h

theorem sound_of_fits {counts : Counts} {phase : Phase}
    (hf : ∀ cell : Cell, counts cell.1 cell.2 ≤ longMax) (hs : ∀ rest, phase ≠ .saving rest)
    (hr : ∀ rest, phase = .restoring rest → rest.Nodup) : Report.Sound ⟨counts, phase⟩ :=
  ⟨hf, fun rest he => absurd he (hs rest), hr⟩

variable {s : State}

theorem discard_apply (counts : Counts) (cell cell' : Cell) (n : Nat) :
    counts.discard cell.1 cell.2 n cell'.1 cell'.2 =
      counts cell'.1 cell'.2 + if cell' = cell then n else 0 := by
  obtain ⟨r, c⟩ := cell
  obtain ⟨r', c'⟩ := cell'
  simp [Counts.discard]

theorem setCell_apply (counts : Counts) (cell cell' : Cell) (n : Nat) :
    setCell counts cell n cell'.1 cell'.2 = if cell' = cell then n else counts cell'.1 cell'.2 := rfl

/-- A step that replaces one report and moves the counters so that together they
hold as much of every cell as before. -/
theorem Inv.replace (h : Inv s) {i : Nat} {old new : Report} {counters : Counts}
    (hi : s.reports[i]? = some old) (hnew : new.Sound)
    (hfits : ∀ cell : Cell, counters cell.1 cell.2 ≤ longMax)
    (hsum : ∀ cell : Cell, counters cell.1 cell.2 + new.held cell =
      s.counters cell.1 cell.2 + old.held cell) :
    Inv { s with counters := counters, reports := s.reports.set i new } := by
  constructor
  · intro cell
    have hc := h.conserved cell
    have hset := sum_set (·.held cell) hi new
    have hs := hsum cell
    simp only at hset hc ⊢
    omega
  · exact hfits
  · intro r hr
    rcases List.mem_or_eq_of_mem_set hr with hr | rfl
    · exact h.reports r hr
    · exact hnew
  · exact h.emitted

theorem Inv.sound (h : Inv s) {i : Nat} {r : Report} (hi : s.reports[i]? = some r) : r.Sound :=
  h.reports r (List.mem_of_getElem? hi)

theorem Inv.discard (h : Inv s) {n : Nat} {cell : Cell}
    (fits : s.counters cell.1 cell.2 + n ≤ longMax) :
    Inv { s with
      counters := s.counters.discard cell.1 cell.2 n
      discarded := s.discarded.discard cell.1 cell.2 n } := by
  constructor
  · intro cell'
    have hc := h.conserved cell'
    simp only [discard_apply]
    split
    · rw [Int.natCast_add, Int.natCast_add]
      omega
    · simpa using hc
  · intro cell'
    have hf := h.fits cell'
    simp only [discard_apply]
    split
    · rename_i he
      subst cell'
      exact fits
    · exact hf
  · exact h.reports
  · exact h.emitted

theorem Inv.save (h : Inv s) : Inv { s with reports := s.reports ++ [⟨.zero, .saving cells⟩] } := by
  constructor
  · intro cell
    have hc := h.conserved cell
    have hz : Report.held ⟨.zero, .saving cells⟩ cell = 0 := rfl
    simp only [List.map_append, List.map_cons, List.map_nil, List.sum_append, List.sum_cons,
      List.sum_nil, hz]
    simpa using hc
  · exact h.fits
  · intro r hr
    rcases List.mem_append.mp hr with hr | hr
    · exact h.reports r hr
    · rw [List.mem_singleton.mp hr]
      exact sound_zero
  · exact h.emitted

/-- The exchange moves the whole counter into the report. -/
theorem Inv.saveCell (h : Inv s) {i : Nat} {counts : Counts} {cell : Cell} {rest : List Cell}
    (hi : s.reports[i]? = some ⟨counts, .saving (cell :: rest)⟩) :
    Inv { s with
      counters := setCell s.counters cell 0
      reports := s.reports.set i ⟨setCell counts cell (s.counters cell.1 cell.2), .saving rest⟩ } := by
  have hs := h.sound hi
  obtain ⟨hn, hz⟩ := hs.saving _ rfl
  obtain ⟨hc, hrest⟩ := List.nodup_cons.mp hn
  apply h.replace hi
  · constructor
    · intro cell'
      simp only [setCell_apply]
      split
      · exact h.fits cell
      · exact hs.fits cell'
    · intro rest' he
      cases he
      refine ⟨hrest, fun cell' hm => ?_⟩
      have hne : cell' ≠ cell := fun he => hc (he ▸ hm)
      simp only [setCell_apply, if_neg hne]
      exact hz cell' (List.mem_cons_of_mem cell hm)
    · intro rest' he
      cases he
  · intro cell'
    rw [setCell_apply]
    split
    · exact Nat.zero_le _
    · exact h.fits cell'
  · intro cell'
    have hz' : counts cell.1 cell.2 = 0 := hz cell List.mem_cons_self
    simp only [Report.held, setCell_apply]
    by_cases he : cell' = cell
    · subst cell'
      simp [hz']
    · simp [he]

/-- What is added to the counter leaves the report. -/
theorem Inv.restoreCell (h : Inv s) {i : Nat} {counts : Counts} {cell : Cell} {rest : List Cell}
    (hi : s.reports[i]? = some ⟨counts, .restoring (cell :: rest)⟩)
    (fits : s.counters cell.1 cell.2 + counts cell.1 cell.2 ≤ longMax) :
    Inv { s with
      counters := if 0 < counts cell.1 cell.2 then
          s.counters.discard cell.1 cell.2 (counts cell.1 cell.2)
        else s.counters
      reports := s.reports.set i ⟨counts, .restoring rest⟩ } := by
  have hs := h.sound hi
  obtain ⟨hc, hrest⟩ := List.nodup_cons.mp (hs.restoring _ rfl)
  have hcounters : ∀ cell' : Cell, (if 0 < counts cell.1 cell.2 then
      s.counters.discard cell.1 cell.2 (counts cell.1 cell.2) else s.counters) cell'.1 cell'.2 =
        s.counters cell'.1 cell'.2 + if cell' = cell then counts cell.1 cell.2 else 0 := by
    intro cell'
    split
    · exact discard_apply _ _ _ _
    · rename_i hz
      have hz' : counts cell.1 cell.2 = 0 := by omega
      simp [hz']
  apply h.replace hi
  · constructor
    · exact hs.fits
    · intro rest' he
      cases he
    · intro rest' he
      cases he
      exact hrest
  · intro cell'
    rw [hcounters]
    split
    · rename_i he
      subst cell'
      exact fits
    · exact h.fits cell'
  · intro cell'
    rw [hcounters]
    simp only [Report.held, List.mem_cons]
    by_cases he : cell' = cell
    · subst cell'
      simp [hc]
    · simp [he]

theorem Inv.emit (h : Inv s) {i : Nat} {counts : Counts} (timestamp : Bytes)
    (hi : s.reports[i]? = some ⟨counts, .saved⟩) :
    Inv { s with
      reports := s.reports.set i ⟨counts, .done⟩
      emitted := s.emitted ++ [Envelope.clientReportValue counts timestamp] } := by
  have hs := h.sound hi
  constructor
  · intro cell
    have hc := h.conserved cell
    have hset := sum_set (·.held cell) hi ⟨counts, .done⟩
    have hq := quantity_value timestamp cell (hs.fits cell)
    simp only [Report.held] at hset
    simp only [List.map_append, List.map_cons, List.map_nil, List.sum_append, List.sum_cons,
      List.sum_nil, hq]
    simp only [Report.held] at hc ⊢
    omega
  · exact h.fits
  · intro r hr
    rcases List.mem_or_eq_of_mem_set hr with hr | rfl
    · exact h.reports r hr
    · exact sound_of_fits hs.fits nofun nofun
  · intro v hv
    rcases List.mem_append.mp hv with hv | hv
    · exact h.emitted v hv
    · rw [List.mem_singleton.mp hv]
      exact listedOnce_value timestamp hs.fits

theorem Inv.step {t : State} (h : Inv s) (hstep : Step s t) : Inv t := by
  cases hstep with
  | discard reason category quantity cell valid fits => exact h.discard fits
  | discardInvalid => exact h
  | save => exact h.save
  | saveCell i counts cell rest report => exact h.saveCell report
  | saveDone i counts report =>
    exact h.replace report (sound_of_fits (h.sound report).fits nofun nofun) h.fits fun _ => rfl
  | restore i counts report =>
    have hn : ∀ rest, Phase.restoring cells = .restoring rest → rest.Nodup := by
      intro rest he
      cases he
      exact cells_nodup
    refine h.replace report (sound_of_fits (h.sound report).fits nofun hn) h.fits fun cell => ?_
    simp [Report.held, mem_cells]
  | restoreCell i counts cell rest report fits => exact h.restoreCell report fits
  | restoreDone i counts report =>
    refine h.replace report (sound_of_fits (fun _ => Nat.zero_le _) nofun nofun) h.fits
      fun cell => ?_
    simp [Report.held]
  | emit i counts timestamp report => exact h.emit timestamp report

theorem Inv.start : Inv .start := by
  refine ⟨fun cell => rfl, fun _ => Nat.zero_le _, ?_, ?_⟩
  · intro r hr
    cases hr
  · intro v hv
    cases hv

end SentryNative.ReportRuns
