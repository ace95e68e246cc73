import Mathlib.Data.Finset.Card
import Mathlib.Data.List.Nodup
import Mathlib.Data.List.Pairwise
import SentryNative.Daemon.Maps

/-!
# Addresses and modules

A module is recorded as the range from its load address to the end of its last mapping.
An address belongs to the first range that holds it. Here is what that says of the files
a process has mapped.
-/

namespace SentryNative.Daemon

open CLib

section
variable (elfIsFile : Bytes → Bool)

/-- The ELF file a mapping is of. -/
def Line.elf (l : Line) : Option Bytes := l.file.filter elfIsFile

/-- The first mapping of an ELF file. -/
def Maps.First (maps : Maps) (l : Line) (name : Bytes) : Prop :=
  l ∈ maps.lines ∧ l.elf elfIsFile = some name ∧
    ∀ k ∈ maps.lines, k.elf elfIsFile = some name → l.start.value ≤ k.start.value

/-- The file has mappings on both sides of the address. -/
def Maps.Surrounds (maps : Maps) (name : Bytes) (addr : UInt64) : Prop :=
  (∃ a ∈ maps.lines, a.elf elfIsFile = some name ∧ a.stop.value ≤ addr) ∧
    ∃ b ∈ maps.lines, b.elf elfIsFile = some name ∧ addr < b.start.value

def elfFiles (ls : List Line) : Finset Bytes := (ls.filterMap (Line.elf elfIsFile)).toFinset

/-- What the list of modules is for. -/
structure Attributes (maps : Maps) (ms : List Module) : Prop where
  ofElf : ∀ l ∈ maps.lines, ∀ name, l.elf elfIsFile = some name → ∀ addr, l.Holds addr →
    enrichFrameWithModuleInfo ms addr = some name
  ofOther : ∀ l ∈ maps.lines, l.elf elfIsFile = none → ∀ addr, l.Holds addr → ∀ name,
    enrichFrameWithModuleInfo ms addr = some name → maps.Surrounds elfIsFile name addr
  base : ∀ m ∈ ms, ∀ l, maps.First elfIsFile l m.name → m.baseAddress ≤ l.start.value
  noWrap : ∀ m ∈ ms, m.baseAddress.toNat + m.size.toNat < 2 ^ 64
  distinct : (ms.map (·.name)).Nodup

/-- The process images the ranges fit. -/
structure Plain (maps : Maps) : Prop where
  room : ∀ pre l post, maps.lines = pre ++ l :: post → l.elf elfIsFile ≠ none →
    (elfFiles elfIsFile pre).card < crashMaxModules
  loaded : ∀ l name, maps.First elfIsFile l name → l.offset.value ≤ l.start.value
  contiguous : ∀ a ∈ maps.lines, ∀ b ∈ maps.lines, ∀ c ∈ maps.lines, ∀ name other,
    a.elf elfIsFile = some name → b.elf elfIsFile = some other → c.elf elfIsFile = some name →
    a.stop.value ≤ b.start.value → b.stop.value ≤ c.start.value → other = name
  clear : ∀ l ∈ maps.lines, l.elf elfIsFile = none → ∀ addr, l.Holds addr → ∀ f name,
    maps.First elfIsFile f name → f.start.value - f.offset.value ≤ addr → addr < f.start.value →
    ∃ other, maps.Surrounds elfIsFile other addr

end

/-! ## Spans -/

/-- A recorded module with the mappings its range comes from. -/
structure Span where
  name : Bytes
  first : Line
  last : Line

def Span.base (g : Span) : UInt64 := g.first.start.value - g.first.offset.value

def Span.toModule (g : Span) : Module :=
  { name := g.name, baseAddress := g.base, size := g.last.stop.value - g.base }

theorem Span.toModule_end (g : Span) : g.toModule.baseAddress + g.toModule.size = g.last.stop.value := by
  unfold Span.toModule
  rw [UInt64.add_comm, UInt64.sub_add_cancel]

theorem Span.holds_iff (g : Span) (addr : UInt64) :
    g.toModule.Holds addr ↔ g.base ≤ addr ∧ addr < g.last.stop.value := by
  unfold Module.Holds
  rw [Span.toModule_end]
  rfl

def Span.reach (g : Span) (l : Line) : Span := { g with last := l }

theorem Span.extend_toModule (g : Span) (l : Line) (h : g.last.stop.value < l.stop.value) :
    g.toModule.extend l.stop.value = (g.reach l).toModule := by
  unfold Module.extend
  rw [Span.toModule_end, if_pos h]
  rfl

theorem Line.lt (l : Line) : l.start.value.toNat < l.stop.value.toNat := UInt64.lt_iff_toNat_lt.mp l.nonempty

section
variable {elfIsFile : Bytes → Bool}

theorem Line.elf_eq_some {l : Line} {name : Bytes} :
    l.elf elfIsFile = some name ↔ l.file = some name ∧ elfIsFile name = true := by
  simp [Line.elf, Option.filter_eq_some_iff]

theorem Line.file_length {l : Line} {name : Bytes} (h : l.file = some name) : name.length ≤ crashMaxPath - 1 := by
  have hname : l.path = name := by
    unfold Line.file at h
    split at h
    · cases h
    · exact Option.some.inj h
  have hshort := l.short
  simp only [Entry.text, List.length_append, List.length_cons, hname, mapsLineSize, crashMaxPath] at hshort ⊢
  omega

/-- The spans are those of the lines read. -/
structure Tracked (elfIsFile : Bytes → Bool) (ls : List Line) (gs : List Span) : Prop where
  nodup : (gs.map (·.name)).Nodup
  first : ∀ g ∈ gs, g.first ∈ ls ∧ g.first.elf elfIsFile = some g.name
  last : ∀ g ∈ gs, g.last ∈ ls ∧ g.last.elf elfIsFile = some g.name
  first_le : ∀ g ∈ gs, ∀ l ∈ ls, l.elf elfIsFile = some g.name → g.first.start.value.toNat ≤ l.start.value.toNat
  le_last : ∀ g ∈ gs, ∀ l ∈ ls, l.elf elfIsFile = some g.name → l.stop.value.toNat ≤ g.last.stop.value.toNat
  covers : ∀ l ∈ ls, ∀ name, l.elf elfIsFile = some name → ∃ g ∈ gs, g.name = name
  ordered : gs.Pairwise (fun g h => g.first.start.value.toNat < h.first.start.value.toNat)

theorem Tracked.nil : Tracked elfIsFile [] [] where
  nodup := List.nodup_nil
  first := by simp
  last := by simp
  first_le := by simp
  le_last := by simp
  covers := by simp
  ordered := List.Pairwise.nil

theorem Tracked.other {ls : List Line} {gs : List Span} (h : Tracked elfIsFile ls gs) {l : Line}
    (hl : l.elf elfIsFile = none) : Tracked elfIsFile (ls ++ [l]) gs := by
  have hold : ∀ k ∈ ls ++ [l], ∀ name, k.elf elfIsFile = some name → k ∈ ls := by
    intro k hk name hname
    obtain hk | hk := List.mem_append.mp hk
    · exact hk
    · rw [List.mem_singleton.mp hk, hl] at hname
      cases hname
  exact {
    nodup := h.nodup
    first := fun g hg => ⟨List.mem_append_left _ (h.first g hg).1, (h.first g hg).2⟩
    last := fun g hg => ⟨List.mem_append_left _ (h.last g hg).1, (h.last g hg).2⟩
    first_le := fun g hg k hk hname => h.first_le g hg k (hold k hk _ hname) hname
    le_last := fun g hg k hk hname => h.le_last g hg k (hold k hk _ hname) hname
    covers := fun k hk name hname => h.covers k (hold k hk name hname) name hname
    ordered := h.ordered }

/-- A further mapping of a file that is recorded. -/
def reachNamed (name : Bytes) (l : Line) (gs : List Span) : List Span :=
  gs.map (fun g => if g.name = name then g.reach l else g)

theorem reachNamed_name (name : Bytes) (l : Line) (gs : List Span) :
    (reachNamed name l gs).map (·.name) = gs.map (·.name) := by
  unfold reachNamed
  rw [List.map_map]
  apply List.map_congr_left
  intro g _
  simp only [Function.comp_apply]
  split <;> rfl

theorem mem_reachNamed {name : Bytes} {l : Line} {gs : List Span} {g : Span} (h : g ∈ reachNamed name l gs) :
    ∃ k ∈ gs, k.name = g.name ∧ k.first = g.first ∧
      (g.name = name ∧ g.last = l ∨ g.name ≠ name ∧ g.last = k.last) := by
  obtain ⟨k, hk, hg⟩ := List.mem_map.mp h
  split at hg
  · rename_i hname
    subst hg
    exact ⟨k, hk, rfl, rfl, .inl ⟨hname, rfl⟩⟩
  · rename_i hname
    subst hg
    exact ⟨k, hk, rfl, rfl, .inr ⟨hname, rfl⟩⟩

theorem Tracked.reach {ls : List Line} {gs : List Span} (h : Tracked elfIsFile ls gs) {l : Line} {name : Bytes}
    (hl : l.elf elfIsFile = some name) (hafter : ∀ k ∈ ls, k.stop.value.toNat ≤ l.start.value.toNat)
    (hrecorded : ∃ g ∈ gs, g.name = name) : Tracked elfIsFile (ls ++ [l]) (reachNamed name l gs) where
  nodup := by
    rw [reachNamed_name]
    exact h.nodup
  first := by
    intro g hg
    obtain ⟨k, hk, hname, hfirst, -⟩ := mem_reachNamed hg
    rw [← hname, ← hfirst]
    exact ⟨List.mem_append_left _ (h.first k hk).1, (h.first k hk).2⟩
  last := by
    intro g hg
    obtain ⟨k, hk, hname, -, ⟨hn, hlast⟩ | ⟨-, hlast⟩⟩ := mem_reachNamed hg
    · rw [hlast, hn]
      exact ⟨List.mem_append_right _ List.mem_cons_self, hl⟩
    · rw [hlast, ← hname]
      exact ⟨List.mem_append_left _ (h.last k hk).1, (h.last k hk).2⟩
  first_le := by
    intro g hg c hc hcname
    obtain ⟨k, hk, hname, hfirst, -⟩ := mem_reachNamed hg
    rw [← hfirst]
    obtain hc | hc := List.mem_append.mp hc
    · exact h.first_le k hk c hc (hname ▸ hcname)
    · rw [List.mem_singleton.mp hc]
      have hbefore := hafter _ (h.first k hk).1
      have hlt := k.first.lt
      omega
  le_last := by
    intro g hg c hc hcname
    obtain ⟨k, hk, hname, -, ⟨hn, hlast⟩ | ⟨hn, hlast⟩⟩ := mem_reachNamed hg
    · rw [hlast]
      obtain hc | hc := List.mem_append.mp hc
      · have hbefore := hafter c hc
        have hlt := l.lt
        omega
      · rw [List.mem_singleton.mp hc]
    · rw [hlast]
      obtain hc | hc := List.mem_append.mp hc
      · exact h.le_last k hk c hc (hname ▸ hcname)
      · rw [List.mem_singleton.mp hc, hl] at hcname
        exact absurd (Option.some.inj hcname).symm hn
  covers := by
    intro c hc other hother
    have hnamed : ∃ g ∈ gs, g.name = other := by
      obtain hc | hc := List.mem_append.mp hc
      · exact h.covers c hc other hother
      · rw [List.mem_singleton.mp hc, hl] at hother
        rw [← Option.some.inj hother]
        exact hrecorded
    have hmem : other ∈ (reachNamed name l gs).map (·.name) := by
      rw [reachNamed_name]
      exact List.mem_map.mpr hnamed
    exact List.mem_map.mp hmem
  ordered := by
    apply List.Pairwise.map _ _ h.ordered
    intro g k hgk
    split <;> split <;> exact hgk

theorem Tracked.add {ls : List Line} {gs : List Span} (h : Tracked elfIsFile ls gs) {l : Line} {name : Bytes}
    (hl : l.elf elfIsFile = some name) (hafter : ∀ k ∈ ls, k.stop.value.toNat ≤ l.start.value.toNat)
    (hnew : ¬∃ g ∈ gs, g.name = name) : Tracked elfIsFile (ls ++ [l]) (gs ++ [⟨name, l, l⟩]) := by
  have hfresh : ∀ c ∈ ls ++ [l], c.elf elfIsFile = some name → c = l := by
    intro c hc hcname
    obtain hc | hc := List.mem_append.mp hc
    · exact absurd (h.covers c hc name hcname) hnew
    · exact List.mem_singleton.mp hc
  have hold : ∀ g ∈ gs, ∀ c ∈ ls ++ [l], c.elf elfIsFile = some g.name → c ∈ ls := by
    intro g hg c hc hcname
    obtain hc | hc := List.mem_append.mp hc
    · exact hc
    · rw [List.mem_singleton.mp hc, hl] at hcname
      exact absurd ⟨g, hg, (Option.some.inj hcname).symm⟩ hnew
  have hlmem : l ∈ ls ++ [l] := List.mem_append_right _ List.mem_cons_self
  exact {
    nodup := by
      rw [List.map_append, List.nodup_append]
      refine ⟨h.nodup, List.nodup_singleton _, ?_⟩
      intro a ha b hb hab
      obtain ⟨g, hg, rfl⟩ := List.mem_map.mp ha
      exact hnew ⟨g, hg, hab.trans (List.mem_singleton.mp hb)⟩
    first := by
      intro g hg
      obtain hg | hg := List.mem_append.mp hg
      · exact ⟨List.mem_append_left _ (h.first g hg).1, (h.first g hg).2⟩
      · rw [List.mem_singleton.mp hg]
        exact ⟨hlmem, hl⟩
    last := by
      intro g hg
      obtain hg | hg := List.mem_append.mp hg
      · exact ⟨List.mem_append_left _ (h.last g hg).1, (h.last g hg).2⟩
      · rw [List.mem_singleton.mp hg]
        exact ⟨hlmem, hl⟩
    first_le := by
      intro g hg c hc hcname
      obtain hg | hg := List.mem_append.mp hg
      · exact h.first_le g hg c (hold g hg c hc hcname) hcname
      · rw [List.mem_singleton.mp hg] at hcname ⊢
        rw [hfresh c hc hcname]
    le_last := by
      intro g hg c hc hcname
      obtain hg | hg := List.mem_append.mp hg
      · exact h.le_last g hg c (hold g hg c hc hcname) hcname
      · rw [List.mem_singleton.mp hg] at hcname ⊢
        rw [hfresh c hc hcname]
    covers := by
      intro c hc other hother
      obtain hc | hc := List.mem_append.mp hc
      · obtain ⟨g, hg, hname⟩ := h.covers c hc other hother
        exact ⟨g, List.mem_append_left _ hg, hname⟩
      · rw [List.mem_singleton.mp hc, hl] at hother
        exact ⟨_, List.mem_append_right _ List.mem_cons_self, Option.some.inj hother⟩
    ordered := by
      rw [List.pairwise_append]
      refine ⟨h.ordered, List.pairwise_singleton _ _, ?_⟩
      intro g hg k hk
      rw [List.mem_singleton.mp hk]
      show g.first.start.value.toNat < l.start.value.toNat
      have hbefore := hafter _ (h.first g hg).1
      have hlt := g.first.lt
      omega }

theorem Tracked.card {ls : List Line} {gs : List Span} (h : Tracked elfIsFile ls gs) :
    (elfFiles elfIsFile ls).card = gs.length := by
  have hnames : elfFiles elfIsFile ls = (gs.map (·.name)).toFinset := by
    ext name
    simp only [elfFiles, List.mem_toFinset, List.mem_filterMap, List.mem_map]
    constructor
    · rintro ⟨l, hl, hname⟩
      exact h.covers l hl name hname
    · rintro ⟨g, hg, rfl⟩
      exact ⟨g.first, h.first g hg⟩
  rw [hnames, List.toFinset_card_of_nodup h.nodup, List.length_map]

/-! ## The loop keeps the spans -/

theorem extendFirst_toModule {name : Bytes} {l : Line} {gs : List Span} (hnodup : (gs.map (·.name)).Nodup)
    (hlast : ∀ g ∈ gs, g.last.stop.value < l.stop.value) :
    extendFirst name l.stop.value (gs.map (·.toModule)) = (reachNamed name l gs).map (·.toModule) := by
  induction gs with
  | nil => rfl
  | cons g gs ih =>
    obtain ⟨hg, hrest⟩ := List.nodup_cons.mp hnodup
    simp only [List.map_cons, extendFirst, reachNamed]
    by_cases hname : g.name = name
    · have hothers : gs.map (fun k => if k.name = name then k.reach l else k) = gs := by
        refine (List.map_congr_left ?_).trans (List.map_id gs)
        intro k hk
        apply if_neg
        intro hk'
        exact hg (List.mem_map.mpr ⟨k, hk, hk'.trans hname.symm⟩)
      rw [if_pos hname, if_pos (show g.toModule.name = name from hname), hothers,
        g.extend_toModule l (hlast g List.mem_cons_self)]
    · rw [if_neg hname, if_neg (show g.toModule.name ≠ name from hname),
        ih hrest (fun k hk => hlast k (List.mem_cons_of_mem _ hk))]
      rfl

theorem any_toModule (gs : List Span) (name : Bytes) :
    (gs.map (·.toModule)).any (·.name = name) = true ↔ ∃ g ∈ gs, g.name = name := by
  simp [List.any_eq_true, Span.toModule]

theorem recordLine_other (gs : List Span) (hgs : ∀ g ∈ gs, elfIsFile g.name = true) {l : Line}
    (hl : l.elf elfIsFile = none) :
    recordLine elfIsFile (gs.map (·.toModule)) l = gs.map (·.toModule) := by
  unfold recordLine
  split
  · rfl
  · cases hfile : l.file with
    | none => rfl
    | some name =>
      have hname : elfIsFile name = false := by
        simpa [Line.elf, hfile, Option.filter] using hl
      have hnew : ¬(gs.map (·.toModule)).any (·.name = name) = true := by
        rw [any_toModule]
        rintro ⟨g, hg, rfl⟩
        rw [hgs g hg] at hname
        cases hname
      simp only [recordMapping, if_neg hnew, List.take_of_length_le (l.file_length hfile), hname]
      rfl

theorem recordLine_elf {ls : List Line} {gs : List Span} (h : Tracked elfIsFile ls gs)
    (hroom : gs.length < crashMaxModules) {l : Line} {name : Bytes} (hl : l.elf elfIsFile = some name)
    (hafter : ∀ k ∈ ls, k.stop.value.toNat ≤ l.start.value.toNat) :
    ∃ gs', recordLine elfIsFile (gs.map (·.toModule)) l = gs'.map (·.toModule) ∧ Tracked elfIsFile (ls ++ [l]) gs' ∧
      gs'.length ≤ gs.length + 1 := by
  obtain ⟨hfile, hname⟩ := Line.elf_eq_some.mp hl
  have hlength : ¬crashMaxModules ≤ (gs.map (·.toModule)).length := by
    rw [List.length_map]
    omega
  unfold recordLine recordMapping
  simp only [if_neg hlength, hfile]
  by_cases hrecorded : ∃ g ∈ gs, g.name = name
  · refine ⟨reachNamed name l gs, ?_, h.reach hl hafter hrecorded, by simp [reachNamed]⟩
    rw [if_pos ((any_toModule gs name).mpr hrecorded)]
    apply extendFirst_toModule h.nodup
    intro g hg
    rw [UInt64.lt_iff_toNat_lt]
    exact Nat.lt_of_le_of_lt (hafter _ (h.last g hg).1) l.lt
  · refine ⟨gs ++ [⟨name, l, l⟩], ?_, h.add hl hafter hrecorded, by simp⟩
    have hnew : ¬(gs.map (·.toModule)).any (·.name = name) = true := fun hany =>
      hrecorded ((any_toModule gs name).mp hany)
    simp only [if_neg hnew, List.take_of_length_le (l.file_length hfile), hname, List.map_append]
    rfl

theorem Tracked.elf {ls : List Line} {gs : List Span} (h : Tracked elfIsFile ls gs) :
    ∀ g ∈ gs, elfIsFile g.name = true :=
  fun g hg => (Line.elf_eq_some.mp (h.first g hg).2).2

/-- The list is that of the lines read before it was full. -/
structure Captured (elfIsFile : Bytes → Bool) (ls : List Line) (gs : List Span) (read rest : List Line) : Prop where
  modules : ls.foldl (recordLine elfIsFile) [] = gs.map (·.toModule)
  split : ls = read ++ rest
  tracked : Tracked elfIsFile read gs
  length : gs.length ≤ crashMaxModules
  full : rest = [] ∨ crashMaxModules ≤ gs.length

theorem captured (elfIsFile : Bytes → Bool) (ls : List Line) (h : ls.Pairwise (fun a b => a.stop.value ≤ b.start.value)) :
    ∃ gs read rest, Captured elfIsFile ls gs read rest := by
  induction ls using List.reverseRecOn with
  | nil => exact ⟨[], [], [], rfl, rfl, Tracked.nil, Nat.zero_le _, .inl rfl⟩
  | append_singleton ls l ih =>
    obtain ⟨hls, -, hafter⟩ := List.pairwise_append.mp h
    obtain ⟨gs, read, rest, c⟩ := ih hls
    have hfold : (ls ++ [l]).foldl (recordLine elfIsFile) [] = recordLine elfIsFile (gs.map (·.toModule)) l := by
      rw [List.foldl_append, c.modules]
      rfl
    by_cases hfull : crashMaxModules ≤ gs.length
    · refine ⟨gs, read, rest ++ [l], ?_, ?_, c.tracked, c.length, .inr hfull⟩
      · rw [hfold]
        exact if_pos (by rwa [List.length_map])
      · rw [← List.append_assoc, ← c.split]
    · obtain rfl : rest = [] := c.full.resolve_right hfull
      have hread : ls = read := c.split.trans (List.append_nil read)
      cases hl : l.elf elfIsFile with
      | none =>
        refine ⟨gs, read ++ [l], [], ?_, by rw [hread, List.append_nil], c.tracked.other hl, c.length, .inl rfl⟩
        rw [hfold]
        exact recordLine_other gs c.tracked.elf hl
      | some name =>
        have hbefore : ∀ k ∈ read, k.stop.value.toNat ≤ l.start.value.toNat := fun k hk =>
          UInt64.le_iff_toNat_le.mp (hafter k (hread ▸ hk) l List.mem_cons_self)
        obtain ⟨gs', hrecord, htracked, hlength⟩ :=
          recordLine_elf c.tracked (Nat.lt_of_not_le hfull) hl hbefore
        refine ⟨gs', read ++ [l], [], ?_, by rw [hread, List.append_nil], htracked, by omega, .inl rfl⟩
        rw [hfold]
        exact hrecord

/-! ## Looking up -/

theorem enrich_eq_some {gs : List Span} (hlength : gs.length ≤ crashMaxModules) {addr : UInt64} {name : Bytes} :
    enrichFrameWithModuleInfo (gs.map (·.toModule)) addr = some name ↔
      ∃ g pre post, gs = pre ++ g :: post ∧ g.name = name ∧ g.toModule.Holds addr ∧
        ∀ k ∈ pre, ¬k.toModule.Holds addr := by
  unfold enrichFrameWithModuleInfo
  rw [List.take_of_length_le (by rwa [List.length_map]), List.find?_map, Option.map_map, Option.map_eq_some_iff]
  constructor
  · rintro ⟨g, hg, hname⟩
    obtain ⟨hholds, pre, post, hgs, hpre⟩ := List.find?_eq_some_iff_append.mp hg
    exact ⟨g, pre, post, hgs, hname, by simpa using hholds, fun k hk => by simpa using hpre k hk⟩
  · rintro ⟨g, pre, post, hgs, hname, hholds, hpre⟩
    exact ⟨g, List.find?_eq_some_iff_append.mpr
      ⟨by simpa using hholds, pre, post, hgs, fun k hk => by simpa using hpre k hk⟩, hname⟩

theorem enrich_isSome {gs : List Span} (hlength : gs.length ≤ crashMaxModules) {addr : UInt64} {g : Span}
    (hg : g ∈ gs) (hholds : g.toModule.Holds addr) :
    ∃ name, enrichFrameWithModuleInfo (gs.map (·.toModule)) addr = some name := by
  unfold enrichFrameWithModuleInfo
  rw [List.take_of_length_le (by rwa [List.length_map])]
  apply Option.isSome_iff_exists.mp
  rw [Option.isSome_map, List.find?_isSome]
  exact ⟨g.toModule, List.mem_map_of_mem hg, by simpa using hholds⟩

/-- One of two mappings ends before the other starts. -/
def Line.Apart (a b : Line) : Prop :=
  a.stop.value.toNat ≤ b.start.value.toNat ∨ b.stop.value.toNat ≤ a.start.value.toNat

instance : Std.Symm Line.Apart := ⟨fun _ _ h => h.symm⟩

theorem Maps.apart (maps : Maps) {a b : Line} (ha : a ∈ maps.lines) (hb : b ∈ maps.lines) (hne : a ≠ b) :
    a.Apart b := by
  have hpairs : maps.lines.Pairwise Line.Apart :=
    maps.ascending.imp (fun h => .inl (UInt64.le_iff_toNat_le.mp h))
  exact hpairs.forall ha hb hne

theorem Maps.First.eq {maps : Maps} {a b : Line} {name : Bytes} (ha : maps.First elfIsFile a name)
    (hb : maps.First elfIsFile b name) : a = b := by
  by_contra hne
  have hab := UInt64.le_iff_toNat_le.mp (ha.2.2 b hb.1 hb.2.1)
  have hba := UInt64.le_iff_toNat_le.mp (hb.2.2 a ha.1 ha.2.1)
  have hlta := a.lt
  have hltb := b.lt
  obtain h | h := maps.apart ha.1 hb.1 hne <;> omega

section
variable {maps : Maps} {gs : List Span} (h : Tracked elfIsFile maps.lines gs)
include h

theorem Tracked.isFirst {g : Span} (hg : g ∈ gs) : maps.First elfIsFile g.first g.name :=
  ⟨(h.first g hg).1, (h.first g hg).2, fun k hk hname => UInt64.le_iff_toNat_le.mpr (h.first_le g hg k hk hname)⟩

theorem Tracked.of_first {l : Line} {name : Bytes} (hl : maps.First elfIsFile l name) :
    ∃ g ∈ gs, g.name = name ∧ g.first = l := by
  obtain ⟨g, hg, rfl⟩ := h.covers l hl.1 name hl.2.1
  exact ⟨g, hg, rfl, (h.isFirst hg).eq hl⟩

theorem Tracked.eq_of_name {g k : Span} (hg : g ∈ gs) (hk : k ∈ gs) (hname : g.name = k.name) : g = k :=
  List.inj_on_of_nodup_map h.nodup hg hk hname

/-- A span that starts earlier stands earlier. -/
theorem Tracked.mem_pre {pre post : List Span} {g k : Span} (hgs : gs = pre ++ g :: post) (hk : k ∈ gs)
    (hlt : k.first.start.value.toNat < g.first.start.value.toNat) : k ∈ pre := by
  have hordered := h.ordered
  rw [hgs] at hk hordered
  obtain ⟨-, hpost, -⟩ := List.pairwise_append.mp hordered
  obtain hk | hk := List.mem_append.mp hk
  · exact hk
  · obtain rfl | hk := List.mem_cons.mp hk
    · omega
    · have hafter := (List.pairwise_cons.mp hpost).1 k hk
      omega

/-- A file with a mapping before the address and one after it holds it. -/
theorem Tracked.holds {g : Span} (hg : g ∈ gs) (hbase : g.base.toNat ≤ g.first.start.value.toNat) {addr : UInt64}
    {a c : Line} (ha : a ∈ maps.lines) (hc : c ∈ maps.lines) (haname : a.elf elfIsFile = some g.name)
    (hcname : c.elf elfIsFile = some g.name) (hbefore : a.start.value.toNat ≤ addr.toNat)
    (hafter : addr.toNat < c.stop.value.toNat) : g.toModule.Holds addr := by
  rw [Span.holds_iff, UInt64.le_iff_toNat_le, UInt64.lt_iff_toNat_lt]
  have hfirst := h.first_le g hg a ha haname
  have hlast := h.le_last g hg c hc hcname
  omega

theorem Tracked.first_lt {g : Span} (hg : g ∈ gs) : g.first.start.value.toNat < g.last.stop.value.toNat :=
  Nat.lt_of_lt_of_le g.first.lt (h.le_last g hg g.first (h.first g hg).1 (h.first g hg).2)

end

/-! ## When the ranges are right -/

theorem Span.base_toNat {g : Span} (hloaded : g.first.offset.value ≤ g.first.start.value) :
    g.base.toNat = g.first.start.value.toNat - g.first.offset.value.toNat :=
  UInt64.toNat_sub_of_le _ _ hloaded

section
variable {maps : Maps} {gs : List Span} (h : Tracked elfIsFile maps.lines gs)
  (hlength : gs.length ≤ crashMaxModules)
include h

theorem Tracked.base_le (hplain : Plain elfIsFile maps) {g : Span} (hg : g ∈ gs) :
    g.base.toNat ≤ g.first.start.value.toNat := by
  rw [Span.base_toNat (hplain.loaded g.first g.name (h.isFirst hg))]
  exact Nat.sub_le _ _

include hlength

theorem attributes_of_plain (hplain : Plain elfIsFile maps) : Attributes elfIsFile maps (gs.map (·.toModule)) where
  ofElf := by
    intro l hl name hname addr haddr
    obtain ⟨hlo, hhi⟩ := haddr
    rw [UInt64.le_iff_toNat_le] at hlo
    rw [UInt64.lt_iff_toNat_lt] at hhi
    obtain ⟨g, hg, rfl⟩ := h.covers l hl name hname
    obtain ⟨pre, post, hgs⟩ := List.append_of_mem hg
    rw [enrich_eq_some hlength]
    refine ⟨g, pre, post, hgs, rfl, h.holds hg (h.base_le hplain hg) hl hl hname hname hlo hhi, ?_⟩
    -- an earlier span that holds the address has mappings on both sides of this one
    intro k hkpre hholds
    have hk : k ∈ gs := by
      rw [hgs]
      exact List.mem_append_left _ hkpre
    have hlt : k.first.start.value.toNat < g.first.start.value.toNat := by
      have hordered := h.ordered
      rw [hgs] at hordered
      exact (List.pairwise_append.mp hordered).2.2 k hkpre g List.mem_cons_self
    have hle := h.first_le g hg l hl hname
    have hend := UInt64.lt_iff_toNat_lt.mp ((k.holds_iff addr).mp hholds).2
    have hother : k.name ≠ g.name := by
      intro heq
      rw [h.eq_of_name hk hg heq] at hlt
      omega
    have hapart : ∀ c ∈ maps.lines, c.elf elfIsFile = some k.name → c.Apart l := by
      intro c hc hcname
      apply maps.apart hc hl
      rintro rfl
      exact hother (Option.some.inj (hcname.symm.trans hname))
    have hfirst := k.first.lt
    have hlast := k.last.lt
    have hl' := l.lt
    obtain hf | hf := hapart k.first (h.first k hk).1 (h.first k hk).2
    · obtain he | he := hapart k.last (h.last k hk).1 (h.last k hk).2
      · omega
      · exact hother (hplain.contiguous k.first (h.first k hk).1 l hl k.last (h.last k hk).1 k.name g.name
          (h.first k hk).2 hname (h.last k hk).2 (UInt64.le_iff_toNat_le.mpr hf) (UInt64.le_iff_toNat_le.mpr he)).symm
    · omega
  ofOther := by
    intro l hl hnone addr haddr name hname
    obtain ⟨g, pre, post, hgs, rfl, hholds, hpre⟩ := (enrich_eq_some hlength).mp hname
    have hg : g ∈ gs := by
      rw [hgs]
      exact List.mem_append_right _ List.mem_cons_self
    obtain ⟨hbase, hend⟩ := (g.holds_iff addr).mp hholds
    have hend' := UInt64.lt_iff_toNat_lt.mp hend
    have hlo := UInt64.le_iff_toNat_le.mp haddr.1
    have hhi := UInt64.lt_iff_toNat_lt.mp haddr.2
    have hapart : ∀ c ∈ maps.lines, c.elf elfIsFile = some g.name → c.Apart l := by
      intro c hc hcname
      apply maps.apart hc hl
      rintro rfl
      rw [hnone] at hcname
      cases hcname
    have hfirst := g.first.lt
    have hlast := g.last.lt
    by_cases hafter : addr < g.first.start.value
    · exfalso
      have hafter' := UInt64.lt_iff_toNat_lt.mp hafter
      obtain ⟨other, ⟨a, ha, haname, hastop⟩, b, hb, hbname, hbstart⟩ :=
        hplain.clear l hl hnone addr haddr g.first g.name (h.isFirst hg) hbase hafter
      have hastop' := UInt64.le_iff_toNat_le.mp hastop
      have hbstart' := UInt64.lt_iff_toNat_lt.mp hbstart
      obtain ⟨k, hk, rfl⟩ := h.covers a ha other haname
      have halt := a.lt
      have hblt := b.lt
      have hkholds : k.toModule.Holds addr :=
        h.holds hk (h.base_le hplain hk) ha hb haname hbname (by omega) (by omega)
      have hkfirst := h.first_le k hk a ha haname
      exact hpre k (h.mem_pre hgs hk (by omega)) hkholds
    · have hafter' : g.first.start.value.toNat ≤ addr.toNat := by
        rw [UInt64.lt_iff_toNat_lt] at hafter
        omega
      refine ⟨⟨g.first, (h.first g hg).1, (h.first g hg).2, ?_⟩, g.last, (h.last g hg).1, (h.last g hg).2, ?_⟩
      · rw [UInt64.le_iff_toNat_le]
        obtain hf | hf := hapart g.first (h.first g hg).1 (h.first g hg).2 <;> omega
      · rw [UInt64.lt_iff_toNat_lt]
        obtain hf | hf := hapart g.last (h.last g hg).1 (h.last g hg).2 <;> omega
  base := by
    intro m hm l hl
    obtain ⟨g, hg, rfl⟩ := List.mem_map.mp hm
    rw [← (h.isFirst hg).eq hl, UInt64.le_iff_toNat_le]
    exact h.base_le hplain hg
  noWrap := by
    intro m hm
    obtain ⟨g, hg, rfl⟩ := List.mem_map.mp hm
    have hbase := h.base_le hplain hg
    have hlt := h.first_lt hg
    have hsize : g.toModule.size.toNat = g.last.stop.value.toNat - g.base.toNat :=
      UInt64.toNat_sub_of_le _ _ (UInt64.le_iff_toNat_le.mpr (by omega))
    have hbound := g.last.stop.value.toNat_lt
    rw [hsize]
    show g.base.toNat + _ < _
    omega
  distinct := by
    rw [List.map_map]
    exact h.nodup

/-- The span found for an address of a mapping, and what stands before it. -/
theorem Attributes.found (hattr : Attributes elfIsFile maps (gs.map (·.toModule))) {g : Span} (hg : g ∈ gs) {l : Line}
    (hl : l ∈ maps.lines) (hname : l.elf elfIsFile = some g.name) {k : Span} (hk : k ∈ gs)
    (hlt : k.first.start.value.toNat < g.first.start.value.toNat) : ¬k.toModule.Holds l.start.value := by
  have hfound := hattr.ofElf l hl g.name hname l.start.value
    ⟨UInt64.le_iff_toNat_le.mpr (Nat.le_refl _), l.nonempty⟩
  obtain ⟨g', pre, post, hgs, hname', -, hpre⟩ := (enrich_eq_some hlength).mp hfound
  have hg' : g' ∈ gs := by
    rw [hgs]
    exact List.mem_append_right _ List.mem_cons_self
  obtain rfl := h.eq_of_name hg' hg hname'
  exact hpre k (h.mem_pre hgs hk hlt)

theorem Attributes.base_le (hattr : Attributes elfIsFile maps (gs.map (·.toModule))) {g : Span} (hg : g ∈ gs) :
    g.base.toNat ≤ g.first.start.value.toNat :=
  UInt64.le_iff_toNat_le.mp (hattr.base g.toModule (List.mem_map_of_mem hg) g.first (h.isFirst hg))

theorem Attributes.loaded (hattr : Attributes elfIsFile maps (gs.map (·.toModule))) (l : Line) (name : Bytes)
    (hl : maps.First elfIsFile l name) : l.offset.value ≤ l.start.value := by
  obtain ⟨g, hg, rfl, rfl⟩ := h.of_first hl
  have hbase := hattr.base_le h hlength hg
  by_contra hwrap
  rw [UInt64.le_iff_toNat_le] at hwrap
  unfold Span.base at hbase
  rw [UInt64.toNat_sub] at hbase
  have hoffset := g.first.offset.value.toNat_lt
  have hstart := g.first.start.value.toNat_lt
  rw [Nat.mod_eq_of_lt (by omega)] at hbase
  omega

theorem Attributes.contiguous (hattr : Attributes elfIsFile maps (gs.map (·.toModule))) (a : Line) (ha : a ∈ maps.lines)
    (b : Line) (hb : b ∈ maps.lines) (c : Line) (hc : c ∈ maps.lines) (name other : Bytes)
    (haname : a.elf elfIsFile = some name) (hbname : b.elf elfIsFile = some other)
    (hcname : c.elf elfIsFile = some name) (hab : a.stop.value ≤ b.start.value) (hbc : b.stop.value ≤ c.start.value) :
    other = name := by
  rw [UInt64.le_iff_toNat_le] at hab hbc
  have halt := a.lt
  have hblt := b.lt
  have hclt := c.lt
  obtain ⟨g, hg, rfl⟩ := h.covers a ha name haname
  obtain ⟨k, hk, rfl⟩ := h.covers b hb other hbname
  obtain hlt | heq | hlt := Nat.lt_trichotomy g.first.start.value.toNat k.first.start.value.toNat
  · -- the file around `b` is the earlier one and holds it
    exact absurd (h.holds hg (hattr.base_le h hlength hg) ha hc haname hcname (by omega) (by omega))
      (hattr.found h hlength hk hb hbname hg hlt)
  · by_contra hne
    have hfirst : g.first ≠ k.first := by
      intro hsame
      have hname := (h.first k hk).2
      rw [← hsame, (h.first g hg).2] at hname
      exact hne (Option.some.inj hname).symm
    have hglt := g.first.lt
    have hklt := k.first.lt
    obtain hd | hd := maps.apart (h.first g hg).1 (h.first k hk).1 hfirst <;> omega
  · -- the file of `b` is the earlier one and holds the first mapping of the other
    have hgfirst := h.first_le g hg a ha haname
    exact absurd (h.holds hk (hattr.base_le h hlength hk) (h.first k hk).1 hb (h.first k hk).2 hbname
      (Nat.le_of_lt hlt) (by omega))
      (hattr.found h hlength hg (h.first g hg).1 (h.first g hg).2 hk hlt)

theorem Attributes.clear (hattr : Attributes elfIsFile maps (gs.map (·.toModule))) (l : Line) (hl : l ∈ maps.lines)
    (hnone : l.elf elfIsFile = none) (addr : UInt64) (haddr : l.Holds addr) (f : Line) (name : Bytes)
    (hf : maps.First elfIsFile f name) (hbase : f.start.value - f.offset.value ≤ addr) (hlt : addr < f.start.value) :
    ∃ other, maps.Surrounds elfIsFile other addr := by
  obtain ⟨g, hg, rfl, rfl⟩ := h.of_first hf
  have hholds : g.toModule.Holds addr := by
    rw [Span.holds_iff]
    refine ⟨hbase, ?_⟩
    rw [UInt64.lt_iff_toNat_lt] at hlt ⊢
    have hend := h.first_lt hg
    omega
  obtain ⟨other, hother⟩ := enrich_isSome hlength hg hholds
  exact ⟨other, hattr.ofOther l hl hnone addr haddr other hother⟩

end

theorem Tracked.others {ls rest : List Line} {gs : List Span} (h : Tracked elfIsFile ls gs)
    (hrest : ∀ l ∈ rest, l.elf elfIsFile = none) : Tracked elfIsFile (ls ++ rest) gs := by
  induction rest generalizing ls with
  | nil =>
    rw [List.append_nil]
    exact h
  | cons l rest ih =>
    have hnext := ih (h.other (hrest l List.mem_cons_self)) (fun k hk => hrest k (List.mem_cons_of_mem _ hk))
    rwa [List.append_assoc] at hnext

theorem elfFiles_subset (elfIsFile : Bytes → Bool) {ls ks : List Line} (h : ls ⊆ ks) : elfFiles elfIsFile ls ⊆ elfFiles elfIsFile ks := by
  intro name hname
  simp only [elfFiles, List.mem_toFinset, List.mem_filterMap] at hname ⊢
  obtain ⟨l, hl, hl'⟩ := hname
  exact ⟨l, h hl, hl'⟩

theorem tracked_of_room {maps : Maps}
    (hroom : ∀ pre l post, maps.lines = pre ++ l :: post → l.elf elfIsFile ≠ none →
      (elfFiles elfIsFile pre).card < crashMaxModules) :
    ∃ gs, maps.lines.foldl (recordLine elfIsFile) [] = gs.map (·.toModule) ∧ Tracked elfIsFile maps.lines gs ∧
      gs.length ≤ crashMaxModules := by
  obtain ⟨gs, read, rest, c⟩ := captured elfIsFile maps.lines maps.ascending
  refine ⟨gs, c.modules, ?_, c.length⟩
  rw [c.split]
  apply c.tracked.others
  intro l hl
  by_contra helf
  obtain ⟨before, after, hrest⟩ := List.append_of_mem hl
  have hlt := hroom (read ++ before) l after (by rw [c.split, hrest, List.append_assoc]) helf
  have hle := Finset.card_le_card (elfFiles_subset elfIsFile (List.subset_append_left read before))
  rw [c.tracked.card] at hle
  obtain hnil | hfull := c.full
  · rw [hnil] at hl
    cases hl
  · omega

theorem Attributes.room {maps : Maps}
    (hattr : Attributes elfIsFile maps (maps.lines.foldl (recordLine elfIsFile) [])) (pre : List Line) (l : Line)
    (post : List Line) (hsplit : maps.lines = pre ++ l :: post) (helf : l.elf elfIsFile ≠ none) :
    (elfFiles elfIsFile pre).card < crashMaxModules := by
  by_contra hcard
  have hascending := maps.ascending
  rw [hsplit] at hascending
  obtain ⟨hpre, -, hafter⟩ := List.pairwise_append.mp hascending
  obtain ⟨gs, read, rest, c⟩ := captured elfIsFile pre hpre
  have hfull : crashMaxModules ≤ gs.length := by
    obtain rfl | hfull := c.full
    · rw [c.split, List.append_nil, c.tracked.card] at hcard
      omega
    · exact hfull
  have hmodules : maps.lines.foldl (recordLine elfIsFile) [] = gs.map (·.toModule) := by
    rw [hsplit, List.foldl_append, c.modules]
    exact foldl_recordLine_full elfIsFile (by rwa [List.length_map]) (l :: post)
  rw [hmodules] at hattr
  obtain ⟨name, hname⟩ := Option.ne_none_iff_exists'.mp helf
  have hfound := hattr.ofElf l (by rw [hsplit]; exact List.mem_append_right _ List.mem_cons_self) name hname
    l.start.value ⟨UInt64.le_iff_toNat_le.mpr (Nat.le_refl _), l.nonempty⟩
  obtain ⟨g, before, after, hgs, -, hholds, -⟩ := (enrich_eq_some c.length).mp hfound
  have hg : g ∈ gs := by
    rw [hgs]
    exact List.mem_append_right _ List.mem_cons_self
  have hlast : g.last ∈ pre := by
    rw [c.split]
    exact List.mem_append_left _ (c.tracked.last g hg).1
  have hend := UInt64.lt_iff_toNat_lt.mp ((g.holds_iff _).mp hholds).2
  have hstop := UInt64.le_iff_toNat_le.mp (hafter g.last hlast l List.mem_cons_self)
  omega

/-- The daemon attributes the addresses of a process rightly exactly when its image is plain. -/
theorem attributes_iff_plain (elfIsFile : Bytes → Bool) (maps : Maps) :
    Attributes elfIsFile maps (captureModulesFromProcMaps elfIsFile maps.text) ↔ Plain elfIsFile maps := by
  rw [captureModulesFromProcMaps_text]
  constructor
  · intro hattr
    obtain ⟨gs, hmodules, htracked, hlength⟩ := tracked_of_room hattr.room
    have hroom := hattr.room
    rw [hmodules] at hattr
    exact {
      room := hroom
      loaded := hattr.loaded htracked hlength
      contiguous := hattr.contiguous htracked hlength
      clear := hattr.clear htracked hlength }
  · intro hplain
    obtain ⟨gs, hmodules, htracked, hlength⟩ := tracked_of_room hplain.room
    rw [hmodules]
    exact attributes_of_plain htracked hlength hplain

end

/-- A page of the file `/a` or `/b`. -/
def pageLine (n : Fin 8) (b : Bool) : Line where
  start := ⟨[49 + UInt8.ofNat n, 48, 48, 48], by simp, by decide +kernel +revert, by decide +kernel +revert⟩
  stop := ⟨[50 + UInt8.ofNat n, 48, 48, 48], by simp, by decide +kernel +revert, by decide +kernel +revert⟩
  perms := ⟨[114, 45, 120, 112], by decide +kernel, by decide +kernel, by decide +kernel⟩
  offset := ⟨[48], by decide +kernel, by decide +kernel, by decide +kernel⟩
  dev := ⟨[48, 58, 48], by decide +kernel, by decide +kernel, by decide +kernel⟩
  inode := ⟨[49], by decide +kernel, by decide +kernel, by decide +kernel⟩
  pad := 0
  path := [47, if b then 98 else 97]
  permsLength := rfl
  pathNoNul := by decide +revert
  pathNoEnd := by decide +revert
  pathHead := by simp [isSpace]
  short := by simp [Entry.text, mapsLineSize]
  nonempty := by decide +revert

/-- Two files whose mappings interleave. -/
def interleaved : Maps where
  lines := [pageLine 0 false, pageLine 1 true, pageLine 2 false]
  ascending := by simp only [List.pairwise_cons]; decide

theorem interleaved_misattributed :
    ¬Attributes (fun _ => true) interleaved (captureModulesFromProcMaps (fun _ => true) interleaved.text) := by
  intro h
  have hright := h.ofElf (pageLine 1 true) (by simp [interleaved]) [47, 98] (by decide) 0x2000 (by decide)
  have hcode : enrichFrameWithModuleInfo (captureModulesFromProcMaps (fun _ => true) interleaved.text) 0x2000
      = some [47, 97] := by decide +kernel
  rw [hcode] at hright
  simp at hright

end SentryNative.Daemon
