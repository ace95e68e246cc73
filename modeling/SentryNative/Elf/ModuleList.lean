import SentryNative.Elf.MapLines

/-!
# The list of modules

What `load_modules` reports of a listing. The mappings that are looked at are cut into groups, one for
every module; only the inode tells files apart, and a module keeps five regions.

* `Fills.push`: a mapping that is pushed;
* `Sofar.add`: a mapping that is looked at;
* `load_modules`: the whole listing.
-/

namespace SentryNative.Elf

open CLib
open Daemon (HexText)

/-! ## Regions -/

/-- The second mapping goes on where the first one ends, in memory and in the file. -/
def Continues (p q : ParsedModule) : Prop := p.stop = q.start ∧ add64 p.offset (sub64 p.stop p.start) = q.offset

instance (p q : ParsedModule) : Decidable (Continues p q) := inferInstanceAs (Decidable (_ ∧ _))

/-- The number of regions that mappings make. -/
def regions : List ParsedModule → Nat
  | [] => 0
  | [_] => 1
  | p :: q :: ps => (if Continues p q then 0 else 1) + regions (q :: ps)

theorem regions_concat (ps : List ParsedModule) (p q : ParsedModule) :
    regions (ps ++ [p] ++ [q]) = regions (ps ++ [p]) + if Continues p q then 0 else 1 := by
  induction ps with
  | nil =>
    simp only [List.nil_append, List.singleton_append, regions]
    omega
  | cons a ps ih =>
    have hcons : ∀ b bs, regions (a :: b :: bs) = (if Continues a b then 0 else 1) + regions (b :: bs) := fun _ _ => rfl
    cases ps with
    | nil =>
      simp only [List.cons_append, List.nil_append, hcons] at ih ⊢
      omega
    | cons b ps =>
      simp only [List.cons_append, hcons] at ih ⊢
      omega

theorem regions_pos {ps : List ParsedModule} (h : ps ≠ []) : 0 < regions ps := by
  induction ps with
  | nil => exact absurd rfl h
  | cons a ps ih =>
    cases ps with
    | nil => exact Nat.one_pos
    | cons b ps =>
      have := ih (by simp)
      simp only [regions]
      omega

theorem regions_prefix {ps qs : List ParsedModule} (h : ps <+: qs) : regions ps ≤ regions qs := by
  obtain ⟨ts, rfl⟩ := h
  induction ts using List.reverseRecOn with
  | nil => simp
  | append_singleton ts t ih =>
    refine Nat.le_trans ih ?_
    rw [← List.append_assoc]
    obtain hnil | ⟨init, last, hinit⟩ := List.eq_nil_or_concat (ps ++ ts)
    · rw [hnil]
      exact Nat.zero_le _
    · rw [List.concat_eq_append] at hinit
      rw [hinit, regions_concat]
      omega

/-- What a mapping of the listing is like. -/
structure Valid (p : ParsedModule) : Prop where
  nonempty : p.start < p.stop
  stop : p.stop < wordCount
  offset : p.offset < wordCount

/-- In the order of their addresses. -/
def Ascending (ps : List ParsedModule) : Prop := ps.Pairwise fun p q => p.stop ≤ q.start

/-! ## Pushing -/

section

variable {m : Module} {p : ParsedModule}

@[simp] theorem mappingPush_file : (mappingPush m p).file = m.file := by
  unfold mappingPush
  simp only
  split_ifs <;> rfl

theorem mappingPush_first (h : m.mappings = []) :
    mappingPush m p =
      { m with mappings := [⟨p.offset, sub64 p.stop p.start, p.start⟩], mappingsInode := p.inode, offsetInInode := p.offset } := by
  simp [mappingPush, h, maxMappings]

theorem mappingPush_other (h : m.mappings ≠ []) (hinode : m.mappingsInode ≠ p.inode) : mappingPush m p = m := by
  rw [mappingPush, if_pos ⟨h, hinode⟩]

theorem mappingPush_own (h : m.mappings ≠ []) (hinode : m.mappingsInode = p.inode) :
    mappingPush m p =
      if add64 m.last.addr m.last.size = p.start ∧ add64 m.last.offset m.last.size = p.offset then
        { m with mappings := m.mappings.dropLast ++ [{ m.last with size := add64 m.last.size (sub64 p.stop p.start) }] }
      else if m.mappings.length < maxMappings then
        { m with mappings := m.mappings ++ [⟨p.offset, sub64 p.stop p.start, p.start⟩] }
      else m := by
  rw [mappingPush, if_neg fun hne => hne.2 hinode]
  simp only [h, ne_eq, not_false_eq_true, true_and, ↓reduceIte]

end

/-- The module holds the mappings that were taken; the ones that were dropped did not fit. -/
structure Fills (m : Module) (hd : ParsedModule) (init : List ParsedModule) (last : ParsedModule)
    (dropped : List ParsedModule) : Prop where
  inode : m.mappingsInode = hd.inode
  offset : m.offsetInInode = hd.offset
  firstOffset : m.first.offset = hd.offset
  firstAddr : m.first.addr = hd.start
  count : m.mappings.length = regions (init ++ [last])
  bounded : regions (init ++ [last]) ≤ maxMappings
  stop : add64 m.last.addr m.last.size = last.stop
  next : add64 m.last.offset m.last.size = add64 last.offset (sub64 last.stop last.start)
  full : ∀ q ∈ dropped.head?, regions (init ++ [last]) = maxMappings ∧ ¬ Continues last q

theorem Fills.nonempty {m : Module} {hd last : ParsedModule} {init dropped : List ParsedModule}
    (h : Fills m hd init last dropped) : m.mappings ≠ [] := by
  have hcount := h.count
  have hpos : 0 < regions (init ++ [last]) := regions_pos (by simp)
  rintro hnil
  rw [hnil, List.length_nil] at hcount
  omega

theorem add64_assoc (a b c : Nat) : add64 (add64 a b) c = add64 a (add64 b c) := by
  simp only [add64, Nat.mod_add_mod, Nat.add_mod_mod, Nat.add_assoc]

theorem add64_sub64 {a b : Nat} (h : a ≤ b) (hb : b < wordCount) : add64 a (sub64 b a) = b := by
  rw [sub64_eq h hb, add64_eq (by omega)]
  omega

/-- The first mapping of a module. -/
theorem Fills.start {m : Module} {p : ParsedModule} (h : m.mappings = []) (hp : Valid p) :
    Fills (mappingPush m p) p [] p [] := by
  rw [mappingPush_first h]
  refine ⟨rfl, rfl, rfl, rfl, rfl, show 1 ≤ 5 by decide, ?_, rfl, by simp⟩
  exact add64_sub64 (Nat.le_of_lt hp.nonempty) hp.stop

/-- A mapping of the same inode is put behind the last one, becomes a region of its own, or is dropped. -/
theorem Fills.push {m : Module} {hd last p : ParsedModule} {init dropped : List ParsedModule}
    (h : Fills m hd init last dropped) (hinode : p.inode = hd.inode) (hp : Valid p)
    (hord : ∀ q ∈ dropped.head?, last.stop < p.start) :
    (dropped = [] ∧ Fills (mappingPush m p) hd (init ++ [last]) p []) ∨
      Fills (mappingPush m p) hd init last (dropped ++ [p]) := by
  have hstop : add64 p.start (sub64 p.stop p.start) = p.stop := add64_sub64 (Nat.le_of_lt hp.nonempty) hp.stop
  obtain ⟨before, region, hmaps⟩ : ∃ before region, m.mappings = before ++ [region] := by
    obtain hnil | ⟨before, region, hconcat⟩ := List.eq_nil_or_concat m.mappings
    · exact absurd hnil h.nonempty
    · exact ⟨before, region, by rw [hconcat, List.concat_eq_append]⟩
  have hlast : m.last = region := by rw [Module.last, hmaps, List.getLastD_concat]
  have hcontinues : add64 m.last.addr m.last.size = p.start ∧ add64 m.last.offset m.last.size = p.offset ↔
      Continues last p := by
    rw [h.stop, h.next]
    exact Iff.rfl
  have hcount := h.count
  have hbounded := h.bounded
  rw [mappingPush_own h.nonempty (h.inode.trans hinode.symm)]
  by_cases hgo : Continues last p
  · have hnone : dropped = [] := by
      cases dropped with
      | nil => rfl
      | cons q qs =>
        have hlt := hord q rfl
        have heq := hgo.1
        omega
    refine .inl ⟨hnone, ?_⟩
    rw [if_pos (hcontinues.2 hgo), hlast, hmaps, List.dropLast_concat]
    have hregions : regions (init ++ [last] ++ [p]) = regions (init ++ [last]) := by
      rw [regions_concat, if_pos hgo, Nat.add_zero]
    have hfirst := h.firstOffset
    have haddr := h.firstAddr
    simp only [Module.first, hmaps] at hfirst haddr
    have hend := h.stop
    have hnext := h.next
    rw [hlast] at hend hnext
    constructor
    case inode => exact h.inode
    case offset => exact h.offset
    case firstOffset => cases before <;> exact hfirst
    case firstAddr => cases before <;> exact haddr
    case count =>
      rw [hregions, ← hcount, hmaps]
      simp
    case bounded => rw [hregions]; exact hbounded
    case stop =>
      simp only [Module.last, List.getLastD_concat]
      rw [← add64_assoc, hend, hgo.1, hstop]
    case next =>
      simp only [Module.last, List.getLastD_concat]
      rw [← add64_assoc, hnext, hgo.2]
    case full => simp
  · rw [if_neg (mt hcontinues.1 hgo)]
    by_cases hroom : m.mappings.length < maxMappings
    · have hnone : dropped = [] := by
        cases dropped with
        | nil => rfl
        | cons q qs =>
          have hfull := (h.full q rfl).1
          omega
      refine .inl ⟨hnone, ?_⟩
      rw [if_pos hroom]
      have hregions : regions (init ++ [last] ++ [p]) = regions (init ++ [last]) + 1 := by
        rw [regions_concat, if_neg hgo]
      have hfirst := h.firstOffset
      have haddr := h.firstAddr
      simp only [Module.first, hmaps] at hfirst haddr
      constructor
      case inode => exact h.inode
      case offset => exact h.offset
      case firstOffset =>
        rw [Module.first, hmaps]
        cases before <;> exact hfirst
      case firstAddr =>
        rw [Module.first, hmaps]
        cases before <;> exact haddr
      case count =>
        rw [hregions, ← hcount]
        simp
      case bounded => rw [hregions]; omega
      case stop =>
        simp only [Module.last, List.getLastD_concat]
        exact hstop
      case next => simp only [Module.last, List.getLastD_concat]
      case full => simp
    · right
      rw [if_neg hroom]
      refine { h with full := fun q hq => ?_ }
      cases dropped with
      | nil =>
        simp only [List.nil_append, List.head?_cons, Option.mem_def, Option.some.injEq] at hq
        rw [← hq]
        exact ⟨by omega, hgo⟩
      | cons q' qs => exact h.full q hq

/-! ## Groups -/

/-- The mappings of a group that have the inode of its first one. -/
def own (hd : ParsedModule) (tl : List ParsedModule) : List ParsedModule :=
  hd :: tl.filter fun q => q.inode = hd.inode

theorem own_sublist (hd : ParsedModule) (tl : List ParsedModule) : (own hd tl).Sublist (hd :: tl) :=
  List.filter_sublist.cons_cons hd

section

-- where an ELF header is mapped
variable (isValidElfHeader : Nat → Bool)

/-- A header behind the first mapping is at the same place of the same file. -/
def Repeats (hd : ParsedModule) (tl : List ParsedModule) : Prop :=
  ∀ q ∈ tl, isValidElfHeader q.start = true → q.offset = hd.offset ∧ q.inode = hd.inode

/-- The module that was made of a group. -/
structure Collects (m : Module) (hd : ParsedModule) (tl : List ParsedModule) : Prop where
  repeats : Repeats isValidElfHeader hd tl
  fills : ∃ init last dropped, own hd tl = init ++ [last] ++ dropped ∧ Fills m hd init last dropped

variable {isValidElfHeader} {m : Module} {hd p : ParsedModule} {tl : List ParsedModule}

theorem Collects.start (h : m.mappings = []) (hp : Valid p) : Collects isValidElfHeader (mappingPush m p) p [] :=
  ⟨by simp [Repeats], [], p, [], rfl, Fills.start h hp⟩

theorem isDuplicatedMapping_iff (h : Collects isValidElfHeader m hd tl) :
    isDuplicatedMapping m p = true ↔ p.offset = hd.offset ∧ p.inode = hd.inode := by
  obtain ⟨init, last, dropped, -, hfills⟩ := h.fills
  simp only [isDuplicatedMapping, Bool.and_eq_true, decide_eq_true_eq, hfills.firstOffset, hfills.inode]
  exact ⟨fun ⟨⟨_, ho⟩, hi⟩ => ⟨ho.symm, hi.symm⟩, fun ⟨ho, hi⟩ => ⟨⟨by simpa using hfills.nonempty, ho.symm⟩, hi.symm⟩⟩

/-- A mapping that does not begin a module. -/
theorem Collects.push (h : Collects isValidElfHeader m hd tl) (hp : Valid p)
    (hvalid : ∀ q ∈ hd :: tl, Valid q) (hord : ∀ q ∈ hd :: tl, q.stop ≤ p.start) (hsorted : Ascending (hd :: tl))
    (hheader : isValidElfHeader p.start = true → isDuplicatedMapping m p = true) :
    Collects isValidElfHeader (mappingPush m p) hd (tl ++ [p]) := by
  have hrepeats : Repeats isValidElfHeader hd (tl ++ [p]) := by
    intro q hq helf
    obtain hq | hq := List.mem_append.mp hq
    · exact h.repeats q hq helf
    · rw [List.mem_singleton.mp hq] at helf ⊢
      exact (isDuplicatedMapping_iff h).1 (hheader helf)
  obtain ⟨init, last, dropped, hown, hfills⟩ := h.fills
  refine ⟨hrepeats, ?_⟩
  have hconcat : own hd (tl ++ [p]) = own hd tl ++ if p.inode = hd.inode then [p] else [] := by
    simp only [own, List.filter_append, List.cons_append]
    by_cases hinode : p.inode = hd.inode <;> simp [hinode]
  by_cases hinode : p.inode = hd.inode
  · have hsub := own_sublist hd tl
    have hgap : ∀ q ∈ dropped.head?, last.stop < p.start := by
      intro q hq
      obtain ⟨dropped', rfl⟩ : ∃ qs, dropped = q :: qs := List.head?_eq_some_iff.mp hq
      have hmem : q ∈ own hd tl := by simp [hown]
      have hbefore := List.Pairwise.sublist hsub hsorted
      rw [hown, List.pairwise_append] at hbefore
      have hle := hbefore.2.2 last (by simp) q (by simp)
      have hpos := (hvalid q (hsub.subset hmem)).nonempty
      have hend := hord q (hsub.subset hmem)
      omega
    rw [hconcat, if_pos hinode, hown]
    obtain ⟨rfl, hnext⟩ | hnext := hfills.push hinode hp hgap
    · exact ⟨init ++ [last], p, [], by simp, hnext⟩
    · exact ⟨init, last, dropped ++ [p], by simp, hnext⟩
  · refine ⟨init, last, dropped, by rw [hconcat, if_neg hinode, List.append_nil, hown], ?_⟩
    rw [mappingPush_other hfills.nonempty (by rw [hfills.inode]; exact Ne.symm hinode)]
    exact hfills

end

/-- What is reported of a group, and the bytes that its image takes. -/
structure Describes (isValidElfHeader : Nat → Bool) (hd : ParsedModule) (tl : List ParsedModule) (span : Nat)
    (v : ModuleValue) : Prop where
  header : isValidElfHeader hd.start = true
  file : hd.file = some v.codeFile
  addr : v.imageAddr = hd.start
  size : v.imageSize = int32 span
  repeats : Repeats isValidElfHeader hd tl
  ends : ∃ q ∈ own hd tl, hd.start + span = q.stop
  covers : ∀ near, near <+: own hd tl → regions near ≤ maxMappings → ∀ q ∈ near, hd.start ≤ q.start ∧ q.stop ≤ hd.start + span

theorem int32_of_lt {n : Nat} (h : n < 2 ^ 31) : int32 n = n := by
  unfold int32
  rw [BitVec.toInt_eq_toNat_cond, BitVec.toNat_ofNat, Nat.mod_eq_of_lt (by omega), if_pos (by omega)]

theorem moduleToValue_some {h : Host} {m : Module} {v : ModuleValue} (hv : moduleToValue h m = .ok (some v)) :
    v.codeFile = m.file.getD [] ∧ v.imageAddr = m.first.addr ∧ v.imageSize = int32 m.size := by
  have hmap : ∀ {x : Except Fault Ids} {file : Bytes}, x.map (fun ids => some ⟨file, m.first.addr, int32 m.size, ids⟩) = .ok (some v) →
      v.codeFile = file ∧ v.imageAddr = m.first.addr ∧ v.imageSize = int32 m.size := by
    intro x file hx
    cases x with
    | error e => cases hx
    | ok ids =>
      simp only [Except.map, Except.ok.injEq, Option.some.injEq] at hx
      rw [← hx]
      exact ⟨rfl, rfl, rfl⟩
  unfold moduleToValue at hv
  simp only at hv
  split at hv
  · exact hmap hv
  · split at hv
    · cases hv
    · exact hmap hv

/-- The module of a group is what is reported of it. -/
theorem Collects.describes {isValidElfHeader : Nat → Bool} {h : Host} {m : Module} {hd : ParsedModule}
    {tl : List ParsedModule} {v : ModuleValue} (hm : Collects isValidElfHeader m hd tl)
    (helf : isValidElfHeader hd.start = true) (hfile : m.file = hd.file) (hsome : hd.file ≠ none)
    (hvalid : ∀ q ∈ hd :: tl, Valid q) (hsorted : Ascending (hd :: tl)) (hv : moduleToValue h m = .ok (some v)) :
    ∃ span, Describes isValidElfHeader hd tl span v := by
  obtain ⟨hcode, haddr, hsize⟩ := moduleToValue_some hv
  obtain ⟨init, last, dropped, hown, hfills⟩ := hm.fills
  have hsub := own_sublist hd tl
  have hstart : ∀ q ∈ hd :: tl, hd.start ≤ q.start := by
    intro q hq
    obtain rfl | hq := List.mem_cons.mp hq
    · exact Nat.le_refl _
    · have hle := (List.pairwise_cons.mp hsorted).1 q hq
      have hpos := (hvalid hd List.mem_cons_self).nonempty
      omega
  have hlast : last ∈ own hd tl := by simp [hown]
  have hspan : m.size = last.stop - hd.start := by
    have hlt := hvalid last (hsub.subset hlast)
    have hle := hstart last (hsub.subset hlast)
    rw [Module.size, hfills.stop, hfills.firstAddr, sub64_eq (by have := hlt.nonempty; omega) hlt.stop]
  have hwhole : hd.start + (last.stop - hd.start) = last.stop := by
    have hle := hstart last (hsub.subset hlast)
    have hpos := (hvalid last (hsub.subset hlast)).nonempty
    omega
  refine ⟨last.stop - hd.start, helf, ?_, by rw [haddr, hfills.firstAddr], by rw [hsize, hspan], hm.repeats,
    ⟨last, hlast, hwhole⟩, ?_⟩
  · rw [hcode, hfile]
    obtain ⟨f, hf⟩ := Option.ne_none_iff_exists'.mp hsome
    rw [hf]
    rfl
  intro near hnear hfew q hq
  refine ⟨hstart q (hsub.subset (hnear.subset hq)), ?_⟩
  rw [hwhole]
  have htaken : near <+: init ++ [last] := by
    rw [hown] at hnear
    obtain hshort | hlong := List.prefix_or_prefix_of_prefix hnear (List.prefix_append (init ++ [last]) dropped)
    · exact hshort
    -- one more mapping would be a sixth region
    obtain ⟨extra, rfl⟩ := hlong
    cases extra with
    | nil => simp
    | cons e es =>
      exfalso
      have hhead : dropped.head? = some e := by
        obtain ⟨rest, hrest⟩ := (List.prefix_append_right_inj _).mp hnear
        rw [← hrest]
        rfl
      have hfull := hfills.full e hhead
      have hsix : regions (init ++ [last] ++ [e]) ≤ regions (init ++ [last] ++ e :: es) :=
        regions_prefix (by simp)
      rw [regions_concat, if_neg hfull.2] at hsix
      omega
  have hbefore := List.Pairwise.sublist hsub hsorted
  rw [hown, List.pairwise_append, List.pairwise_append] at hbefore
  obtain hq | hq := List.mem_append.mp (htaken.subset hq)
  · have hle := hbefore.1.2.2 q hq last (by simp)
    have hpos := (hvalid last (hsub.subset hlast)).nonempty
    omega
  · rw [List.mem_singleton.mp hq]

/-! ## The run over the mappings -/

theorem tryAppendModule_none {h : Host} {modules : List ModuleValue} {m : Module} (hfile : m.file = none) :
    tryAppendModule h modules m = .ok modules := by
  rw [tryAppendModule, if_pos (.inl hfile)]

theorem tryAppendModule_some {h : Host} {modules : List ModuleValue} {m : Module} {v : ModuleValue}
    (hfile : m.file ≠ none) (hmaps : m.mappings ≠ []) (hv : moduleToValue h m = .ok (some v)) :
    tryAppendModule h modules m = .ok (modules ++ [v]) := by
  rw [tryAppendModule, if_neg (by simp [hfile, hmaps]), hv]
  rfl

section

variable (h : Host) (isValidElfHeader : Nat → Bool)

/-- The file that a mapping begins can be mapped again, and it has not become shorter than the offset; the vdso
can be read. -/
structure Openable (p : ParsedModule) : Prop where
  file : p.file.getD [] ≠ linuxGate →
    ∃ mm, mmapFile h (p.file.getD []) = some mm ∧ mm.Mapped ∧ OffsetHeld mm p.offset
  gate : p.file.getD [] = linuxGate → ∀ m tl, Collects isValidElfHeader m p tl →
    ∃ ids, readIdsFromElf h.vdso h.permitted m = .ok ids

/-- The mappings before the first module; their first one is no header. -/
def Early (pre : List ParsedModule) : Prop :=
  ∀ hd tl, pre = hd :: tl → isValidElfHeader hd.start = false ∧ Repeats isValidElfHeader hd tl

def Described (group : List ParsedModule) (v : ModuleValue) : Prop :=
  ∃ hd tl span, group = hd :: tl ∧ Describes isValidElfHeader hd tl span v

/-- What the loop has made of the mappings that it has looked at. -/
inductive Sofar : List ParsedModule → Module → List ModuleValue → Prop
  | empty {m} : m.file = none → m.mappings = [] → Sofar [] m []
  | early {m hd tl} : m.file = none → isValidElfHeader hd.start = false → Collects isValidElfHeader m hd tl →
      Sofar (hd :: tl) m []
  | begun {pre groups modules m hd tl} : Early isValidElfHeader pre →
      List.Forall₂ (Described isValidElfHeader) groups modules → m.file = hd.file → hd.file ≠ none →
      isValidElfHeader hd.start = true → Collects isValidElfHeader m hd tl →
      Sofar (pre ++ groups.flatten ++ hd :: tl) m modules

variable {h isValidElfHeader}

theorem Openable.value {m : Module} {hd : ParsedModule} {tl : List ParsedModule} (ho : Openable h isValidElfHeader hd)
    (hm : Collects isValidElfHeader m hd tl) (hfile : m.file = hd.file) (hvalid : Valid hd) :
    ∃ v, moduleToValue h m = .ok (some v) := by
  unfold moduleToValue
  rw [hfile]
  by_cases hgate : hd.file.getD [] = linuxGate
  · obtain ⟨ids, hids⟩ := ho.gate hgate m tl hm
    simp only [hgate, ↓reduceIte, hids]
    exact ⟨_, rfl⟩
  · obtain ⟨mm, hmm, hmapped, hheld⟩ := ho.file hgate
    obtain ⟨init, last, dropped, -, hfills⟩ := hm.fills
    rw [← hfills.offset] at hheld
    have hread : ∃ ids, readIdsFromElf mm h.permitted (mmappedModule mm m) = .ok ids :=
      (readIds_mmapped hmapped (by rw [hfills.offset]; exact hvalid.offset)).2 hheld
    obtain ⟨ids, hids⟩ := hread
    simp only [hgate, ↓reduceIte, hmm, hids]
    exact ⟨_, rfl⟩

/-- The last module is put behind the others. -/
theorem Collects.append {m : Module} {hd : ParsedModule} {tl : List ParsedModule} (hm : Collects isValidElfHeader m hd tl)
    (ho : Openable h isValidElfHeader hd) (hfile : m.file = hd.file) (hsome : hd.file ≠ none)
    (helf : isValidElfHeader hd.start = true) (hvalid : ∀ q ∈ hd :: tl, Valid q) (hsorted : Ascending (hd :: tl))
    (modules : List ModuleValue) :
    ∃ v, tryAppendModule h modules m = .ok (modules ++ [v]) ∧ Described isValidElfHeader (hd :: tl) v := by
  obtain ⟨v, hv⟩ := ho.value hm hfile (hvalid hd List.mem_cons_self)
  obtain ⟨span, hdescribes⟩ := hm.describes helf hfile hsome hvalid hsorted hv
  obtain ⟨init, last, dropped, -, hfills⟩ := hm.fills
  exact ⟨v, tryAppendModule_some (by rw [hfile]; exact hsome) hfills.nonempty hv, hd, tl, span, rfl, hdescribes⟩

variable {ks : List ParsedModule} {m : Module} {modules : List ModuleValue} {p : ParsedModule}

/-- A mapping that begins a module: the one before it is reported. -/
theorem Sofar.begin (hs : Sofar isValidElfHeader ks m modules)
    (hopen : ∀ q ∈ ks, isValidElfHeader q.start = true → Openable h isValidElfHeader q)
    (hvalid : ∀ q ∈ ks, Valid q) (hsorted : Ascending ks) (hp : Valid p) (hfile : p.file ≠ none)
    (helf : isValidElfHeader p.start = true) :
    ∃ modules', tryAppendModule h modules m = .ok modules' ∧
      Sofar isValidElfHeader (ks ++ [p]) (mappingPush ⟨p.file, [], 0, 0, false⟩ p) modules' := by
  have hstart : Collects isValidElfHeader (mappingPush ⟨p.file, [], 0, 0, false⟩ p) p [] := Collects.start rfl hp
  cases hs with
  | empty hnone hmaps =>
    refine ⟨[], tryAppendModule_none hnone, ?_⟩
    have hearly : Early isValidElfHeader [] := by simp [Early]
    have := Sofar.begun hearly .nil (show (mappingPush ⟨p.file, [], 0, 0, false⟩ p).file = p.file by simp) hfile helf hstart
    simpa using this
  | @early _ hd tl hnone hno hm =>
    refine ⟨[], tryAppendModule_none hnone, ?_⟩
    have hearly : Early isValidElfHeader (hd :: tl) := by
      rintro hd' tl' hcons
      obtain ⟨rfl, rfl⟩ := List.cons.inj hcons
      exact ⟨hno, hm.repeats⟩
    have := Sofar.begun hearly .nil (show (mappingPush ⟨p.file, [], 0, 0, false⟩ p).file = p.file by simp) hfile helf hstart
    simpa using this
  | @begun pre groups _ _ hd tl hearly hgroups hmfile hsome hheader hm =>
    have hmem : ∀ q ∈ hd :: tl, q ∈ pre ++ groups.flatten ++ hd :: tl := fun q hq => List.mem_append_right _ hq
    obtain ⟨v, happend, hdescribed⟩ := hm.append (hopen hd (hmem hd List.mem_cons_self) hheader) hmfile hsome hheader
      (fun q hq => hvalid q (hmem q hq)) (List.pairwise_append.mp hsorted).2.1 modules
    refine ⟨_, happend, ?_⟩
    have := Sofar.begun hearly (List.rel_append hgroups (.cons hdescribed .nil)) (by simp) hfile helf hstart
    simpa using this

/-- A mapping that goes with the ones before it. -/
theorem Sofar.keep (hs : Sofar isValidElfHeader ks m modules) (hvalid : ∀ q ∈ ks ++ [p], Valid q)
    (hsorted : Ascending (ks ++ [p])) (hheader : isValidElfHeader p.start = true → isDuplicatedMapping m p = true) :
    Sofar isValidElfHeader (ks ++ [p]) (mappingPush m p) modules := by
  have hp := hvalid p (by simp)
  obtain ⟨hsorted, -, hord⟩ := List.pairwise_append.mp hsorted
  cases hs with
  | empty hnone hmaps =>
    have hno : isValidElfHeader p.start = false := by
      by_contra hyes
      have hdup := hheader (by simpa using hyes)
      simp [isDuplicatedMapping, hmaps] at hdup
    exact .early (by simpa using hnone) hno (Collects.start hmaps hp)
  | early hnone hno hm =>
    refine .early (by simpa using hnone) hno (hm.push hp (fun q hq => hvalid q (List.mem_append_left _ hq))
      (fun q hq => hord q hq p (by simp)) hsorted hheader)
  | @begun pre groups _ _ hd tl hearly hgroups hmfile hsome helf hm =>
    have hmem : ∀ q ∈ hd :: tl, q ∈ pre ++ groups.flatten ++ hd :: tl := fun q hq => List.mem_append_right _ hq
    have hnext := hm.push hp (fun q hq => hvalid q (List.mem_append_left _ (hmem q hq)))
      (fun q hq => hord q (hmem q hq) p (by simp)) (List.pairwise_append.mp hsorted).2.1 hheader
    have := Sofar.begun hearly hgroups (by simpa using hmfile) hsome helf hnext
    simpa using this

theorem Sofar.add (hs : Sofar isValidElfHeader ks m modules)
    (hopen : ∀ q ∈ ks, isValidElfHeader q.start = true → Openable h isValidElfHeader q)
    (hvalid : ∀ q ∈ ks ++ [p], Valid q) (hsorted : Ascending (ks ++ [p])) (hfile : p.file ≠ none) :
    ∃ m' modules', addMapping h isValidElfHeader m modules p = .ok (m', modules') ∧
      Sofar isValidElfHeader (ks ++ [p]) m' modules' := by
  unfold addMapping
  split
  · rename_i hbegin
    obtain ⟨modules', happend, hnext⟩ := hs.begin hopen (fun q hq => hvalid q (List.mem_append_left _ hq))
      (List.pairwise_append.mp hsorted).1 (hvalid p (by simp)) hfile hbegin.1
    rw [happend]
    exact ⟨_, _, rfl, hnext⟩
  · rename_i hgo
    refine ⟨_, _, rfl, hs.keep hvalid hsorted fun helf => ?_⟩
    by_contra hdup
    exact hgo ⟨helf, hdup⟩

theorem Sofar.run (rest : List ParsedModule) (hs : Sofar isValidElfHeader ks m modules)
    (hopen : ∀ q ∈ ks ++ rest, isValidElfHeader q.start = true → Openable h isValidElfHeader q)
    (hvalid : ∀ q ∈ ks ++ rest, Valid q) (hsorted : Ascending (ks ++ rest)) (hfile : ∀ q ∈ rest, q.file ≠ none) :
    ∃ m' modules', addMappings h isValidElfHeader rest m modules = .ok (m', modules') ∧
      Sofar isValidElfHeader (ks ++ rest) m' modules' := by
  induction rest generalizing ks m modules with
  | nil => exact ⟨m, modules, rfl, by simpa using hs⟩
  | cons p rest ih =>
    have hsplit : ks ++ p :: rest = ks ++ [p] ++ rest := by simp
    rw [hsplit] at hopen hvalid hsorted ⊢
    obtain ⟨m', modules', hadd, hnext⟩ := hs.add
      (fun q hq => hopen q (List.mem_append_left _ (List.mem_append_left _ hq)))
      (fun q hq => hvalid q (List.mem_append_left _ hq)) (List.pairwise_append.mp hsorted).1 (hfile p List.mem_cons_self)
    obtain ⟨m'', modules'', hrun, hlast⟩ := ih hnext hopen hvalid hsorted
      fun q hq => hfile q (List.mem_cons_of_mem _ hq)
    refine ⟨m'', modules'', ?_, hlast⟩
    rw [addMappings, hadd]
    exact hrun

end

/-! ## The mappings of a listing -/

/-- The ranges of two images. -/
def Before (v w : ModuleValue) : Prop := v.imageAddr + v.imageSize ≤ w.imageAddr

end SentryNative.Elf
