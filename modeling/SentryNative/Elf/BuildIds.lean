import Mathlib.Data.Fin.VecNotation
import SentryNative.Elf.Notes
import SentryNative.Retry.CacheFile

/-!
# Build ids of modules

`sentry__procmaps_module_to_value` maps the file of a module and reads its build id through the
module's mappings. All offsets, sizes and counts come from the file.

* `getAddr_holds`: what `sentry__module_get_addr` returns lies in the file;
* `build_ids_inside`: so does everything that is read, unless the file has shrunk below the offset that
  was recorded.
-/

namespace SentryNative.Elf

open CLib Retry

/-! ## Headers -/

inductive Class where
  | elf32
  | elf64
  deriving DecidableEq, Repr

def EI_NIDENT : Nat := 16
def EI_CLASS : Nat := 4
def ELFCLASS64 : UInt8 := 2

/-- Every other class is read as `ELFCLASS32`. -/
def classOf (ident : Bytes) : Class := if ident.getD EI_CLASS 0 = ELFCLASS64 then .elf64 else .elf32

/-- The fields of `Elf64_Ehdr` and `Elf32_Ehdr` that are read. -/
structure Ehdr where
  phoff : Nat
  shoff : Nat
  phentsize : Nat
  phnum : Nat
  shentsize : Nat
  shnum : Nat
  shstrndx : Nat
  deriving DecidableEq, Repr

def Ehdr.size : Class → Nat
  | .elf64 => 64
  | .elf32 => 52

def Ehdr.decode (b : Bytes) : Class → Ehdr
  | .elf64 => ⟨ofLe (pread b 8 32), ofLe (pread b 8 40), ofLe (pread b 2 54), ofLe (pread b 2 56), ofLe (pread b 2 58),
      ofLe (pread b 2 60), ofLe (pread b 2 62)⟩
  | .elf32 => ⟨ofLe (pread b 4 28), ofLe (pread b 4 32), ofLe (pread b 2 42), ofLe (pread b 2 44), ofLe (pread b 2 46),
      ofLe (pread b 2 48), ofLe (pread b 2 50)⟩

structure Phdr where
  type : Nat
  offset : Nat
  filesz : Nat
  align : Nat
  deriving DecidableEq, Repr

def Phdr.size : Class → Nat
  | .elf64 => 56
  | .elf32 => 32

def Phdr.decode (b : Bytes) : Class → Phdr
  | .elf64 => ⟨ofLe (pread b 4 0), ofLe (pread b 8 8), ofLe (pread b 8 32), ofLe (pread b 8 48)⟩
  | .elf32 => ⟨ofLe (pread b 4 0), ofLe (pread b 4 4), ofLe (pread b 4 16), ofLe (pread b 4 28)⟩

structure Shdr where
  name : Nat
  type : Nat
  offset : Nat
  size : Nat
  addralign : Nat
  deriving DecidableEq, Repr

def Shdr.bytes : Class → Nat
  | .elf64 => 64
  | .elf32 => 40

def Shdr.decode (b : Bytes) : Class → Shdr
  | .elf64 => ⟨ofLe (pread b 4 0), ofLe (pread b 4 4), ofLe (pread b 8 24), ofLe (pread b 8 32), ofLe (pread b 8 48)⟩
  | .elf32 => ⟨ofLe (pread b 4 0), ofLe (pread b 4 4), ofLe (pread b 4 16), ofLe (pread b 4 20), ofLe (pread b 4 32)⟩

def PT_NOTE : Nat := 4
def SHT_PROGBITS : Nat := 1
def SHT_NOTE : Nat := 7
def NT_GNU_BUILD_ID : Nat := 3

/-- `"GNU"`, with its terminator. -/
def gnuName : Bytes := [71, 78, 85, 0]

/-! ## Modules -/

/-- `sentry_mapped_region_t` -/
structure MappedRegion where
  offset : Nat
  size : Nat
  addr : Nat
  deriving DecidableEq, Repr

/-- `sentry_module_t`; the file is none where its pointer is null. -/
structure Module where
  file : Option Bytes
  mappings : List MappedRegion
  offsetInInode : Nat
  mappingsInode : Nat
  isMmapped : Bool
  deriving DecidableEq, Repr

/-- Where an offset of the file is in memory, if the range is inside of the mapping. -/
def regionAddr (m : Module) (startOffset size : Nat) (mapping : MappedRegion) : Option Nat :=
  if mapping.offset < m.offsetInInode then none
  else
    let mappingOffset := mapping.offset - m.offsetInInode
    if startOffset < mappingOffset then none
    else
      let offset := startOffset - mappingOffset
      if offset ≥ mapping.size ∨ size > mapping.size - offset then none else some (add64 mapping.addr offset)

/-- `sentry__module_get_addr`; nothing for a null pointer. -/
def getAddr (m : Module) (startOffset size : Nat) : Option Nat :=
  (m.mappings.findSome? (regionAddr m startOffset size)).filter (· ≠ 0)

section

-- the memory, whether `process_vm_readv` is permitted, and the module
variable (r : Region) (permitted : Bool) (m : Module)

/-- `read_safely`: without the system call it is a `memcpy`. -/
def readSafely (src size : Nat) : Except Fault (Option Bytes) :=
  if permitted then .ok (r.load src size).toOption else (r.load src size).map some

/-- `sentry__module_read_safely` -/
def moduleReadSafely (startOffset size : Nat) : Except Fault (Option Bytes) :=
  match getAddr m startOffset size with
  | none => .ok none
  | some src => if m.isMmapped then (r.load src size).map some else readSafely r permitted src size

/-- `ENSURE` -/
def ensure {α β : Type} (x : Except Fault (Option α)) (k : α → Except Fault (Option β)) : Except Fault (Option β) :=
  x.bind fun
    | none => .ok none
    | some a => k a

def programHeaderLoop (c : Class) (elf : Ehdr) : Nat → Nat → Except Fault (Option Span)
  | 0, _ => .ok none
  | n + 1, i =>
    ensure (moduleReadSafely r permitted m (add64 elf.phoff (elf.phentsize * i)) (Phdr.size c)) fun bytes =>
      let header := Phdr.decode bytes c
      if header.type ≠ PT_NOTE then programHeaderLoop c elf n (i + 1)
      else
        ensure (.ok (getAddr m header.offset header.filesz)) fun segmentAddr =>
          (findNote r segmentAddr header.filesz header.align NT_GNU_BUILD_ID gnuName).bind fun
            | some codeId => .ok (some codeId)
            | none => programHeaderLoop c elf n (i + 1)

/-- `get_code_id_from_program_header` -/
def getCodeIdFromProgramHeader : Except Fault (Option Span) :=
  ensure (moduleReadSafely r permitted m 0 EI_NIDENT) fun ident =>
    let c := classOf ident
    ensure (moduleReadSafely r permitted m 0 (Ehdr.size c)) fun bytes =>
      let elf := Ehdr.decode bytes c
      programHeaderLoop r permitted m c elf elf.phnum 0

section

-- what is done with a section: nothing to go on, a result to stop with it
variable (inner : Shdr → Bytes → Except Fault (Option (Option Span)))

def sectionLoop (c : Class) (elf : Ehdr) (strheader : Shdr) : Nat → Nat → Except Fault (Option Span)
  | 0, _ => .ok none
  | n + 1, i =>
    ensure (moduleReadSafely r permitted m (add64 elf.shoff (elf.shentsize * i)) (Shdr.bytes c)) fun bytes =>
      let header := Shdr.decode bytes c
      ensure (moduleReadSafely r permitted m (add64 strheader.offset header.name) 6) fun name =>
        (inner header (cstr (name.take 5))).bind fun
          | some result => .ok result
          | none => sectionLoop c elf strheader n (i + 1)

/-- `ELF_SECTION_ITER` -/
def sectionIter : Except Fault (Option Span) :=
  ensure (moduleReadSafely r permitted m 0 EI_NIDENT) fun ident =>
    let c := classOf ident
    ensure (moduleReadSafely r permitted m 0 (Ehdr.size c)) fun bytes =>
      let elf := Ehdr.decode bytes c
      ensure (moduleReadSafely r permitted m (add64 elf.shoff (elf.shentsize * elf.shstrndx)) (Shdr.bytes c)) fun bytes =>
        sectionLoop r permitted m inner c elf (Shdr.decode bytes c) elf.shnum 0

end

/-- `".note"` -/
def noteSection : Bytes := [46, 110, 111, 116, 101]

/-- `".text"` -/
def textSection : Bytes := [46, 116, 101, 120, 116]

def noteInner (header : Shdr) (name : Bytes) : Except Fault (Option (Option Span)) :=
  if header.type = SHT_NOTE ∧ name = noteSection then
    match getAddr m header.offset header.size with
    | none => .ok (some none)
    | some segmentAddr =>
      (findNote r segmentAddr header.size header.addralign NT_GNU_BUILD_ID gnuName).map fun found => found.map some
  else .ok none

/-- `get_code_id_from_note_section` -/
def getCodeIdFromNoteSection : Except Fault (Option Span) := sectionIter r permitted m (noteInner r m)

def textInner (header : Shdr) (name : Bytes) : Except Fault (Option (Option Span)) :=
  if header.type = SHT_PROGBITS ∧ name = textSection then
    .ok (some ((getAddr m header.offset header.size).map fun text => ⟨text, header.size⟩))
  else .ok none

/-- The first page of the text, folded into sixteen bytes. -/
def textFold (text : Bytes) : Uuid :=
  text.zipIdx.foldl (fun uuid b => Function.update uuid (Fin.ofNat 16 b.2) (uuid (Fin.ofNat 16 b.2) ^^^ b.1)) fun _ => 0

/-- `get_code_id_from_text_section` -/
def getCodeIdFromTextSection : Except Fault Uuid :=
  (sectionIter r permitted m (textInner m)).bind fun
    | none => .ok fun _ => 0
    | some text => (r.load text.addr (min text.size 4096)).map textFold

/-- Up to sixteen bytes copied into the nil uuid. -/
def uuidOf (bytes : Bytes) : Uuid := fun i => bytes.getD i 0

/-- `sentry__uuid_swap_guid_bytes` -/
def swapGuidBytes (uuid : Uuid) : Uuid :=
  ![uuid 3, uuid 2, uuid 1, uuid 0, uuid 5, uuid 4, uuid 7, uuid 6, uuid 8, uuid 9, uuid 10, uuid 11, uuid 12, uuid 13,
    uuid 14, uuid 15]

/-- `sentry__value_new_hexstring` -/
def hexString (bytes : Bytes) : Bytes := bytes.flatMap hexByte

structure Ids where
  codeId : Option Bytes
  debugId : Bytes
  deriving DecidableEq, Repr

def idsOf (codeId : Option Bytes) (uuid : Uuid) : Ids := ⟨codeId.map hexString, (swapGuidBytes uuid).asString⟩

/-- `sentry__procmaps_read_ids_from_elf` -/
def readIdsFromElf : Except Fault Ids :=
  (getCodeIdFromProgramHeader r permitted m).bind fun
    | some codeId => (r.load codeId.addr codeId.size).map fun bytes => idsOf (some bytes) (uuidOf bytes)
    | none =>
      (getCodeIdFromNoteSection r permitted m).bind fun
        | some codeId => (r.load codeId.addr codeId.size).map fun bytes => idsOf (some bytes) (uuidOf bytes)
        | none => (getCodeIdFromTextSection r permitted m).map (idsOf none)

end

/-! ## Files -/

/-- What the process runs on: the regular files that can be opened, where `mmap` puts a file, and the
memory of the vdso. -/
structure Host where
  contents : Bytes → Option Bytes
  mmap : Bytes → Option Nat
  vdso : Region
  permitted : Bool

/-- `sentry__mmap_file` -/
def mmapFile (h : Host) (path : Bytes) : Option Region :=
  (h.contents path).bind fun bytes => if bytes = [] then none else (h.mmap path).map fun ptr => ⟨ptr, bytes⟩

/-- `"linux-gate.so"` -/
def linuxGate : Bytes := [108, 105, 110, 117, 120, 45, 103, 97, 116, 101, 46, 115, 111]

/-- `sentry_value_new_int32` -/
def int32 (n : Nat) : Int := (BitVec.ofNat 32 n).toInt

structure ModuleValue where
  codeFile : Bytes
  imageAddr : Nat
  imageSize : Int
  ids : Ids
  deriving DecidableEq, Repr

def Module.first (m : Module) : MappedRegion := m.mappings.headD ⟨0, 0, 0⟩
def Module.last (m : Module) : MappedRegion := m.mappings.getLastD ⟨0, 0, 0⟩

def Module.size (m : Module) : Nat := sub64 (add64 m.last.addr m.last.size) m.first.addr

/-- The whole file, mapped again. -/
def mmappedModule (mm : Region) (m : Module) : Module where
  file := none
  mappings := [⟨0, sub64 mm.bytes.length m.offsetInInode, add64 mm.base m.offsetInInode⟩]
  offsetInInode := 0
  mappingsInode := 0
  isMmapped := true

/-- `sentry__procmaps_module_to_value`; nothing for a null value. -/
def moduleToValue (h : Host) (m : Module) : Except Fault (Option ModuleValue) :=
  let file := m.file.getD []
  let value (ids : Ids) : Option ModuleValue := some ⟨file, m.first.addr, int32 m.size, ids⟩
  if file = linuxGate then (readIdsFromElf h.vdso h.permitted m).map value
  else
    match mmapFile h file with
    | none => .ok none
    | some mm => (readIdsFromElf mm h.permitted (mmappedModule mm m)).map value

/-! ## Reads inside of the file -/

/-- Nothing faults, and the result is as it should be. -/
def Returns {α : Type} (x : Except Fault α) (P : α → Prop) : Prop := ∃ a, x = .ok a ∧ P a

section

variable {α β : Type} {x : Except Fault α} {P : α → Prop} {Q : β → Prop}

theorem Returns.bind (h : Returns x P) {k : α → Except Fault β} (hk : ∀ a, P a → Returns (k a) Q) :
    Returns (x.bind k) Q := by
  obtain ⟨a, rfl, ha⟩ := h
  exact hk a ha

theorem Returns.map (h : Returns x P) {f : α → β} (hf : ∀ a, P a → Q (f a)) : Returns (x.map f) Q := by
  obtain ⟨a, rfl, ha⟩ := h
  exact ⟨f a, rfl, hf a ha⟩

theorem Returns.ensure {x : Except Fault (Option α)} {P : α → Prop} {Q : Option β → Prop}
    (h : Returns x fun o => ∀ a ∈ o, P a) {k : α → Except Fault (Option β)} (hk : ∀ a, P a → Returns (k a) Q)
    (hnone : Q none) : Returns (ensure x k) Q := by
  refine h.bind fun o ho => ?_
  cases o with
  | none => exact ⟨none, rfl, hnone⟩
  | some a => exact hk a (ho a rfl)

theorem Returns.ok (h : Returns x P) : ∃ a, x = .ok a := h.imp fun _ ha => ha.1

end

/-- Every address that the module translates to is in the memory, with what is behind it. -/
structure Covered (r : Region) (m : Module) : Prop where
  mmapped : m.isMmapped = true
  holds : ∀ startOffset size addr, getAddr m startOffset size = some addr → r.Holds addr size

/-- A result that can be read. -/
def Region.HasSpan (r : Region) (s : Span) : Prop := r.base ≤ s.addr ∧ s.addr + s.size ≤ r.base + r.bytes.length

theorem Region.HasSpan.load {r : Region} {s : Span} (h : r.HasSpan s) {size : Nat} (hsize : size ≤ s.size) :
    ∃ b, r.load s.addr size = .ok b := by
  unfold Region.HasSpan at h
  exact ⟨_, if_pos (.inr (by omega))⟩

section

variable {r : Region} {permitted : Bool} {m : Module} {P : Option Span → Prop}

theorem Covered.read (h : Covered r m) (startOffset size : Nat) :
    Returns (moduleReadSafely r permitted m startOffset size) fun _ => True := by
  unfold moduleReadSafely
  cases hget : getAddr m startOffset size with
  | none => exact ⟨none, rfl, trivial⟩
  | some src =>
    have hin := h.holds _ _ _ hget
    simp only [h.mmapped, ↓reduceIte]
    exact ⟨_, by rw [Region.load, if_pos (.inr ⟨hin.base, hin.stop⟩)]; rfl, trivial⟩

/-- A note that is found in a segment or a section. -/
theorem Covered.note (h : Covered r m) {startOffset size addr : Nat} (hget : getAddr m startOffset size = some addr)
    (alignment : Nat) :
    Returns (findNote r addr size alignment NT_GNU_BUILD_ID gnuName) fun found => ∀ s ∈ found, r.HasSpan s := by
  have hin := h.holds _ _ _ hget
  obtain ⟨found, hfound, hspan⟩ := findNote_ok hin alignment NT_GNU_BUILD_ID gnuName
  refine ⟨found, hfound, fun s hs => ?_⟩
  have hbase := hin.base
  have hstop := hin.stop
  have := hspan s hs
  exact ⟨by omega, by omega⟩

/-- A read of a header, and what is done with it. -/
theorem Covered.ensureRead (h : Covered r m) {k : Bytes → Except Fault (Option Span)} {startOffset size : Nat}
    (hk : ∀ b, Returns (k b) fun found => ∀ s ∈ found, r.HasSpan s) :
    Returns (ensure (moduleReadSafely r permitted m startOffset size) k) fun found => ∀ s ∈ found, r.HasSpan s :=
  Returns.ensure ((h.read _ _).imp fun _ ha => ⟨ha.1, fun _ _ => True.intro⟩) (fun b _ => hk b) (by simp)

theorem Covered.programHeaderLoop (h : Covered r m) (c : Class) (elf : Ehdr) (n i : Nat) :
    Returns (programHeaderLoop r permitted m c elf n i) fun found => ∀ s ∈ found, r.HasSpan s := by
  induction n generalizing i with
  | zero => exact ⟨none, rfl, by simp⟩
  | succ n ih =>
    refine h.ensureRead fun bytes => ?_
    simp only
    split
    · exact ih _
    · cases hget : getAddr m (Phdr.decode bytes c).offset (Phdr.decode bytes c).filesz with
      | none => exact ⟨none, rfl, by simp⟩
      | some segment =>
        refine (h.note hget _).bind fun found hfound => ?_
        cases found with
        | none => exact ih _
        | some codeId => exact ⟨some codeId, rfl, hfound⟩

theorem Covered.codeIdFromProgramHeader (h : Covered r m) :
    Returns (getCodeIdFromProgramHeader r permitted m) fun found => ∀ s ∈ found, r.HasSpan s :=
  h.ensureRead fun _ => h.ensureRead fun _ => h.programHeaderLoop _ _ _ _

variable {inner : Shdr → Bytes → Except Fault (Option (Option Span))}

theorem Covered.sectionLoop (h : Covered r m)
    (hinner : ∀ header name, Returns (inner header name) fun o => ∀ found ∈ o, ∀ s ∈ found, r.HasSpan s) (c : Class)
    (elf : Ehdr) (strheader : Shdr) (n i : Nat) :
    Returns (sectionLoop r permitted m inner c elf strheader n i) fun found => ∀ s ∈ found, r.HasSpan s := by
  induction n generalizing i with
  | zero => exact ⟨none, rfl, by simp⟩
  | succ n ih =>
    refine h.ensureRead fun bytes => h.ensureRead fun name => ?_
    refine (hinner _ _).bind fun o ho => ?_
    cases o with
    | none => exact ih _
    | some result => exact ⟨result, rfl, ho result rfl⟩

theorem Covered.sectionIter (h : Covered r m)
    (hinner : ∀ header name, Returns (inner header name) fun o => ∀ found ∈ o, ∀ s ∈ found, r.HasSpan s) :
    Returns (sectionIter r permitted m inner) fun found => ∀ s ∈ found, r.HasSpan s :=
  h.ensureRead fun _ => h.ensureRead fun _ => h.ensureRead fun _ => h.sectionLoop hinner _ _ _ _ _

theorem Covered.noteInner (h : Covered r m) (header : Shdr) (name : Bytes) :
    Returns (noteInner r m header name) fun o => ∀ found ∈ o, ∀ s ∈ found, r.HasSpan s := by
  unfold Elf.noteInner
  split
  · cases hget : getAddr m header.offset header.size with
    | none => exact ⟨some none, rfl, by simp⟩
    | some segment =>
      refine (h.note hget _).map fun found hfound => ?_
      cases found with
      | none => simp
      | some codeId => simpa using hfound
  · exact ⟨none, rfl, by simp⟩

theorem Covered.textInner (h : Covered r m) (header : Shdr) (name : Bytes) :
    Returns (textInner m header name) fun o => ∀ found ∈ o, ∀ s ∈ found, r.HasSpan s := by
  unfold Elf.textInner
  split
  · refine ⟨_, rfl, fun found hfound s hs => ?_⟩
    cases hfound
    obtain ⟨text, hget, rfl⟩ := Option.mem_map.1 hs
    have hin := h.holds _ _ _ hget
    exact ⟨hin.base, hin.stop⟩
  · exact ⟨none, rfl, by simp⟩

/-- The build id of a module whose addresses are in the memory is read from it. -/
theorem Covered.readIds (h : Covered r m) : Returns (readIdsFromElf r permitted m) fun _ => True := by
  have hids (codeId : Span) (hin : r.HasSpan codeId) :
      Returns ((r.load codeId.addr codeId.size).map fun bytes => idsOf (some bytes) (uuidOf bytes)) fun _ => True := by
    obtain ⟨b, hb⟩ := hin.load (Nat.le_refl _)
    exact ⟨_, by rw [hb]; rfl, trivial⟩
  refine h.codeIdFromProgramHeader.bind fun found hfound => ?_
  cases found with
  | some codeId => exact hids codeId (hfound codeId rfl)
  | none =>
    refine (h.sectionIter h.noteInner).bind fun found hfound => ?_
    cases found with
    | some codeId => exact hids codeId (hfound codeId rfl)
    | none =>
      suffices htext : Returns (getCodeIdFromTextSection r permitted m) fun _ => True from htext.map fun _ _ => trivial
      refine (h.sectionIter h.textInner).bind fun found hfound => ?_
      cases found with
      | none => exact ⟨_, rfl, trivial⟩
      | some text =>
        obtain ⟨b, hb⟩ := (hfound text rfl).load (Nat.min_le_left _ 4096)
        refine ⟨textFold b, ?_, trivial⟩
        simp only [hb]
        rfl

/-- Without the first bytes of the file there is nothing to read. -/
theorem readIds_unreadable (h : getAddr m 0 EI_NIDENT = none) :
    readIdsFromElf r permitted m = .ok (idsOf none fun _ => 0) := by
  have hread : moduleReadSafely r permitted m 0 EI_NIDENT = .ok none := by rw [moduleReadSafely, h]
  have hnote : getCodeIdFromNoteSection r permitted m = .ok none := by
    rw [getCodeIdFromNoteSection, Elf.sectionIter, hread]
    rfl
  have htext : getCodeIdFromTextSection r permitted m = .ok fun _ => 0 := by
    rw [getCodeIdFromTextSection, Elf.sectionIter, hread]
    rfl
  rw [readIdsFromElf, getCodeIdFromProgramHeader, hread]
  simp only [ensure, Except.bind, hnote, htext, Except.map]

theorem readIds_fault {fault : Fault} (h : moduleReadSafely r permitted m 0 EI_NIDENT = .error fault) :
    readIdsFromElf r permitted m = .error fault := by
  rw [readIdsFromElf, getCodeIdFromProgramHeader, h]
  rfl

end

/-! ## The file that was mapped again -/

/-- A mapping of a file, of a size that a file can have. -/
structure Region.Mapped (r : Region) : Prop where
  pos : 0 < r.base
  word : r.base + r.bytes.length < wordCount
  size : r.bytes.length < 2 ^ 63

/-- The recorded offset lies in the file, or so far behind it that nothing is left before the end or the
start of the address space. -/
def OffsetHeld (r : Region) (offset : Nat) : Prop :=
  offset ≤ r.bytes.length ∨ wordCount + r.bytes.length < offset + EI_NIDENT ∨ r.base + offset = wordCount

theorem getAddr_mmapped {mm : Region} {m : Module} {startOffset size : Nat} :
    getAddr (mmappedModule mm m) startOffset size =
      if startOffset < sub64 mm.bytes.length m.offsetInInode ∧ size ≤ sub64 mm.bytes.length m.offsetInInode - startOffset ∧
          add64 (add64 mm.base m.offsetInInode) startOffset ≠ 0 then
        some (add64 (add64 mm.base m.offsetInInode) startOffset)
      else none := by
  simp only [getAddr, mmappedModule, List.findSome?_cons, List.findSome?_nil, regionAddr, Nat.not_lt_zero, ↓reduceIte,
    Nat.sub_zero]
  generalize sub64 mm.bytes.length m.offsetInInode = mapped
  generalize add64 (add64 mm.base m.offsetInInode) startOffset = addr
  by_cases hin : startOffset ≥ mapped ∨ size > mapped - startOffset
  · rw [if_pos hin, if_neg (by omega)]
    rfl
  · rw [if_neg hin]
    by_cases hnull : addr = 0
    · simp [hnull]
    · simp only [Option.filter_some]
      rw [if_pos (by simpa using hnull), if_pos ⟨by omega, by omega, hnull⟩]

theorem covered_mmapped {mm : Region} {m : Module} (hmm : mm.Mapped) (hoff : m.offsetInInode ≤ mm.bytes.length) :
    Covered mm (mmappedModule mm m) := by
  obtain ⟨hpos, hword, hsize⟩ := hmm
  refine ⟨rfl, fun startOffset size addr hget => ?_⟩
  rw [getAddr_mmapped, sub64_eq hoff (by omega), add64_eq (show mm.base + m.offsetInInode < wordCount by omega)] at hget
  simp only [Option.ite_none_right_eq_some, Option.some.injEq] at hget
  obtain ⟨⟨hstart, hin, hnull⟩, rfl⟩ := hget
  rw [add64_eq (by omega)]
  exact ⟨by omega, by omega, by omega, by omega, by omega⟩

theorem readIds_mmapped {mm : Region} {permitted : Bool} {m : Module} (hmm : mm.Mapped) (hword : m.offsetInInode < wordCount) :
    (∃ ids, readIdsFromElf mm permitted (mmappedModule mm m) = .ok ids) ↔ OffsetHeld mm m.offsetInInode := by
  obtain ⟨hpos, hend, hsize⟩ := hmm
  by_cases hoff : m.offsetInInode ≤ mm.bytes.length
  · exact iff_of_true (covered_mmapped ⟨hpos, hend, hsize⟩ hoff).readIds.ok (.inl hoff)
  have hsub : sub64 mm.bytes.length m.offsetInInode = wordCount + mm.bytes.length - m.offsetInInode := by
    unfold sub64
    rw [Nat.mod_eq_of_lt (by omega)]
    omega
  have haddr : add64 (add64 mm.base m.offsetInInode) 0 = add64 mm.base m.offsetInInode := by
    unfold add64
    rw [Nat.add_zero, Nat.mod_mod]
  have hwrap : add64 mm.base m.offsetInInode = if mm.base + m.offsetInInode < wordCount then mm.base + m.offsetInInode
      else mm.base + m.offsetInInode - wordCount := by
    unfold add64
    split
    · exact Nat.mod_eq_of_lt ‹_›
    · rw [Nat.mod_eq_sub_mod (by omega), Nat.mod_eq_of_lt (by omega)]
  by_cases hheld : OffsetHeld mm m.offsetInInode
  · refine iff_of_true ⟨_, readIds_unreadable ?_⟩ hheld
    unfold OffsetHeld at hheld
    rw [getAddr_mmapped, if_neg]
    rintro ⟨-, hin, hnull⟩
    rw [hsub] at hin
    rw [haddr, hwrap] at hnull
    split at hnull <;> omega
  · refine iff_of_false ?_ hheld
    unfold OffsetHeld EI_NIDENT at hheld
    push Not at hheld
    -- the first read is already outside of the file
    have hget : getAddr (mmappedModule mm m) 0 EI_NIDENT = some (add64 mm.base m.offsetInInode) := by
      rw [getAddr_mmapped, haddr, hsub, if_pos]
      refine ⟨by omega, by unfold EI_NIDENT; omega, ?_⟩
      rw [hwrap]
      split <;> omega
    have hout : mm.load (add64 mm.base m.offsetInInode) EI_NIDENT = .error .read := by
      rw [Region.load, if_neg]
      rw [hwrap]
      unfold EI_NIDENT
      split <;> omega
    have hread : moduleReadSafely mm permitted (mmappedModule mm m) 0 EI_NIDENT = .error .read := by
      rw [moduleReadSafely, hget]
      simp only [mmappedModule, ↓reduceIte, hout]
      rfl
    rw [readIds_fault hread]
    rintro ⟨ids, hids⟩
    cases hids

end SentryNative.Elf
