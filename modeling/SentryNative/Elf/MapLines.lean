import SentryNative.Daemon.Maps
import SentryNative.Elf.BuildIds

/-!
# Modules of the own process

`load_modules` goes over the text of `/proc/self/maps` line by line and puts the mappings of
one file together. A mapping that starts with an ELF header begins a module, and a module is
reported when the next one begins.
-/

namespace SentryNative.Elf

open CLib
open Daemon (HexText)

/-! ## Lines -/

/-- `sentry_parsed_module_t`; the file is none where its pointer is null. -/
structure ParsedModule where
  start : Nat
  stop : Nat
  offset : Nat
  permissions : Bytes
  inode : Nat
  file : Option Bytes
  deriving DecidableEq, Repr

/-- `SENTRY_MAX_MAPPINGS` -/
def maxMappings : Nat := 5

/-- `sentry__module_mapping_push` -/
def mappingPush (m : Module) (parsed : ParsedModule) : Module :=
  if m.mappings ≠ [] ∧ m.mappingsInode ≠ parsed.inode then m
  else
    let size := sub64 parsed.stop parsed.start
    if m.mappings ≠ [] ∧ add64 m.last.addr m.last.size = parsed.start ∧
        add64 m.last.offset m.last.size = parsed.offset then
      { m with mappings := m.mappings.dropLast ++ [{ m.last with size := add64 m.last.size size }] }
    else if m.mappings.length < maxMappings then
      let pushed := { m with mappings := m.mappings ++ [⟨parsed.offset, size, parsed.start⟩] }
      if m.mappings = [] then { pushed with mappingsInode := parsed.inode, offsetInInode := parsed.offset }
      else pushed
    else m

/-- `is_duplicated_mapping` -/
def isDuplicatedMapping (m : Module) (parsed : ParsedModule) : Bool :=
  m.mappings ≠ [] && m.first.offset = parsed.offset && m.mappingsInode = parsed.inode

/-- `try_append_module` -/
def tryAppendModule (h : Host) (modules : List ModuleValue) (m : Module) : Except Fault (List ModuleValue) :=
  if m.file = none ∨ m.mappings = [] then .ok modules
  else (moduleToValue h m).map fun v => modules ++ v.toList

/-- `"/dev/"` -/
def devPath : Bytes := [47, 100, 101, 118, 47]

/-- The file of a mapping that is looked at: it can be read, and has a file outside of `/dev/` or is
the vdso. -/
def fileOf (linuxVdso : Nat) (parsed : ParsedModule) : Option Bytes :=
  if parsed.start = 0 ∨ parsed.permissions.head? ≠ some 114 then none
  else
    match parsed.file with
    | none => none
    | some file =>
      if file = [] ∨ devPath <+: file then none
      else if parsed.start = linuxVdso then some linuxGate
      else if file.head? ≠ some 47 then none
      else some file

section

-- the process, where an ELF header is mapped, and where the vdso is
variable (h : Host) (isValidElfHeader : Nat → Bool) (linuxVdso : Nat)

/-- A mapping that is looked at. -/
def addMapping (lastModule : Module) (modules : List ModuleValue) (parsed : ParsedModule) :
    Except Fault (Module × List ModuleValue) :=
  if isValidElfHeader parsed.start ∧ ¬ isDuplicatedMapping lastModule parsed then
    (tryAppendModule h modules lastModule).map fun modules =>
      (mappingPush ⟨parsed.file, [], 0, 0, false⟩ parsed, modules)
  else .ok (mappingPush lastModule parsed, modules)

end

/-! ## The text of a listing -/

structure DecText where
  digits : Bytes
  nonempty : digits ≠ []
  decimal : ∀ d ∈ digits, isDigit d = true
  fits : digitsValue digits < 2 ^ 64

/-- A line without its end. Without a path there need be no blank behind the inode. -/
structure MapLine where
  start : HexText
  stop : HexText
  permissions : Bytes
  offset : HexText
  major : HexText
  minor : HexText
  inode : DecText
  pad : Nat
  path : Bytes
  permissionsLength : permissions.length = 4
  permissionsSolid : ∀ c ∈ permissions, isSpace c = false ∧ c ≠ 0
  pathNoNul : 0 ∉ path
  pathNoEnd : 10 ∉ path
  pathHead : ∀ c, path.head? = some c → isSpace c = false
  padded : path ≠ [] → 0 < pad
  nonempty : start.value < stop.value

/-- Everything before the path. -/
def MapLine.fields (l : MapLine) : Bytes :=
  l.start.digits ++ 45 :: (l.stop.digits ++ 32 :: (l.permissions ++ 32 :: (l.offset.digits ++ 32 ::
    (l.major.digits ++ 58 :: (l.minor.digits ++ 32 :: (l.inode.digits ++ List.replicate l.pad 32))))))

def MapLine.text (l : MapLine) : Bytes := l.fields ++ l.path

/-- What is read of a line, but for its file. -/
def MapLine.mapping (l : MapLine) : ParsedModule where
  start := l.start.value.toNat
  stop := l.stop.value.toNat
  offset := l.offset.value.toNat
  permissions := l.permissions
  inode := digitsValue l.inode.digits
  file := none

/-- Only at the end of the text is a missing path an empty one. -/
def MapLine.parsed (l : MapLine) (ended : Bool) : ParsedModule :=
  { l.mapping with file := if l.path = [] ∧ ended then none else some l.path }

/-- The lines; the last one may have no end. -/
structure MapText where
  lines : List MapLine
  ended : Bool
  ascending : lines.Pairwise fun a b => a.stop.value ≤ b.start.value

def linesText (ended : Bool) : List MapLine → Bytes
  | [] => []
  | [l] => if ended then l.text ++ [10] else l.text
  | l :: l' :: ls => l.text ++ 10 :: linesText ended (l' :: ls)

def linesParsed (ended : Bool) : List MapLine → List ParsedModule
  | [] => []
  | [l] => [l.parsed ended]
  | l :: l' :: ls => l.parsed true :: linesParsed ended (l' :: ls)

def MapText.text (t : MapText) : Bytes := linesText t.ended t.lines
def MapText.parsed (t : MapText) : List ParsedModule := linesParsed t.ended t.lines

/-! ## A line is read back -/

theorem MapLine.nul_not_mem_text (l : MapLine) : 0 ∉ l.text := by
  have hperms : 0 ∉ l.permissions := fun hc => (l.permissionsSolid 0 hc).2 rfl
  have hinode : 0 ∉ l.inode.digits := fun hc => by
    have := l.inode.decimal 0 hc
    cases this
  have hhex : ∀ t : HexText, 0 ∉ t.digits := fun t => t.not_mem rfl
  simp [text, fields, hperms, hinode, hhex, List.mem_replicate, l.pathNoNul]

theorem MapLine.text_head (l : MapLine) : ∃ c s, l.text = c :: s ∧ isSpace c = false := by
  obtain ⟨d, ds, hd⟩ := List.exists_cons_of_ne_nil l.start.nonempty
  have hhex := l.start.hex d (by rw [hd]; exact List.mem_cons_self)
  have htext : l.text = d :: l.text.tail := by
    rw [text, fields, hd]
    rfl
  exact ⟨d, _, htext, not_isSpace_of_isHexDigit hhex⟩

theorem MapLine.scanSpace_path (l : MapLine) (hpath : l.path ≠ []) (tail : Bytes) :
    scanSpace (l.path ++ tail) = l.path ++ tail := by
  obtain ⟨c, path, hcons⟩ := List.exists_cons_of_ne_nil hpath
  have hc := l.pathHead c (by rw [hcons]; rfl)
  rw [hcons]
  exact scanSpace_of_head hc

/-- The mapping, with the file that it is taken for. -/
def keep (linuxVdso : Nat) (parsed : ParsedModule) : Option ParsedModule :=
  (fileOf linuxVdso parsed).map fun file => { parsed with file := some file }

section

variable (h : Host) (isValidElfHeader : Nat → Bool) (linuxVdso : Nat)

/-- The mappings that are looked at, one after the other. -/
def addMappings : List ParsedModule → Module → List ModuleValue → Except Fault (Module × List ModuleValue)
  | [], lastModule, modules => .ok (lastModule, modules)
  | parsed :: rest, lastModule, modules =>
    match addMapping h isValidElfHeader lastModule modules parsed with
    | .error e => .error e
    | .ok (lastModule, modules) => addMappings rest lastModule modules

end

/-- The mappings of a listing that are looked at. -/
def MapText.kept (t : MapText) (linuxVdso : Nat) : List ParsedModule := t.parsed.filterMap (keep linuxVdso)

end SentryNative.Elf
