import SentryNative.Lib.Scan

/-!
# Modules of a crashed process

The daemon lists the modules of the crashed process from the text of `/proc/<pid>/maps`
and looks up the module of an address in that list.
-/

namespace SentryNative.Daemon

open CLib

def crashMaxModules : Nat := 2048

def crashMaxPath : Nat := 4096

/-- `char line[1024]`. -/
def mapsLineSize : Nat := 1024

structure Module where
  name : Bytes
  baseAddress : UInt64
  size : UInt64
  deriving DecidableEq, Repr

/-- One line, and the file after it. A line that does not fit is cut and its rest skipped. -/
def readMapsLine (size : Nat) (file : Bytes) : Option (Bytes × Bytes) :=
  match fgets size file with
  | none => none
  | some (got, rest) =>
    let line := cstr got
    if line.getLast? = some 10 then some (line, rest)
    else some (line, (rest.dropWhile (· ≠ 10)).drop 1)

/-- What `sscanf` stores; the pathname is what is left of the line, if the format gets so far. -/
structure Scanned where
  start : UInt64
  stop : UInt64
  offset : UInt64
  pathname : Option Bytes
  deriving DecidableEq, Repr

def scanDash : Bytes → Option Bytes
  | 45 :: t => some t
  | _ => none

/-- `%*s %*s %n`. -/
def scanPathname (s : Bytes) : Option Bytes := do
  let (_, s) ← scanWord s.length (scanSpace s)
  let (_, s) ← scanWord s.length (scanSpace s)
  return scanSpace s

/-- `%llx-%llx %4s %llx %*s %*s %n`, with four values stored. -/
def scanMapsLine (line : Bytes) : Option Scanned := do
  let (start, s) ← scanHex line
  let s ← scanDash s
  let (stop, s) ← scanHex s
  let (_, s) ← scanWord 4 (scanSpace s)
  let (offset, s) ← scanHex (scanSpace s)
  return { start, stop, offset, pathname := scanPathname s }

/-- The file of a mapping: neither nothing nor a special mapping such as `[stack]`. -/
def pathnameOf (pathname : Option Bytes) : Option Bytes :=
  match pathname with
  | none => none
  | some path =>
    if path = [] ∨ path.head? = some 91 ∨ path.head? = some 10 then none
    else
      let name := if path.getLast? = some 10 then path.dropLast else path
      if name = [] then none else some name

def Module.extend (m : Module) (stop : UInt64) : Module :=
  if m.baseAddress + m.size < stop then { m with size := stop - m.baseAddress } else m

/-- The first module of that name is extended. -/
def extendFirst (name : Bytes) (stop : UInt64) : List Module → List Module
  | [] => []
  | m :: ms => if m.name = name then m.extend stop :: ms else m :: extendFirst name stop ms

section
variable (elfIsFile : Bytes → Bool)

def recordMapping (ms : List Module) (start stop offset : UInt64) (name : Bytes) : List Module :=
  if ms.any (·.name = name) then extendFirst name stop ms
  else
    let base := start - offset
    let m : Module := { name := name.take (crashMaxPath - 1), baseAddress := base, size := stop - base }
    if elfIsFile m.name then ms ++ [m] else ms

def recordScanned (ms : List Module) (s : Scanned) : List Module :=
  match pathnameOf s.pathname with
  | none => ms
  | some name => recordMapping elfIsFile ms s.start s.stop s.offset name

/-- The loop over the lines; a line is read from a file that is shorter each time. -/
def captureLines : Nat → Bytes → List Module → List Module
  | 0, _, ms => ms
  | fuel + 1, file, ms =>
    match readMapsLine mapsLineSize file with
    | none => ms
    | some (line, rest) =>
      match scanMapsLine line with
      | none => captureLines fuel rest ms
      | some s =>
        if crashMaxModules ≤ ms.length then ms
        else captureLines fuel rest (recordScanned elfIsFile ms s)

def captureModulesFromProcMaps (maps : Bytes) : List Module := captureLines elfIsFile maps.length maps []

end

def Module.Holds (m : Module) (addr : UInt64) : Prop :=
  m.baseAddress ≤ addr ∧ addr < m.baseAddress + m.size

instance (m : Module) (addr : UInt64) : Decidable (m.Holds addr) :=
  inferInstanceAs (Decidable (_ ∧ _))

/-- The package of a frame at the address. -/
def enrichFrameWithModuleInfo (ms : List Module) (addr : UInt64) : Option Bytes :=
  ((ms.take crashMaxModules).find? (fun m => decide (m.Holds addr))).map (·.name)

/-! ## The text of a listing -/

structure HexText where
  digits : Bytes
  nonempty : digits ≠ []
  hex : ∀ d ∈ digits, isHexDigit d = true
  fits : hexValue digits < 2 ^ 64

def HexText.value (t : HexText) : UInt64 := UInt64.ofNat (hexValue t.digits)

structure Word where
  text : Bytes
  nonempty : text ≠ []
  solid : ∀ c ∈ text, isSpace c = false
  noNul : 0 ∉ text

structure Entry where
  start : HexText
  stop : HexText
  perms : Word
  offset : HexText
  dev : Word
  inode : Word
  pad : Nat
  path : Bytes

def Entry.text (e : Entry) : Bytes :=
  e.start.digits ++ 45 :: (e.stop.digits ++ 32 :: (e.perms.text ++ 32 :: (e.offset.digits ++ 32 ::
    (e.dev.text ++ 32 :: (e.inode.text ++ 32 :: (List.replicate e.pad 32 ++ e.path))))))

/-- A well-formed line that is shorter than the buffer. -/
structure Line extends Entry where
  permsLength : perms.text.length = 4
  pathNoNul : 0 ∉ path
  pathNoEnd : 10 ∉ path
  pathHead : ∀ c, path.head? = some c → isSpace c = false
  short : toEntry.text.length + 1 < mapsLineSize
  nonempty : start.value < stop.value

def Line.file (l : Line) : Option Bytes :=
  if l.path = [] ∨ l.path.head? = some 91 then none else some l.path

def Line.Holds (l : Line) (addr : UInt64) : Prop := l.start.value ≤ addr ∧ addr < l.stop.value

instance (l : Line) (addr : UInt64) : Decidable (l.Holds addr) := inferInstanceAs (Decidable (_ ∧ _))

/-- The mappings of a process, in the order of their addresses. -/
structure Maps where
  lines : List Line
  ascending : lines.Pairwise (fun a b => a.stop.value ≤ b.start.value)

def textOf : List Line → Bytes
  | [] => []
  | l :: ls => l.text ++ 10 :: textOf ls

def Maps.text (maps : Maps) : Bytes := textOf maps.lines

/-! ## The text is read back -/

theorem HexText.not_mem (t : HexText) {c : UInt8} (h : isHexDigit c = false) : c ∉ t.digits := by
  intro hc
  rw [t.hex c hc] at h
  cases h

theorem Word.not_mem (w : Word) {c : UInt8} (h : isSpace c = true) : c ∉ w.text := by
  intro hc
  rw [w.solid c hc] at h
  cases h

theorem Line.not_mem_text (l : Line) {c : UInt8} (hhex : isHexDigit c = false) (hdash : c ≠ 45) (hblank : c ≠ 32)
    (hperms : c ∉ l.perms.text) (hdev : c ∉ l.dev.text) (hinode : c ∉ l.inode.text) (hpath : c ∉ l.path) :
    c ∉ l.text := by
  have hstart := l.start.not_mem hhex
  have hstop := l.stop.not_mem hhex
  have hoffset := l.offset.not_mem hhex
  simp only [Entry.text, List.mem_append, List.mem_cons, List.mem_replicate, hstart, hstop, hoffset, hperms, hdev,
    hinode, hpath, hdash, hblank]
  simp

theorem Line.end_not_mem_text (l : Line) : 10 ∉ l.text :=
  l.not_mem_text rfl (by decide) (by decide) (l.perms.not_mem rfl) (l.dev.not_mem rfl) (l.inode.not_mem rfl)
    l.pathNoEnd

theorem Line.nul_not_mem_text (l : Line) : 0 ∉ l.text :=
  l.not_mem_text rfl (by decide) (by decide) l.perms.noNul l.dev.noNul l.inode.noNul l.pathNoNul

theorem readMapsLine_line (l : Line) (rest : Bytes) :
    readMapsLine mapsLineSize (l.text ++ 10 :: rest) = some (l.text ++ [10], rest) := by
  have hnul : (0 : UInt8) ∉ l.text ++ [10] := by
    simp [l.nul_not_mem_text]
  unfold readMapsLine
  rw [fgets_line l.end_not_mem_text l.short]
  simp only [cstr_of_not_mem hnul, List.getLast?_append, List.getLast?_singleton]
  simp

theorem scanSpace_blank {c : UInt8} {s : Bytes} (h : isSpace c = false) : scanSpace (32 :: c :: s) = c :: s :=
  (@scanSpace_append [32] _ (by simp [isSpace])).trans (scanSpace_of_head h)

theorem scanWord_solid (w : Word) {width : Nat} (hwidth : w.text.length ≤ width) (s : Bytes) :
    scanWord width (scanSpace (32 :: (w.text ++ 32 :: s))) = some (w.text, 32 :: s) := by
  have hspace : scanSpace (32 :: (w.text ++ 32 :: s)) = w.text ++ 32 :: s := by
    obtain ⟨d, t, ht⟩ := List.exists_cons_of_ne_nil w.nonempty
    have hd := w.solid d (by rw [ht]; exact List.mem_cons_self)
    rw [ht]
    exact scanSpace_blank hd
  rw [hspace]
  exact scanWord_word w.nonempty w.solid hwidth rfl

theorem scanHex_text (t : HexText) {c : UInt8} (hc : isHexDigit c = false) (hx : c ≠ 120) (hX : c ≠ 88) (s : Bytes) :
    scanHex (t.digits ++ c :: s) = some (t.value, c :: s) :=
  scanHex_digits t.nonempty t.hex t.fits hc hx hX

theorem scanHex_blank_text (t : HexText) (s : Bytes) :
    scanHex (scanSpace (32 :: (t.digits ++ 32 :: s))) = some (t.value, 32 :: s) := by
  have hspace : scanSpace (32 :: (t.digits ++ 32 :: s)) = t.digits ++ 32 :: s := by
    obtain ⟨d, ds, hd⟩ := List.exists_cons_of_ne_nil t.nonempty
    have hhex := t.hex d (by rw [hd]; exact List.mem_cons_self)
    rw [hd]
    exact scanSpace_blank (not_isSpace_of_isHexDigit hhex)
  rw [hspace]
  exact scanHex_text t rfl (by decide) (by decide) s

def Line.pathname (l : Line) : Bytes := if l.path = [] then [] else l.path ++ [10]

theorem Line.scanSpace_path (l : Line) :
    scanSpace (32 :: (List.replicate l.pad 32 ++ l.path ++ [10])) = l.pathname := by
  have hblanks : scanSpace (32 :: (List.replicate l.pad 32 ++ l.path ++ [10])) = scanSpace (l.path ++ [10]) := by
    rw [List.append_assoc, ← List.cons_append]
    apply scanSpace_append
    intro c hc
    obtain rfl | hc := List.mem_cons.mp hc
    · rfl
    · rw [List.eq_of_mem_replicate hc]
      rfl
  rw [hblanks]
  unfold Line.pathname
  split
  · rename_i hpath
    rw [hpath]
    rfl
  · rename_i hpath
    obtain ⟨c, path, hcons⟩ := List.exists_cons_of_ne_nil hpath
    have hc := l.pathHead c (by rw [hcons]; rfl)
    rw [hcons]
    exact scanSpace_of_head hc

theorem scanMapsLine_line (l : Line) :
    scanMapsLine (l.text ++ [10]) = some
      { start := l.start.value, stop := l.stop.value, offset := l.offset.value, pathname := some l.pathname } := by
  have htext : l.text ++ [10] = l.start.digits ++ 45 :: (l.stop.digits ++ 32 :: (l.perms.text ++ 32 ::
      (l.offset.digits ++ 32 :: (l.dev.text ++ 32 :: (l.inode.text ++ 32 ::
        (List.replicate l.pad 32 ++ l.path ++ [10])))))) := by
    simp [Entry.text]
  have hpathname : scanPathname (32 :: (l.dev.text ++ 32 :: (l.inode.text ++ 32 ::
      (List.replicate l.pad 32 ++ l.path ++ [10])))) = some l.pathname := by
    unfold scanPathname
    rw [scanWord_solid l.dev (by simp only [List.length_cons, List.length_append]; omega)]
    simp only [Option.bind_eq_bind, Option.bind_some]
    rw [scanWord_solid l.inode (by simp only [List.length_cons, List.length_append]; omega)]
    simp only [Option.bind_some, Option.pure_def, l.scanSpace_path]
  unfold scanMapsLine
  rw [htext, scanHex_text l.start rfl (by decide) (by decide)]
  simp only [Option.bind_eq_bind, Option.bind_some, scanDash]
  rw [scanHex_text l.stop rfl (by decide) (by decide)]
  simp only [Option.bind_some]
  rw [scanWord_solid l.perms (Nat.le_of_eq l.permsLength)]
  simp only [Option.bind_some]
  rw [scanHex_blank_text l.offset]
  simp only [Option.bind_some, Option.pure_def, hpathname]

theorem pathnameOf_line (l : Line) : pathnameOf (some l.pathname) = l.file := by
  unfold pathnameOf Line.pathname Line.file
  by_cases hpath : l.path = []
  · simp [hpath]
  · obtain ⟨c, path, hcons⟩ := List.exists_cons_of_ne_nil hpath
    have hend : c ≠ 10 := by
      rintro rfl
      exact l.pathNoEnd (by rw [hcons]; exact List.mem_cons_self)
    have hlast : (c :: path ++ [10]).getLast? = some 10 := by
      rw [List.getLast?_append]
      rfl
    have hdrop : (c :: path ++ [10]).dropLast = c :: path := List.dropLast_concat
    simp only [hcons, reduceCtorEq, if_false, hlast, hdrop, if_true]
    simp [hend]

section
variable (elfIsFile : Bytes → Bool)

/-- What a line does to the list. -/
def recordLine (ms : List Module) (l : Line) : List Module :=
  if crashMaxModules ≤ ms.length then ms
  else
    match l.file with
    | none => ms
    | some name => recordMapping elfIsFile ms l.start.value l.stop.value l.offset.value name

theorem foldl_recordLine_full {ms : List Module} (h : crashMaxModules ≤ ms.length) (ls : List Line) :
    ls.foldl (recordLine elfIsFile) ms = ms := by
  induction ls with
  | nil => rfl
  | cons l ls ih =>
    have hl : recordLine elfIsFile ms l = ms := if_pos h
    rw [List.foldl_cons, hl, ih]

theorem captureLines_textOf (ls : List Line) (fuel : Nat) (h : ls.length ≤ fuel) (ms : List Module) :
    captureLines elfIsFile fuel (textOf ls) ms = ls.foldl (recordLine elfIsFile) ms := by
  induction ls generalizing fuel ms with
  | nil => cases fuel <;> rfl
  | cons l ls ih =>
    cases fuel with
    | zero => simp at h
    | succ fuel =>
      unfold captureLines textOf
      simp only [readMapsLine_line, scanMapsLine_line]
      split
      · rename_i hfull
        exact (foldl_recordLine_full elfIsFile hfull (l :: ls)).symm
      · rename_i hroom
        have hl : recordScanned elfIsFile ms
            { start := l.start.value, stop := l.stop.value, offset := l.offset.value, pathname := some l.pathname }
            = recordLine elfIsFile ms l := by
          unfold recordScanned recordLine
          simp only [pathnameOf_line, if_neg hroom]
        rw [hl, List.foldl_cons]
        exact ih fuel (Nat.le_of_succ_le_succ h) _

theorem length_le_textOf (ls : List Line) : ls.length ≤ (textOf ls).length := by
  induction ls with
  | nil => exact Nat.le_refl _
  | cons l ls ih =>
    simp only [textOf, List.length_append, List.length_cons]
    omega

theorem captureModulesFromProcMaps_text (maps : Maps) :
    captureModulesFromProcMaps elfIsFile maps.text = maps.lines.foldl (recordLine elfIsFile) [] :=
  captureLines_textOf elfIsFile maps.lines _ (length_le_textOf _) []

end

end SentryNative.Daemon
