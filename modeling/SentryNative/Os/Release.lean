import Mathlib.Data.List.Forall2
import Mathlib.Data.List.Induction
import Mathlib.Data.List.ReduceOption
import SentryNative.Lib.Lines
import SentryNative.Value.Tree

/-!
# The reader of os-release

`sentry_os.c`: `get_linux_os_release` reads `/etc/os-release` through a buffer of 256 bytes, from
which it takes the lines that are complete and moves the open one to the front. A write behind the
end of a buffer has no result here.

* `readLoop_eq`: what is read does not depend on how `read` splits the file;
* `os_release`: it is the whole file, unless lines of weight follow one that fills the buffer.
-/

namespace SentryNative.Os

open CLib

/-- `OS_RELEASE_MAX_LINE_SIZE` -/
def maxLineSize : Nat := 256

/-- `OS_RELEASE_MAX_KEY_SIZE` -/
def maxKeySize : Nat := 64

/-- `OS_RELEASE_MAX_VALUE_SIZE` -/
def maxValueSize : Nat := 128

/-- Characters and a terminator, written to a buffer of a size. -/
def storeString (size : Nat) (s : Bytes) : Option Bytes := if s.length < size then some s else none

/-- `sentry__slice_to_buffer` -/
def sliceToBuffer (slice : Bytes) (size : Nat) : Option Bytes :=
  if size = 0 then some [] else storeString size (slice.take (size - 1))

/-- Some values are wrapped in double quotes. -/
def unquote (value : Bytes) : Bytes :=
  if 2 ≤ value.length ∧ value.head? = some 34 ∧ value.getLast? = some 34 then (value.drop 1).take (value.length - 2)
  else value

/-- `parse_os_release_line`: the key and the value, or nothing where the line has no equals sign. -/
def parseOsReleaseLine (line : Bytes) : Option (Option (Bytes × Bytes)) :=
  if 61 ∈ line then do
    let equals := line.takeWhile (· ≠ 61)
    let key ← storeString maxKeySize (equals.take (maxKeySize - 1))
    let value ← sliceToBuffer (unquote (line.drop (equals.length + 1))) maxValueSize
    pure (some (key, value))
  else some none

/-- `ID` -/
def idKey : Bytes := [73, 68]

/-- `VERSION_ID` -/
def versionIdKey : Bytes := [86, 69, 82, 83, 73, 79, 78, 95, 73, 68]

/-- `PRETTY_NAME` -/
def prettyNameKey : Bytes := [80, 82, 69, 84, 84, 89, 95, 78, 65, 77, 69]

/-- `name` -/
def nameField : Bytes := [110, 97, 109, 101]

/-- `version` -/
def versionField : Bytes := [118, 101, 114, 115, 105, 111, 110]

/-- `pretty_name` -/
def prettyNameField : Bytes := [112, 114, 101, 116, 116, 121, 95, 110, 97, 109, 101]

/-- The field of the object that a key of the file stands for. -/
def fieldOf (key : Bytes) : Option Bytes :=
  if key = idKey then some nameField
  else if key = versionIdKey then some versionField
  else if key = prettyNameKey then some prettyNameField
  else none

/-- `parse_line_into_object` -/
def parseLineIntoObject (line : Bytes) (osDist : Value) : Option Value := do
  match ← parseOsReleaseLine line with
  | none => pure osDist
  | some (key, value) =>
    match fieldOf key with
    | none => pure osDist
    | some field => pure (osDist.setByKey field (.string value))

/-- The loop over the valid part of the buffer: every newline ends a line, a NUL ends the loop. The
result is the object and what is left behind the last line. -/
def extractLines (osDist : Value) (line : Bytes) : Bytes → Option (Value × Bytes)
  | [] => some (osDist, line)
  | c :: rest =>
    if c = 0 then some (osDist, line ++ c :: rest)
    else if c = 10 then do extractLines (← parseLineIntoObject line osDist) [] rest
    else extractLines osDist (line ++ [c]) rest

/-- The loop of `get_linux_os_release`, from the `i`-th call of `read` on: `reads` says how many
bytes a call gives at most beyond the first, or that it fails. -/
def readLoop (reads : Nat → Option Nat) (i : Nat) (file bufferRest : Bytes) (osDist : Value) : Option Value :=
  match reads i with
  | none => some .null
  | some most =>
    let bytesRead := min (most + 1) (min (maxLineSize - bufferRest.length - 1) file.length)
    if hzero : bytesRead = 0 then
      -- the file ended without a newline
      if bufferRest ≠ [] then
        if bufferRest.length < maxLineSize then parseLineIntoObject (cstr bufferRest) osDist else none
      else some osDist
    else if (bufferRest ++ file.take bytesRead).length < maxLineSize then
      match extractLines osDist [] (bufferRest ++ file.take bytesRead) with
      | none => none
      | some (osDist, bufferRest) => readLoop reads (i + 1) (file.drop bytesRead) bufferRest osDist
    else none
termination_by file.length
decreasing_by
  simp only [List.length_drop]
  omega

/-- `get_linux_os_release` on a file that can be opened. -/
def getLinuxOsRelease (reads : Nat → Option Nat) (file : Bytes) : Option Value := readLoop reads 0 file [] (.object [])

/-! ## One line -/

theorem storeString_take (size : Nat) (h : 0 < size) (s : Bytes) :
    storeString size (s.take (size - 1)) = some (s.take (size - 1)) := by
  unfold storeString
  rw [if_pos]
  rw [List.length_take]
  omega

/-- The key and the value of a line stay in their buffers. -/
theorem parseOsReleaseLine_isSome (line : Bytes) : ∃ r, parseOsReleaseLine line = some r := by
  unfold parseOsReleaseLine
  split
  · dsimp only
    rw [storeString_take maxKeySize (by decide)]
    simp only [Option.bind_eq_bind, Option.bind_some, sliceToBuffer]
    rw [if_neg (by decide), storeString_take maxValueSize (by decide)]
    exact ⟨_, rfl⟩
  · exact ⟨none, rfl⟩

/-- The field and the value that a line sets. -/
def assignment (line : Bytes) : Option (Bytes × Bytes) :=
  match parseOsReleaseLine line with
  | some (some (key, value)) => (fieldOf key).map fun field => (field, value)
  | _ => none

/-- A line applied to the object. -/
def applyLine (osDist : Value) (line : Bytes) : Value :=
  match assignment line with
  | none => osDist
  | some (field, value) => osDist.setByKey field (.string value)

theorem parseLineIntoObject_eq (line : Bytes) (osDist : Value) :
    parseLineIntoObject line osDist = some (applyLine osDist line) := by
  obtain ⟨r, hr⟩ := parseOsReleaseLine_isSome line
  unfold parseLineIntoObject applyLine assignment
  rw [hr]
  cases r with
  | none => rfl
  | some kv =>
    cases hfield : fieldOf kv.1 <;> simp [hfield]

/-- The lines applied in their order. -/
def applyLines (osDist : Value) (lines : List Bytes) : Value := lines.foldl applyLine osDist

/-! ## The loop -/

theorem extractLines_eq {s : Bytes} (h : 0 ∉ s) (osDist : Value) (line : Bytes) :
    extractLines osDist line s = some (applyLines osDist (splitLines 10 line s).1, (splitLines 10 line s).2) := by
  induction s generalizing osDist line with
  | nil => rfl
  | cons c s ih =>
    rw [List.mem_cons, not_or] at h
    rw [extractLines, splitLines, if_neg (Ne.symm h.1)]
    split
    · rw [parseLineIntoObject_eq]
      exact ih h.2 _ _
    · exact ih h.2 _ _

/-- The lines that are looked at: up to the first that the buffer cannot hold with its newline, and of
that one as much as the buffer holds. -/
def seen : List Bytes → List Bytes
  | [] => []
  | l :: ls => if l.length < maxLineSize - 1 then l :: seen ls else [l.take (maxLineSize - 1)]

theorem seen_append {ls : List Bytes} (h : ∀ l ∈ ls, l.length < maxLineSize - 1) (ls' : List Bytes) :
    seen (ls ++ ls') = ls ++ seen ls' := by
  induction ls with
  | nil => rfl
  | cons l ls ih =>
    rw [List.cons_append, seen, if_pos (h l List.mem_cons_self), ih fun l hl => h l (List.mem_cons_of_mem _ hl)]
    rfl

/-- An open line that fills the buffer is all that is seen from there on. -/
theorem seen_full {r : Bytes} (h : 10 ∉ r) (hlen : r.length = maxLineSize - 1) (file : Bytes) :
    seen (linesOf 10 (r ++ file)) = [r] := by
  have hfirst : ∃ l ls, linesOf 10 (r ++ file) = l :: ls ∧ r <+: l := by
    unfold linesOf
    rw [splitLines_of_not_mem h, List.nil_append]
    obtain ⟨l, ls, heq, hpre⟩ | ⟨heq, hpre⟩ := splitLines_prefix r file
    · exact ⟨l, _, by rw [heq]; rfl, hpre⟩
    · refine ⟨_, [], ?_, hpre⟩
      rw [heq, if_neg]
      · rfl
      · intro hnil
        rw [hnil, List.prefix_nil] at hpre
        rw [hpre] at hlen
        cases hlen
  obtain ⟨l, ls, heq, t, rfl⟩ := hfirst
  rw [heq, seen, if_neg (by rw [List.length_append]; omega), ← hlen, List.take_left]

/-- What is read does not depend on how `read` splits the file. -/
theorem readLoop_eq (pieces : Nat → Nat) (i : Nat) {file bufferRest : Bytes} (hfile : 0 ∉ file)
    (hrest : 0 ∉ bufferRest) (hopen : 10 ∉ bufferRest) (hlen : bufferRest.length < maxLineSize) (osDist : Value) :
    readLoop (fun i => some (pieces i)) i file bufferRest osDist =
      some (applyLines osDist (seen (linesOf 10 (bufferRest ++ file)))) := by
  induction hn : file.length using Nat.strong_induction_on generalizing i file bufferRest osDist with
  | _ n ih =>
    subst hn
    rw [readLoop]
    dsimp only
    split
    · next hzero =>
      -- either the file or the room in the buffer is used up
      have hseen : seen (linesOf 10 (bufferRest ++ file)) = if bufferRest = [] then [] else [bufferRest] := by
        by_cases hfull : bufferRest.length = maxLineSize - 1
        · rw [seen_full hopen hfull, if_neg]
          rintro rfl
          cases hfull
        · have hnil : file = [] := by
            apply List.eq_nil_of_length_eq_zero
            simp only [maxLineSize] at hlen hfull hzero ⊢
            omega
          subst hnil
          have hlines : linesOf 10 (bufferRest ++ []) = if bufferRest = [] then [] else [bufferRest] := by
            unfold linesOf
            rw [splitLines_of_not_mem hopen]
            rfl
          rw [hlines]
          split
          · rfl
          · rw [seen, if_pos (by omega)]
            rfl
      rw [hseen]
      by_cases hnil : bufferRest = []
      · rw [if_neg (by simp [hnil]), if_pos hnil]
        rfl
      · rw [if_pos hnil, if_neg hnil, cstr_of_not_mem hrest, parseLineIntoObject_eq]
        rfl
    · next hzero =>
      generalize hk : min (pieces i + 1) (min (maxLineSize - bufferRest.length - 1) file.length) = k at hzero ⊢
      have hbuffer : (bufferRest ++ file.take k).length < maxLineSize := by
        rw [List.length_append, List.length_take]
        omega
      have hfree : 0 ∉ bufferRest ++ file.take k := by
        rw [List.mem_append, not_or]
        exact ⟨hrest, fun hmem => hfile (List.mem_of_mem_take hmem)⟩
      rw [if_pos hbuffer, extractLines_eq hfree]
      dsimp only
      obtain ⟨hlines, hlen'⟩ := @splitLines_length UInt8 _ 10 [] (bufferRest ++ file.take k)
      simp only [List.length_nil, Nat.zero_add] at hlines hlen'
      have hshort : ∀ l ∈ (splitLines 10 [] (bufferRest ++ file.take k)).1, l.length < maxLineSize - 1 := by
        intro l hl
        have := hlines l hl
        omega
      have hfree' : 0 ∉ (splitLines 10 [] (bufferRest ++ file.take k)).2 := by
        intro hmem
        obtain hmem | hmem := mem_open hmem
        · cases hmem
        · exact hfree hmem
      have hnext := ih (file.drop k).length (by rw [List.length_drop]; omega) (i + 1)
        (fun hmem => hfile (List.mem_of_mem_drop hmem)) hfree' (splitLines_open (by simp) _) (by omega)
        (applyLines osDist (splitLines 10 [] (bufferRest ++ file.take k)).1) rfl
      have hparts : bufferRest ++ file = (bufferRest ++ file.take k) ++ file.drop k := by
        rw [List.append_assoc, List.take_append_drop]
      rw [hnext, hparts, linesOf_append (bufferRest ++ file.take k), seen_append hshort, applyLines, applyLines, applyLines, List.foldl_append]

/-! ## Applying the same lines again -/

/-- The pairs of an object after some assignments. -/
def assignAll (pairs : List (Bytes × Value)) (as : List (Bytes × Bytes)) : List (Bytes × Value) :=
  as.foldl (fun pairs a => Value.insert a.1 (.string a.2) pairs) pairs

theorem applyLines_object (pairs : List (Bytes × Value)) (lines : List Bytes) :
    applyLines (.object pairs) lines = .object (assignAll pairs (lines.filterMap assignment)) := by
  induction lines generalizing pairs with
  | nil => rfl
  | cons l lines ih =>
    unfold applyLines at ih ⊢
    rw [List.foldl_cons, applyLine]
    cases h : assignment l with
    | none =>
      rw [List.filterMap_cons_none h]
      exact ih pairs
    | some a =>
      rw [List.filterMap_cons_some h]
      exact ih _

theorem mem_keys_assignAll {k : Bytes} {pairs : List (Bytes × Value)} (h : k ∈ pairs.map Prod.fst)
    (as : List (Bytes × Bytes)) : k ∈ (assignAll pairs as).map Prod.fst := by
  induction as generalizing pairs with
  | nil => exact h
  | cons a as ih => exact ih (Value.mem_keys_insert.mpr (Or.inr h))

theorem keys_assignAll {a : Bytes × Bytes} {as : List (Bytes × Bytes)} (ha : a ∈ as) (pairs : List (Bytes × Value)) :
    a.1 ∈ (assignAll pairs as).map Prod.fst := by
  induction as generalizing pairs with
  | nil => cases ha
  | cons b as ih =>
    obtain rfl | ha := List.mem_cons.mp ha
    · exact mem_keys_assignAll (Value.mem_keys_insert.mpr (Or.inl rfl)) as
    · exact ih ha _

/-- What is set in the end need not be set before, where all other keys are there already. -/
theorem insert_assignAll_insert (k : Bytes) (v : Value) {as : List (Bytes × Bytes)} {pairs : List (Bytes × Value)}
    (h : ∀ a ∈ as, a.1 ∈ pairs.map Prod.fst) :
    Value.insert k v (assignAll (Value.insert k v pairs) as) = Value.insert k v (assignAll pairs as) := by
  induction as generalizing pairs with
  | nil => exact Value.insert_insert_self k v v pairs
  | cons a as ih =>
    have ha := h a List.mem_cons_self
    have has : ∀ b ∈ as, b.1 ∈ (Value.insert a.1 (.string a.2) pairs).map Prod.fst := by
      intro b hb
      exact Value.mem_keys_insert.mpr (Or.inr (h b (List.mem_cons_of_mem a hb)))
    by_cases hk : a.1 = k
    · have hsame : Value.insert a.1 (.string a.2) (Value.insert k v pairs) = Value.insert a.1 (.string a.2) pairs := by
        rw [← hk]
        exact Value.insert_insert_self _ _ _ _
      simp only [assignAll, List.foldl_cons, hsame]
    · have hcomm := Value.insert_comm_of_mem (Ne.symm hk) ha v (.string a.2)
      simp only [assignAll, List.foldl_cons] at ih ⊢
      rw [hcomm]
      exact ih has

theorem assignAll_idem (pairs : List (Bytes × Value)) (as : List (Bytes × Bytes)) :
    assignAll (assignAll pairs as) as = assignAll pairs as := by
  induction as using List.reverseRecOn with
  | nil => rfl
  | append_singleton as a ih =>
    have hsplit : ∀ ps, assignAll ps (as ++ [a]) = Value.insert a.1 (.string a.2) (assignAll ps as) := by
      intro ps
      simp [assignAll]
    rw [hsplit, hsplit, insert_assignAll_insert a.1 (.string a.2) fun b hb => keys_assignAll hb pairs, ih]

theorem applyLines_idem (pairs : List (Bytes × Value)) (lines : List Bytes) :
    applyLines (applyLines (.object pairs) lines) lines = applyLines (.object pairs) lines := by
  rw [applyLines_object, applyLines_object, assignAll_idem]

/-! ## The whole file -/

/-- A line longer than the buffer counts at most for itself: as a whole, cut to the buffer, or not at
all. -/
def Counted (line : Bytes) (counted : Option Bytes) : Prop :=
  if line.length < maxLineSize - 1 then counted = some line
  else counted = none ∨ counted = some (line.take (maxLineSize - 1)) ∨ counted = some line

/-- The object is that of the lines of the file. -/
def Faithful (file : Bytes) (result : Value) : Prop :=
  ∃ counted, List.Forall₂ Counted (linesOf 10 file) counted ∧ result = applyLines (.object []) counted.reduceOption

/-- The lines behind the first one that is longer than the buffer. -/
def behindLong : List Bytes → List Bytes
  | [] => []
  | l :: ls => if l.length < maxLineSize - 1 then behindLong ls else ls

/-- The lines behind the first one that is longer than the buffer change nothing. -/
def Harmless (file : Bytes) : Prop :=
  ∃ counted, List.Forall₂ Counted (behindLong (linesOf 10 file)) counted ∧
    applyLines (applyLines (.object []) (seen (linesOf 10 file))) counted.reduceOption =
      applyLines (.object []) (seen (linesOf 10 file))

theorem lines_cases (ls : List Bytes) :
    (∀ l ∈ ls, l.length < maxLineSize - 1) ∧ seen ls = ls ∧ behindLong ls = [] ∨
      ∃ pre l post, ls = pre ++ l :: post ∧ (∀ l ∈ pre, l.length < maxLineSize - 1) ∧
        ¬ l.length < maxLineSize - 1 ∧ seen ls = pre ++ [l.take (maxLineSize - 1)] ∧ behindLong ls = post := by
  induction ls with
  | nil => exact Or.inl ⟨by simp, rfl, rfl⟩
  | cons l ls ih =>
    by_cases hl : l.length < maxLineSize - 1
    · obtain ⟨hall, hseen, hbehind⟩ | ⟨pre, l', post, rfl, hpre, hl', hseen, hbehind⟩ := ih
      · refine Or.inl ⟨List.forall_mem_cons.mpr ⟨hl, hall⟩, ?_, ?_⟩
        · rw [seen, if_pos hl, hseen]
        · rw [behindLong, if_pos hl, hbehind]
      · refine Or.inr ⟨l :: pre, l', post, rfl, List.forall_mem_cons.mpr ⟨hl, hpre⟩, hl', ?_, ?_⟩
        · rw [seen, if_pos hl, hseen]
          rfl
        · rw [behindLong, if_pos hl, hbehind]
    · refine Or.inr ⟨[], l, ls, rfl, by simp, hl, ?_, ?_⟩
      · rw [seen, if_neg hl]
        rfl
      · rw [behindLong, if_neg hl]

/-- Lines that fit count as they are. -/
theorem forall₂_counted_short {pre : List Bytes} (h : ∀ l ∈ pre, l.length < maxLineSize - 1) (counted : List (Option Bytes)) :
    List.Forall₂ Counted pre counted ↔ counted = pre.map some := by
  induction pre generalizing counted with
  | nil => simp
  | cons l pre ih =>
    obtain ⟨hl, hpre⟩ := List.forall_mem_cons.mp h
    rw [List.forall₂_cons_left_iff]
    constructor
    · rintro ⟨c, cs, hc, hcs, rfl⟩
      rw [Counted, if_pos hl] at hc
      rw [hc, (ih hpre cs).mp hcs]
      rfl
    · rintro rfl
      exact ⟨some l, pre.map some, by rw [Counted, if_pos hl], (ih hpre _).mpr rfl, rfl⟩

theorem reduceOption_map_some (pre : List Bytes) : (pre.map some).reduceOption = pre := by
  induction pre with
  | nil => rfl
  | cons l pre ih => rw [List.map_cons, List.reduceOption_cons_of_some, ih]

theorem applyLines_append (osDist : Value) (a b : List Bytes) :
    applyLines osDist (a ++ b) = applyLines (applyLines osDist a) b := by
  exact List.foldl_append

/-- The object is that of the whole file exactly if the lines behind the first long one change
nothing. -/
theorem faithful_iff (file : Bytes) : Faithful file (applyLines (.object []) (seen (linesOf 10 file))) ↔ Harmless file := by
  unfold Faithful Harmless
  obtain ⟨hall, hseen, hbehind⟩ | ⟨pre, l, post, hlines, hpre, hl, hseen, hbehind⟩ := lines_cases (linesOf 10 file)
  · rw [hseen, hbehind]
    constructor
    · intro _
      exact ⟨[], .nil, rfl⟩
    · intro _
      refine ⟨(linesOf 10 file).map some, (forall₂_counted_short hall _).mpr rfl, ?_⟩
      rw [reduceOption_map_some]
  · rw [hseen, hbehind, hlines]
    constructor
    · rintro ⟨counted, hcounted, heq⟩
      obtain ⟨cs, cs', hcs, hcs', rfl⟩ : ∃ cs cs', List.Forall₂ Counted pre cs ∧
          List.Forall₂ Counted (l :: post) cs' ∧ counted = cs ++ cs' := by
        have htake := List.forall₂_take pre.length hcounted
        have hdrop := List.forall₂_drop pre.length hcounted
        rw [List.take_left] at htake
        rw [List.drop_left] at hdrop
        exact ⟨_, _, htake, hdrop, (List.take_append_drop _ _).symm⟩
      obtain ⟨c, cs', -, hpost, rfl⟩ := List.forall₂_cons_left_iff.mp hcs'
      rw [(forall₂_counted_short hpre cs).mp hcs] at heq
      refine ⟨cs', hpost, ?_⟩
      have hsplit : (pre.map some ++ c :: cs').reduceOption = (pre ++ c.toList) ++ cs'.reduceOption := by
        cases c <;> simp [List.reduceOption_append, reduceOption_map_some]
      rw [heq, hsplit, applyLines_append, applyLines_object [] (pre ++ c.toList), applyLines_idem]
    · rintro ⟨cs, hcs, heq⟩
      refine ⟨pre.map some ++ some (l.take (maxLineSize - 1)) :: cs, ?_, ?_⟩
      · apply List.rel_append
        · exact (forall₂_counted_short hpre _).mpr rfl
        · exact .cons (by rw [Counted, if_neg hl]; exact Or.inr (Or.inl rfl)) hcs
      · have hsplit : (pre.map some ++ some (l.take (maxLineSize - 1)) :: cs).reduceOption =
            (pre ++ [l.take (maxLineSize - 1)]) ++ cs.reduceOption := by
          simp [List.reduceOption_append, reduceOption_map_some]
        rw [hsplit, applyLines_append _ (pre ++ [l.take (maxLineSize - 1)]), heq]

theorem getLinuxOsRelease_eq {file : Bytes} (hfile : 0 ∉ file) (pieces : Nat → Nat) :
    getLinuxOsRelease (fun i => some (pieces i)) file = some (applyLines (.object []) (seen (linesOf 10 file))) :=
  readLoop_eq pieces 0 hfile List.not_mem_nil List.not_mem_nil (by decide) (.object [])

/-- For every file without NUL and every way to split it, the reader ends within its buffers with the
object of the file's lines, exactly if what follows the first line longer than the buffer changes
nothing. -/
theorem os_release (file : Bytes) (hfile : 0 ∉ file) (pieces : Nat → Nat) :
    ∃ result, getLinuxOsRelease (fun i => some (pieces i)) file = some result ∧
      (Faithful file result ↔ Harmless file) := by
  exact ⟨_, getLinuxOsRelease_eq hfile pieces, faithful_iff file⟩

/-- `ID=a` and a newline, read byte by byte. -/
theorem os_release_id : (0 : UInt8) ∉ [73, 68, 61, 97, 10] ∧
    ∃ result, getLinuxOsRelease (fun _ => some 0) [73, 68, 61, 97, 10] = some result ∧
      (Faithful [73, 68, 61, 97, 10] result ↔ Harmless [73, 68, 61, 97, 10]) :=
  ⟨by decide, os_release [73, 68, 61, 97, 10] (by decide) fun _ => 0⟩

theorem assignment_eq_none {line : Bytes} (h : 61 ∉ line) : assignment line = none := by
  unfold assignment parseOsReleaseLine
  rw [if_neg h]

/-- A line `ID=a` behind one that fills the buffer and sets nothing. -/
theorem line_behind_full {x : Bytes} (hlen : x.length = maxLineSize - 1) (hnul : 0 ∉ x) (hopen : 10 ∉ x) (hset : 61 ∉ x)
    (pieces : Nat → Nat) :
    getLinuxOsRelease (fun i => some (pieces i)) (x ++ [10, 73, 68, 61, 97, 10]) = some (.object []) ∧
      ¬ Faithful (x ++ [10, 73, 68, 61, 97, 10]) (.object []) := by
  have hlines : linesOf 10 (x ++ [10, 73, 68, 61, 97, 10]) = [x, [73, 68, 61, 97]] := by
    unfold linesOf
    rw [splitLines_of_not_mem hopen]
    rfl
  have hidle := assignment_eq_none hset
  constructor
  · have hfree : 0 ∉ x ++ [10, 73, 68, 61, 97, 10] := by
      rw [List.mem_append, not_or]
      exact ⟨hnul, by decide⟩
    rw [getLinuxOsRelease_eq hfree, hlines, seen, if_neg (by omega), List.take_of_length_le (by omega),
      applyLines_object, List.filterMap_cons_none hidle]
    rfl
  · -- whatever the long line counts for, it sets nothing, and the line behind it sets the name
    rintro ⟨counted, hcounted, heq⟩
    rw [hlines] at hcounted
    obtain ⟨c, cs, hc, hcs, rfl⟩ := List.forall₂_cons_left_iff.mp hcounted
    obtain ⟨c', cs', hc', hnil, rfl⟩ := List.forall₂_cons_left_iff.mp hcs
    cases hnil
    rw [Counted, if_pos (by decide)] at hc'
    subst hc'
    rw [Counted, if_neg (by omega), List.take_of_length_le (by omega)] at hc
    have hnone : c.toList.filterMap assignment = [] := by
      obtain rfl | rfl | rfl := hc
      · rfl
      · exact List.filterMap_cons_none hidle
      · exact List.filterMap_cons_none hidle
    have hsplit : [c, some [73, 68, 61, 97]].reduceOption = c.toList ++ [[73, 68, 61, 97]] := by
      cases c <;> rfl
    rw [hsplit, applyLines_object, List.filterMap_append, hnone] at heq
    have hpairs := Value.object.inj heq
    cases hpairs

/-- Behind a line that fills the buffer the file is taken to be at its end: 255 characters, a newline
and `ID=a`. -/
theorem line_behind_long_lost :
    getLinuxOsRelease (fun _ => some 254) (List.replicate 255 120 ++ [10, 73, 68, 61, 97, 10]) = some (.object []) ∧
      ¬ Faithful (List.replicate 255 120 ++ [10, 73, 68, 61, 97, 10]) (.object []) := by
  have hne : ∀ c : UInt8, c ≠ 120 → c ∉ List.replicate 255 120 := by
    intro c hc hmem
    exact hc (List.eq_of_mem_replicate hmem)
  exact line_behind_full List.length_replicate (hne 0 (by decide)) (hne 10 (by decide)) (hne 61 (by decide)) fun _ => 254

end SentryNative.Os
