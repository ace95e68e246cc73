import Mathlib.Data.Nat.Digits.Lemmas
import SentryNative.Retry.CacheFile

/-!
# Names of cached attachments

`sentry_database.c`: the attachments of a cached envelope are stored next to it, under names that
are made from the event id and from the attachment's filename. `sentry_path.c` numbers a name that
is taken.

* `strrchr_candidate`: numbering a name keeps its extension;
* `extension_of_parse`: only names with the envelope extension are read as cached envelopes;
* `sibling_names`: what holds of every name that is chosen.
-/

namespace SentryNative.Retry

open CLib

/-- The bytes that `sanitize_basename` keeps. -/
def isKept (c : UInt8) : Bool :=
  (65 ≤ c && c ≤ 90) || (97 ≤ c && c ≤ 122) || (48 ≤ c && c ≤ 57) || c == 46 || c == 95 || c == 45

/-- `attachment` -/
def defaultBasename : Bytes := [97, 116, 116, 97, 99, 104, 109, 101, 110, 116]

/-- `sanitize_basename`, into a buffer that is not empty. -/
def sanitizeBasename (src : Option Bytes) (outSize : Nat) : Bytes :=
  let out := match src with
    | none => []
    | some src => (((cstr src).dropWhile (· = 46)).take (outSize - 1)).map fun c => if isKept c then c else 95
  if out = [] then defaultBasename.take (outSize - 1) else out

/-- The stem and the extension in `sentry__path_unique`. -/
def splitExt (basename : Bytes) : Bytes × Bytes :=
  match strrchr 46 basename with
  | none => (basename, [])
  | some dot => if dot = basename then (basename, []) else (basename.take (basename.length - dot.length), dot)

/-- The name with the number `n`, as printed into a buffer of 512 bytes. -/
def candidate (basename : Bytes) (n : Nat) : Bytes :=
  if n = 0 then basename.take 511
  else ((splitExt basename).1 ++ 45 :: (printNat n ++ (splitExt basename).2)).take 511

/-- The loop of `sentry__path_unique`. -/
def firstFree (isFile : Bytes → Bool) (basename : Bytes) : Nat → Nat → Option Bytes
  | 0, _ => none
  | fuel + 1, n =>
    if isFile (candidate basename n) then firstFree isFile basename fuel (n + 1) else some (candidate basename n)

/-- `sentry__path_unique` in a directory that is there. -/
def pathUnique (isFile : Bytes → Bool) (basename : Bytes) : Option Bytes :=
  if basename = [] then none else firstFree isFile basename 10000 0

/-- `event.minidump` -/
def minidumpType : Bytes := [101, 118, 101, 110, 116, 46, 109, 105, 110, 105, 100, 117, 109, 112]

/-- What `build_sibling_path` has in its buffer. -/
def siblingBasename (uuid : Bytes) (type filename : Option Bytes) : Bytes :=
  if type = some minidumpType then uuid ++ [46, 100, 109, 112]
  else uuid ++ 45 :: sanitizeBasename filename (256 - 37)

/-- `build_sibling_path` -/
def buildSiblingPath (isFile : Bytes → Bool) (uuid : Bytes) (type filename : Option Bytes) : Option Bytes :=
  pathUnique isFile (siblingBasename uuid type filename)

/-- `sentry__path_ends_with` -/
def pathEndsWith (path suffix : Bytes) : Bool := suffix.length ≤ path.length ∧ path.drop (path.length - suffix.length) = suffix

/-- The files of a directory that `sentry__cleanup_cache` collects as envelopes; the flag says
whether an entry is a directory. -/
def cacheEntries (dir : Bytes) (names : List (Bytes × Bool)) : List Bytes :=
  (names.filter fun e => !e.2 && pathEndsWith (dir ++ 47 :: e.1) extension).map (·.1)

/-! ## Extensions -/

/-- A name ends with the envelope extension when that starts at its last dot. -/
theorem extension_suffix_iff (s : Bytes) : extension <:+ s ↔ strrchr 46 s = some extension := by
  constructor
  · rintro ⟨p, rfl⟩
    exact strrchr_append (by decide) p
  · intro h
    obtain ⟨hnone, -⟩ | ⟨p, t, rfl, -, hsome⟩ := strrchr_cases 46 s
    · rw [hnone] at h
      cases h
    · rw [hsome, Option.some.injEq] at h
      exact ⟨p, by rw [h]⟩

theorem pathEndsWith_iff (path suffix : Bytes) : pathEndsWith path suffix = true ↔ suffix <:+ path := by
  unfold pathEndsWith
  rw [decide_eq_true_eq]
  constructor
  · rintro ⟨-, hdrop⟩
    rw [← hdrop]
    exact List.drop_suffix _ _
  · intro h
    exact ⟨h.length_le, (List.suffix_iff_eq_drop.1 h).symm⟩

section

variable {basename : Bytes} {n : Nat}

/-- A name that does not start with a dot is its stem and its extension. -/
theorem splitExt_spec (h : basename.head? ≠ some 46) :
    (splitExt basename).1 ++ (splitExt basename).2 = basename ∧
      (46 ∉ basename ∧ (splitExt basename).2 = [] ∨
        ∃ t, 46 ∉ t ∧ (splitExt basename).2 = 46 :: t) := by
  unfold splitExt
  obtain ⟨hnone, hnot⟩ | ⟨p, t, rfl, ht, hsome⟩ := strrchr_cases 46 basename
  · rw [hnone]
    exact ⟨List.append_nil _, Or.inl ⟨hnot, rfl⟩⟩
  · rw [hsome]
    have hne : 46 :: t ≠ p ++ 46 :: t := by
      intro heq
      rw [← heq] at h
      exact h rfl
    dsimp only
    rw [if_neg hne, List.length_append, Nat.add_sub_cancel, List.take_left]
    exact ⟨rfl, Or.inr ⟨t, ht, rfl⟩⟩

theorem printNat_length (h : n < 10000) : (printNat n).length ≤ 4 := by
  unfold printNat
  split
  · exact Nat.le_of_ble_eq_true rfl
  · rw [List.length_map, List.length_reverse]
    exact (Nat.digits_length_le_iff (by decide) n).2 (Nat.lt_of_lt_of_eq h (by decide))

/-- What a number adds to a name. -/
def suffixLength (n : Nat) : Nat := if n = 0 then 0 else 1 + (printNat n).length

theorem candidate_eq (h : basename.head? ≠ some 46) (hlen : basename.length ≤ 255) (hn : n < 10000) :
    candidate basename n =
      if n = 0 then basename else (splitExt basename).1 ++ 45 :: (printNat n ++ (splitExt basename).2) := by
  have hparts := congrArg List.length (splitExt_spec h).1
  have hdigits := printNat_length hn
  rw [List.length_append] at hparts
  unfold candidate
  split
  · exact List.take_of_length_le (by omega)
  · apply List.take_of_length_le
    simp only [List.length_append, List.length_cons]
    omega

theorem candidate_length (h : basename.head? ≠ some 46) (hlen : basename.length ≤ 255) (hn : n < 10000) :
    (candidate basename n).length = basename.length + suffixLength n := by
  have hparts := congrArg List.length (splitExt_spec h).1
  rw [List.length_append] at hparts
  rw [candidate_eq h hlen hn]
  unfold suffixLength
  split
  · rfl
  · simp only [List.length_append, List.length_cons]
    omega

/-- A number leaves the extension. -/
theorem strrchr_candidate (h : basename.head? ≠ some 46) (hlen : basename.length ≤ 255) (hn : n < 10000) :
    strrchr 46 (candidate basename n) = strrchr 46 basename := by
  rw [candidate_eq h hlen hn]
  split
  · rfl
  · obtain ⟨hparts, ⟨hnot, hext⟩ | ⟨t, ht, hext⟩⟩ := splitExt_spec h
    · have hdigits : ∀ c ∈ printNat n, c ≠ 46 := by
        rintro c hc rfl
        exact absurd (isDigit_of_mem_printNat hc) (by decide)
      rw [hext, List.append_nil] at hparts ⊢
      rw [hparts]
      have hno : 46 ∉ basename ++ 45 :: printNat n := by
        simp only [List.mem_append, List.mem_cons, not_or]
        exact ⟨hnot, by decide, fun hc => hdigits 46 hc rfl⟩
      obtain ⟨hnone, -⟩ | ⟨p, t, heq, -, -⟩ := strrchr_cases 46 (basename ++ 45 :: printNat n)
      · obtain ⟨hnone', -⟩ | ⟨p, t, heq, -, -⟩ := strrchr_cases 46 basename
        · rw [hnone, hnone']
        · exact absurd (by rw [heq]; simp) hnot
      · exact absurd (by rw [heq]; simp) hno
    · conv_rhs => rw [← hparts]
      rw [hext]
      have happ : (splitExt basename).1 ++ 45 :: (printNat n ++ 46 :: t) =
          ((splitExt basename).1 ++ 45 :: printNat n) ++ 46 :: t := by simp
      rw [happ, strrchr_append ht, strrchr_append ht]

end

/-! ## Recognisers -/

theorem scanInteger_suffix {s rest : Bytes} {neg : Bool} {v : Nat} (h : scanInteger s = some (neg, v, rest)) :
    rest <:+ s := by
  have hspace : s.dropWhile isSpace <:+ s := List.dropWhile_suffix _
  have hdigits : ∀ body : Bytes, body <:+ s → body.dropWhile isDigit <:+ s :=
    fun body hbody => (List.dropWhile_suffix _).trans hbody
  unfold scanInteger at h
  dsimp only at h
  split at h
  all_goals
    split at h
    · cases h
    · rename_i hbody _
      cases h
      apply hdigits
      first
        | exact hspace
        | rw [hbody] at hspace
          exact (List.suffix_cons _ _).trans hspace

theorem strtoull_suffix (s : Bytes) : (strtoull s).rest <:+ s := by
  unfold strtoull
  cases hscan : scanInteger s with
  | none => exact List.suffix_rfl
  | some r =>
    obtain ⟨neg, v, rest⟩ := r
    have hrest := scanInteger_suffix hscan
    dsimp only
    split
    · exact hrest
    · split <;> exact hrest

theorem strtoll_suffix (s : Bytes) : (strtoll s).rest <:+ s := by
  unfold strtoll
  cases hscan : scanInteger s with
  | none => exact List.suffix_rfl
  | some r =>
    obtain ⟨neg, v, rest⟩ := r
    have hrest := scanInteger_suffix hscan
    obtain ⟨x, hx⟩ : ∃ x : Int, (if neg then -(v : Int) else v) = x := ⟨_, rfl⟩
    dsimp only
    rw [hx]
    split
    · exact hrest
    · split <;> exact hrest

/-- What is read as a cached envelope has its extension. -/
theorem extension_of_parse {name : Bytes} (h : parseCacheFilename name ≠ none) : extension <:+ name := by
  unfold parseCacheFilename at h
  split at h
  · rename_i hbare
    rw [← hbare.2]
    exact List.drop_suffix _ _
  · split at h
    · exact absurd rfl h
    · dsimp only at h
      split at h
      · rename_i countStr hts
        split at h
        · rename_i uuid hcount
          split at h
          · exact absurd rfl h
          · rename_i hgood
            simp only [not_or, not_not] at hgood
            have huuid : uuid <:+ countStr := by
              have hrest := strtoll_suffix countStr
              rw [hcount] at hrest
              exact (List.suffix_cons _ _).trans hrest
            have hstr : countStr <:+ name := by
              have hrest := strtoull_suffix name
              rw [hts] at hrest
              exact (List.suffix_cons _ _).trans hrest
            have hdrop : extension <:+ uuid := by
              rw [← hgood.2.2]
              exact List.drop_suffix _ _
            exact (hdrop.trans huuid).trans hstr
        · exact absurd rfl h
      · exact absurd rfl h

/-! ## The basename -/

theorem sanitizeBasename_spec (filename : Option Bytes) :
    sanitizeBasename filename (256 - 37) ≠ [] ∧ (∀ c ∈ sanitizeBasename filename (256 - 37), isKept c = true) ∧
      (sanitizeBasename filename (256 - 37)).length ≤ 218 := by
  cases filename with
  | none => exact ⟨by decide, by decide +kernel, by decide⟩
  | some src =>
    unfold sanitizeBasename
    dsimp only
    split
    · exact ⟨by decide, by decide +kernel, by decide⟩
    · rename_i hne
      refine ⟨hne, ?_, ?_⟩
      · intro c hc
        obtain ⟨d, -, rfl⟩ := List.mem_map.1 hc
        split
        · assumption
        · decide
      · rw [List.length_map, List.length_take]
        exact Nat.min_le_left _ _

theorem isKept_hexDigit {n : Nat} (h : n < 16) : isKept (hexDigit n) = true ∧ hexDigit n ≠ 46 := by
  have hall : ∀ n < 16, isKept (hexDigit n) = true ∧ hexDigit n ≠ 46 := by decide
  exact hall n h

theorem isKept_digit {c : UInt8} (h : isDigit c = true) : isKept c = true := by
  unfold isDigit at h
  unfold isKept
  simp [h]

theorem asString_kept (u : Uuid) : ∀ c ∈ u.asString, isKept c = true ∧ c ≠ 46 := by
  have hbyte : ∀ b : UInt8, ∀ c ∈ hexByte b, isKept c = true ∧ c ≠ 46 := by
    intro b c hc
    obtain rfl | hc := List.mem_cons.1 hc
    · exact isKept_hexDigit (hi_lt b)
    · rw [List.mem_singleton.1 hc]
      exact isKept_hexDigit (lo_lt b)
  have hdash : isKept 45 = true ∧ (45 : UInt8) ≠ 46 := by decide
  intro c hc
  simp only [Uuid.asString, List.mem_append, List.mem_cons] at hc
  grind

/-- A basename: the id, then a dash and a part that is kept, or the minidump extension. -/
theorem siblingBasename_cases (u : Uuid) (type filename : Option Bytes) :
    siblingBasename u.asString type filename = u.asString ++ [46, 100, 109, 112] ∨
      ∃ x, x ≠ [] ∧ (∀ c ∈ x, isKept c = true) ∧ x.length ≤ 218 ∧
        siblingBasename u.asString type filename = u.asString ++ 45 :: x := by
  unfold siblingBasename
  split
  · exact Or.inl rfl
  · obtain ⟨hne, hkept, hlen⟩ := sanitizeBasename_spec filename
    exact Or.inr ⟨_, hne, hkept, hlen, rfl⟩

theorem siblingBasename_spec (u : Uuid) (type filename : Option Bytes) :
    (siblingBasename u.asString type filename).head? ≠ some 46 ∧
      (siblingBasename u.asString type filename).length ≤ 255 ∧
      ∀ c ∈ siblingBasename u.asString type filename, isKept c = true := by
  have hkept := asString_kept u
  obtain ⟨d, t, hu⟩ : ∃ d t, u.asString = d :: t := ⟨_, _, rfl⟩
  have hhead : d ≠ 46 := (hkept d (by rw [hu]; exact List.mem_cons_self)).2
  obtain hdump | ⟨x, -, hx, hlen, hname⟩ := siblingBasename_cases u type filename
  · rw [hdump]
    refine ⟨?_, by simp, ?_⟩
    · rw [hu]
      simpa using hhead
    · intro c hc
      obtain hc | hc := List.mem_append.1 hc
      · exact (hkept c hc).1
      · have hall : ∀ c ∈ ([46, 100, 109, 112] : Bytes), isKept c = true := by decide +kernel
        exact hall c hc
  · rw [hname]
    refine ⟨?_, by simp; omega, ?_⟩
    · rw [hu]
      simpa using hhead
    · intro c hc
      obtain hc | hc := List.mem_append.1 hc
      · exact (hkept c hc).1
      · obtain rfl | hc := List.mem_cons.1 hc
        · decide
        · exact hx c hc

theorem candidate_kept {basename : Bytes} {n : Nat} (h : basename.head? ≠ some 46)
    (hkept : ∀ c ∈ basename, isKept c = true) : ∀ c ∈ candidate basename n, isKept c = true := by
  obtain ⟨hparts, -⟩ := splitExt_spec h
  intro c hc
  unfold candidate at hc
  split at hc
  · exact hkept c (List.mem_of_mem_take hc)
  · have hmem := List.mem_of_mem_take hc
    simp only [List.mem_append, List.mem_cons] at hmem
    obtain hstem | rfl | hdigit | hext := hmem
    · exact hkept c (hparts ▸ List.mem_append_left _ hstem)
    · decide
    · exact isKept_digit (isDigit_of_mem_printNat hdigit)
    · exact hkept c (hparts ▸ List.mem_append_right _ hext)

/-- The id has no dot, so it is part of the stem. -/
theorem stem_of_sibling (u : Uuid) (type filename : Option Bytes) :
    ∃ x, (splitExt (siblingBasename u.asString type filename)).1 = u.asString ++ x ∧ (x = [] ∨ ∃ y, x = 45 :: y) := by
  have hdot : ∀ a r : Bytes, a ≠ [] → a <:+ u.asString → (a ++ r).head? ≠ some 46 := by
    intro a r ha hsuf hhead
    obtain ⟨d, a, rfl⟩ := List.exists_cons_of_ne_nil ha
    rw [List.cons_append, List.head?_cons, Option.some.injEq] at hhead
    exact (asString_kept u d (hsuf.subset List.mem_cons_self)).2 hhead
  obtain ⟨hhead, -, -⟩ := siblingBasename_spec u type filename
  obtain ⟨hparts, hext⟩ := splitExt_spec hhead
  obtain ⟨r, hname, hr⟩ : ∃ r, siblingBasename u.asString type filename = u.asString ++ r ∧
      ((∃ y, r = 45 :: y) ∨ r = [46, 100, 109, 112]) := by
    obtain hdump | ⟨x, -, -, -, hname⟩ := siblingBasename_cases u type filename
    · exact ⟨_, hdump, Or.inr rfl⟩
    · exact ⟨_, hname, Or.inl ⟨x, rfl⟩⟩
  rw [hname] at hparts
  obtain ⟨a, hu, hext'⟩ | ⟨c, hstem, hr'⟩ := List.append_eq_append_iff.1 hparts
  · -- the stem would end inside of the id
    by_cases ha : a = []
    · rw [ha, List.append_nil] at hu
      exact ⟨[], by rw [List.append_nil, hname]; exact hu.symm, Or.inl rfl⟩
    · obtain ⟨-, hnil⟩ | ⟨t, -, hdotted⟩ := hext
      · rw [hname, hext'] at hnil
        exact absurd (List.append_eq_nil_iff.1 hnil).1 ha
      · rw [hname, hext'] at hdotted
        exact absurd (by rw [hdotted]; rfl) (hdot a r ha ⟨_, hu.symm⟩)
  · refine ⟨c, by rw [hname]; exact hstem, ?_⟩
    cases c with
    | nil => exact Or.inl rfl
    | cons d c =>
      obtain ⟨y, rfl⟩ | rfl := hr
      · rw [List.cons_append, List.cons.injEq] at hr'
        exact Or.inr ⟨c, by rw [hr'.1]⟩
      · rw [List.cons_append, List.cons.injEq] at hr'
        have hsuf : (splitExt (u.asString ++ [46, 100, 109, 112])).2 <:+ [100, 109, 112] := ⟨c, hr'.2.symm⟩
        obtain ⟨hnot, -⟩ | ⟨t, -, hdotted⟩ := hext
        · exact absurd (by rw [hname]; simp) hnot
        · rw [hname] at hdotted
          rw [hdotted] at hsuf
          exact absurd (hsuf.subset List.mem_cons_self) (by decide)

/-- Every candidate is the id and a rest that makes it a sibling. -/
theorem candidate_sibling (u : Uuid) (type filename : Option Bytes) {n : Nat} (hn : n < 10000) :
    ∃ rest, candidate (siblingBasename u.asString type filename) n = u.asString ++ rest ∧
      ((∃ x, rest = 45 :: x) ∨ rest = [46, 100, 109, 112]) := by
  obtain ⟨hhead, hlen, -⟩ := siblingBasename_spec u type filename
  rw [candidate_eq hhead hlen hn]
  obtain ⟨hparts, hext⟩ := splitExt_spec hhead
  by_cases hzero : n = 0
  · rw [if_pos hzero]
    obtain hdump | ⟨x, -, -, -, hname⟩ := siblingBasename_cases u type filename
    · exact ⟨_, hdump, Or.inr rfl⟩
    · exact ⟨_, hname, Or.inl ⟨x, rfl⟩⟩
  · rw [if_neg hzero]
    obtain ⟨x, hx, hrest⟩ := stem_of_sibling u type filename
    rw [hx]
    obtain rfl | ⟨y, rfl⟩ := hrest
    · exact ⟨_, by rw [List.append_nil], Or.inl ⟨_, rfl⟩⟩
    · exact ⟨_, List.append_assoc .., Or.inl ⟨_, rfl⟩⟩

/-! ## The chosen name -/

/-- The number whose candidate is chosen: all before it are taken. -/
def Chosen (isFile : Bytes → Bool) (basename : Bytes) (n : Nat) : Prop :=
  n < 10000 ∧ (∀ k < n, isFile (candidate basename k) = true) ∧ isFile (candidate basename n) = false

theorem firstFree_chosen {isFile : Bytes → Bool} {basename name : Bytes} {fuel n : Nat} (hfuel : n + fuel = 10000)
    (htaken : ∀ k < n, isFile (candidate basename k) = true) (h : firstFree isFile basename fuel n = some name) :
    ∃ k, Chosen isFile basename k ∧ name = candidate basename k := by
  induction fuel generalizing n with
  | zero => cases h
  | succ fuel ih =>
    rw [firstFree] at h
    split at h
    · rename_i hfile
      apply ih (n := n + 1) (by omega) ?_ h
      intro k hk
      by_cases heq : k = n
      · rw [heq]
        exact hfile
      · exact htaken k (by omega)
    · rename_i hfree
      cases h
      exact ⟨n, ⟨by omega, htaken, by simpa using hfree⟩, rfl⟩

theorem Chosen.unique {isFile : Bytes → Bool} {basename : Bytes} {m n : Nat} (hm : Chosen isFile basename m)
    (hn : Chosen isFile basename n) : m = n := by
  obtain hlt | heq | hgt := Nat.lt_trichotomy m n
  · exact absurd (hn.2.1 m hlt) (by simp [hm.2.2])
  · exact heq
  · exact absurd (hm.2.1 n hgt) (by simp [hn.2.2])

theorem cacheEntries_mem {dir name : Bytes} (hlen : extension.length ≤ name.length) (names : List (Bytes × Bool))
    (hmem : (name, false) ∈ names) : name ∈ cacheEntries dir names ↔ extension <:+ name := by
  have hpath : ∀ name : Bytes, extension.length ≤ name.length →
      (pathEndsWith (dir ++ 47 :: name) extension = true ↔ extension <:+ name) := by
    intro name hlen
    rw [pathEndsWith_iff]
    have hname : name <:+ dir ++ 47 :: name := ⟨dir ++ [47], by simp⟩
    exact ⟨fun h => List.suffix_of_suffix_length_le h hname hlen, fun h => h.trans hname⟩
  unfold cacheEntries
  rw [List.mem_map]
  constructor
  · rintro ⟨e, he, rfl⟩
    obtain ⟨-, hends⟩ := List.mem_filter.1 he
    rw [Bool.and_eq_true] at hends
    exact (hpath e.1 hlen).1 hends.2
  · intro h
    exact ⟨(name, false), List.mem_filter.2 ⟨hmem, by simpa using (hpath name hlen).2 h⟩, rfl⟩

/-- Every name that is chosen is a component of safe bytes, new, and a sibling of its event only.
It is short enough and not taken for an envelope exactly when the filename, sanitised and cut, does
not have the envelope extension and leaves room for the number. -/
theorem sibling_names (u : Uuid) (type filename : Option Bytes) (isFile : Bytes → Bool) {name : Bytes}
    (h : buildSiblingPath isFile u.asString type filename = some name) :
    (name ≠ [] ∧ ∀ c ∈ name, isKept c = true) ∧ isFile name = false ∧
      isCacheSibling name u.asString = true ∧
      (∀ v : Uuid, isCacheSibling name v.asString = true → v.asString = u.asString) ∧
      (siblingBasename u.asString type filename).length ≤ 255 ∧
      ((name.length ≤ 255 ∧ parseCacheFilename name = none ∧
          ∀ dir names, (name, false) ∈ names → name ∉ cacheEntries dir names) ↔
        ¬extension <:+ siblingBasename u.asString type filename ∧
          ∀ n, Chosen isFile (siblingBasename u.asString type filename) n →
            (siblingBasename u.asString type filename).length + suffixLength n ≤ 255) := by
  obtain ⟨hhead, hlen, hkept⟩ := siblingBasename_spec u type filename
  obtain ⟨n, hchosen, rfl⟩ : ∃ n, Chosen isFile (siblingBasename u.asString type filename) n ∧
      name = candidate (siblingBasename u.asString type filename) n := by
    unfold buildSiblingPath pathUnique at h
    split at h
    · cases h
    · exact firstFree_chosen rfl (by simp) h
  obtain ⟨rest, hname, hrest⟩ := candidate_sibling u type filename hchosen.1
  have hlength := candidate_length hhead hlen hchosen.1
  have htake : (candidate (siblingBasename u.asString type filename) n).take 36 = u.asString := by
    rw [hname]
    exact List.take_left' (asString_length u)
  have hfull : ∀ v : Uuid, v.asString.take 36 = v.asString := fun v => List.take_of_length_le (by simp)
  have hext : extension <:+ candidate (siblingBasename u.asString type filename) n ↔
      extension <:+ siblingBasename u.asString type filename := by
    rw [extension_suffix_iff, extension_suffix_iff, strrchr_candidate hhead hlen hchosen.1]
  have hlong : extension.length ≤ (candidate (siblingBasename u.asString type filename) n).length := by
    rw [hname, List.length_append, asString_length]
    exact Nat.le_trans (by decide) (Nat.le_add_right 36 _)
  refine ⟨⟨?_, candidate_kept hhead hkept⟩, hchosen.2.2, ?_, ?_, hlen, ?_, ?_⟩
  · rw [hname]
    exact List.append_ne_nil_of_left_ne_nil (List.ne_nil_of_length_eq_add_one (asString_length u)) _
  · have hthirtysix : (candidate (siblingBasename u.asString type filename) n)[36]? = rest.head? := by
      rw [hname, List.getElem?_append_right (by simp), asString_length, List.head?_eq_getElem?]
    have hdrop : (candidate (siblingBasename u.asString type filename) n).drop 36 = rest := by
      rw [hname]
      exact List.drop_left' (asString_length u)
    unfold isCacheSibling
    rw [htake, hfull, hthirtysix, hdrop, decide_eq_true_eq]
    refine ⟨rfl, ?_⟩
    obtain ⟨x, rfl⟩ | rfl := hrest
    · exact Or.inl rfl
    · exact Or.inr ⟨rfl, by decide⟩
  · intro v hv
    unfold isCacheSibling at hv
    rw [decide_eq_true_eq, htake, hfull] at hv
    exact hv.1.symm
  · rintro ⟨hshort, -, hnot⟩
    refine ⟨?_, ?_⟩
    · intro hbad
      exact hnot [] [(_, false)] List.mem_cons_self
        ((cacheEntries_mem hlong _ List.mem_cons_self).2 (hext.2 hbad))
    · intro m hm
      rw [hm.unique hchosen]
      omega
  · rintro ⟨hgood, hroom⟩
    refine ⟨?_, ?_, ?_⟩
    · rw [hlength]
      exact hroom n hchosen
    · by_contra hparsed
      exact hgood (hext.1 (extension_of_parse hparsed))
    · intro dir names hmem hin
      exact hgood (hext.1 ((cacheEntries_mem hlong names hmem).1 hin))

/-- An attachment without a filename, in an empty cache. -/
theorem sibling_names_default :
    buildSiblingPath (fun _ => false) (Uuid.asString fun _ => 0x12) none none =
        some (Uuid.asString (fun _ => 0x12) ++ 45 :: defaultBasename) ∧
      isCacheSibling (Uuid.asString (fun _ => 0x12) ++ 45 :: defaultBasename) (Uuid.asString fun _ => 0x12) = true := by
  have hname : buildSiblingPath (fun _ => false) (Uuid.asString fun _ => 0x12) none none =
      some (Uuid.asString (fun _ => 0x12) ++ 45 :: defaultBasename) := by decide +kernel
  exact ⟨hname, (sibling_names (fun _ => 0x12) none none (fun _ => false) hname).2.2.1⟩

/-- The file `abcdefghijklm.envelope` of an event whose id starts with two decimal numbers: its
name is collected as an envelope, and read as one that is queued for a retry. -/
theorem envelope_extension_mistaken :
    ∃ name, buildSiblingPath (fun _ => false) (Uuid.asString fun _ => 0x12) none
        (some ([97, 98, 99, 100, 101, 102, 103, 104, 105, 106, 107, 108, 109] ++ extension)) = some name ∧
      name ∈ cacheEntries [99] [(name, false)] ∧ parseCacheFilename name ≠ none := by
  refine ⟨Uuid.asString (fun _ => 0x12) ++ 45 ::
    ([97, 98, 99, 100, 101, 102, 103, 104, 105, 106, 107, 108, 109] ++ extension), ?_, ?_, ?_⟩
  · decide +kernel
  · decide +kernel
  · decide +kernel

end SentryNative.Retry
