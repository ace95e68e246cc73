import Mathlib.Data.List.DropRight
import SentryNative.Lib.Scan

/-!
# DSNs

`sentry__url_parse`, `sentry__dsn_new_n` and the URLs made of a DSN, in `sentry_utils.c`.
Every allocation succeeds. A missing string is none, which is not the empty one.
-/

namespace SentryNative.Utils

open CLib

/-- `sentry_url_t`. -/
structure Url where
  scheme : Bytes
  host : Bytes
  port : Int
  path : Option Bytes
  query : Option Bytes
  fragment : Option Bytes
  username : Option Bytes
  password : Option Bytes
  deriving DecidableEq, Repr

def isAlpha (c : UInt8) : Bool := (65 ≤ c && c ≤ 90) || (97 ≤ c && c ≤ 122)

/-- `is_scheme_valid`. -/
def isSchemeValid (s : Bytes) : Bool := s.all fun c => isAlpha c || c == 43 || c == 45 || c == 46

/-- `sentry__string_ascii_lower`. -/
def asciiLower (s : Bytes) : Bytes := s.map fun c => if 65 ≤ c && c ≤ 90 then c + 32 else c

/-- `SKIP_WHILE_NOT` and `SKIP_WHILE_NOT2`: what is skipped, and the rest. -/
def skipWhileNot (stops : List UInt8) (s : Bytes) : Bytes × Bytes :=
  (s.takeWhile (· ∉ stops), s.dropWhile (· ∉ stops))

/-- An `@` comes before the first `/`. -/
def hasUsername (s : Bytes) : Bool := (skipWhileNot [64, 47] s).2.head? == some 64

/-- The username, the password and what is behind the `@`. -/
def urlAuth (s : Bytes) : Option (Option Bytes × Option Bytes × Bytes) :=
  if hasUsername s then
    let (username, rest) := skipWhileNot [64, 58] s
    match rest with
    | 58 :: t =>
      let (password, rest) := skipWhileNot [64] t
      match rest with
      | 64 :: rest => some (some username, some password, rest)
      | _ => none
    | 64 :: rest => some (some username, none, rest)
    | _ => none
  else some (none, none, s)

/-- The host, in brackets or up to a `:` or `/`. -/
def urlHost : Bytes → Bytes × Bytes
  | 91 :: s =>
    let (inner, rest) := skipWhileNot [93] s
    match rest with
    | 93 :: rest => (91 :: inner ++ [93], rest)
    | rest => (91 :: inner, rest)
  | s => skipWhileNot [58, 47] s

/-- `(int)` of a `long`. -/
def toInt32 (i : Int) : Int := i.bmod (2 ^ 32)

/-- The port, 0 where there is none. -/
def urlPort : Bytes → Option (Int × Bytes)
  | 58 :: s =>
    let (text, rest) := skipWhileNot [47] s
    let r := strtoll text
    if r.rest = [] then some (toInt32 r.value, rest) else none
  | s => some (0, s)

def https : Bytes := [104, 116, 116, 112, 115]
def http : Bytes := [104, 116, 116, 112]

def defaultPort (scheme : Bytes) (port : Int) : Int :=
  if port = 0 then if scheme = https then 443 else if scheme = http then 80 else 0 else port

def urlQuery : Bytes → Option Bytes × Bytes
  | 63 :: s => (some (skipWhileNot [35] s).1, (skipWhileNot [35] s).2)
  | s => (none, s)

def urlFragment : Bytes → Option Bytes
  | 35 :: s => some s
  | _ => none

/-- What is behind the scheme and its trailer. -/
def urlNetloc (requiresPath : Bool) (scheme s : Bytes) : Option Url := do
  let (username, password, s) ← urlAuth s
  let (host, s) := urlHost s
  let (port, s) ← urlPort s
  let url : Url := ⟨scheme, host, defaultPort scheme port, none, none, none, username, password⟩
  if s = [] then if requiresPath then none else some url
  else if s.head? = some 47 then
    let (path, s) := skipWhileNot [35, 63] s
    let (query, s) := urlQuery s
    some { url with path := some path, query, fragment := urlFragment s }
  else none

/-- `sentry__url_parse`. -/
def urlParse (url : Bytes) (requiresPath : Bool) : Option Url :=
  let (scheme, rest) := skipWhileNot [58] url
  match rest with
  | 58 :: rest =>
    if isSchemeValid scheme then
      match rest with
      | 47 :: 47 :: rest => urlNetloc requiresPath (asciiLower scheme) rest
      | _ => none
    else none
  | _ => none

/-- `sentry_dsn_t`. -/
structure Dsn where
  raw : Bytes
  isValid : Bool
  isSecure : Bool
  host : Option Bytes
  orgId : Option Bytes
  publicKey : Option Bytes
  secretKey : Option Bytes
  port : Int
  path : Option Bytes
  projectId : Option Bytes
  deriving DecidableEq, Repr

/-- The DSN before anything is known of it. -/
def Dsn.unset (raw : Bytes) : Dsn := ⟨raw, false, false, none, none, none, none, 0, none, none⟩

/-- What is between a leading `o` and the first dot. -/
def orgLabel : Bytes → Option Bytes
  | 111 :: s => if 46 ∈ s then some (s.takeWhile (· ≠ 46)) else none
  | _ => none

/-- The text of `org_id`, a buffer of 21 bytes. -/
def orgText (host : Bytes) : Bytes :=
  match orgLabel host with
  | none => []
  | some label =>
    let text := label.take 20
    let r := strtoull text
    if 20 < label.length ∨ (r.value = 0 ∧ r.rest ≠ []) then [] else text

/-- The path without the slashes at its end. -/
def stripSlashes (path : Bytes) : Bytes := path.rdropWhile (· = 47)

/-- The rest of `sentry__dsn_new_n`, for a URL of one of the two schemes. -/
def dsnOfUrl (raw : Bytes) (url : Url) : Dsn :=
  let dsn : Dsn :=
    { raw, isValid := false, isSecure := url.scheme = https, host := some url.host,
      orgId := some (orgText url.host), publicKey := url.username, secretKey := url.password,
      port := url.port, path := none, projectId := none }
  let path := stripSlashes (url.path.getD [])
  match strrchr 47 path with
  | none => dsn
  | some slash =>
    if slash.drop 1 = [] then dsn
    else
      { dsn with
        projectId := some (slash.drop 1)
        path := some (path.take (path.length - slash.length))
        isValid := dsn.publicKey.isSome }

/-- `sentry__dsn_new_n` of so many bytes. What is behind a NUL among them is not read. -/
def dsnNewN (raw : Bytes) : Dsn :=
  if cstr raw = [] then .unset raw
  else
    match urlParse (cstr raw) true with
    | none => .unset raw
    | some url => if url.scheme = https ∨ url.scheme = http then dsnOfUrl raw url else .unset raw

/-- `sentry__dsn_new`. -/
def dsnNew (raw : Bytes) : Dsn := dsnNewN (cstr raw)

/-- `init_string_builder_for_url`. -/
def urlStart (dsn : Dsn) : Bytes :=
  (if dsn.isSecure then https else http) ++ [58, 47, 47] ++ dsn.host.getD [] ++ [58] ++
    printInt dsn.port ++ dsn.path.getD [] ++ [47, 97, 112, 105, 47] ++ dsn.projectId.getD []

/-- `sentry__dsn_get_envelope_url`. -/
def envelopeUrl (dsn : Dsn) : Option Bytes :=
  if dsn.isValid then some (urlStart dsn ++ [47, 101, 110, 118, 101, 108, 111, 112, 101, 47]) else none

/-! ## The number of the organisation -/

/-- A text of digits whose value has 64 bits. -/
def IsWord (s : Bytes) : Prop := (∀ c ∈ s, isDigit c = true) ∧ digitsValue s < 2 ^ 64

/-- The id is nothing, or the number between the `o` and the dot. -/
def Dsn.OrgNumber (dsn : Dsn) : Prop :=
  ∀ id, dsn.orgId = some id → id = [] ∨ ((dsn.host.bind orgLabel) = some id ∧ IsWord id)

/-- The text behind the blanks and the sign that `strtoull` skips. -/
def unsignedPart (s : Bytes) : Bytes := (scanSign (scanSpace s)).2

/-- No number that counts is read from the start of the text: no digit, or zeros with
something behind them. -/
def Numberless (s : Bytes) : Prop :=
  (unsignedPart s).takeWhile isDigit = [] ∨
    (∀ c ∈ (unsignedPart s).takeWhile isDigit, c = 48) ∧ (unsignedPart s).dropWhile isDigit ≠ []

instance : DecidablePred IsWord := fun s =>
  inferInstanceAs (Decidable ((∀ c ∈ s, isDigit c = true) ∧ digitsValue s < 2 ^ 64))

instance : DecidablePred Numberless := fun s =>
  inferInstanceAs (Decidable ((unsignedPart s).takeWhile isDigit = [] ∨
    (∀ c ∈ (unsignedPart s).takeWhile isDigit, c = 48) ∧ (unsignedPart s).dropWhile isDigit ≠ []))

/-- The labels that are a number, or that are seen to be none. -/
def Settled (label : Bytes) : Prop := IsWord label ∨ 20 < label.length ∨ Numberless label

theorem scanInteger_eq (s : Bytes) :
    ∃ neg, scanInteger s =
      if (unsignedPart s).takeWhile isDigit = [] then none
      else some (neg, digitsValue ((unsignedPart s).takeWhile isDigit),
        (unsignedPart s).dropWhile isDigit) :=
  ⟨(scanSign (scanSpace s)).1, rfl⟩

theorem digitsValue_zeros {ds : Bytes} (h : ∀ c ∈ ds, isDigit c = true) :
    digitsValue ds = 0 ↔ ∀ c ∈ ds, c = 48 := by
  induction ds using List.reverseRecOn with
  | nil => simp [digitsValue]
  | append_singleton ds c ih =>
    have hc : 48 ≤ c.toNat ∧ c.toNat ≤ 57 := by
      simpa [isDigit, UInt8.le_iff_toNat_le] using h c (by simp)
    have hds := ih fun d hd => h d (by simp [hd])
    have hone : c = 48 ↔ c.toNat = 48 := by rw [← UInt8.toNat_inj]; rfl
    rw [digitsValue_append]
    simp only [List.foldl_cons, List.foldl_nil, List.mem_append, List.mem_singleton, or_imp,
      forall_and, forall_eq, hone, ← hds]
    omega

/-- What `strtoull` says of a text without a number. -/
theorem numberless_iff {s : Bytes} (hs : s ≠ []) :
    (strtoull s).value = 0 ∧ (strtoull s).rest ≠ [] ↔ Numberless s := by
  obtain ⟨neg, hscan⟩ := scanInteger_eq s
  have hdigits : ∀ c ∈ (unsignedPart s).takeWhile isDigit, isDigit c = true :=
    fun c hc => List.mem_takeWhile_imp hc
  unfold strtoull Numberless
  rw [hscan]
  by_cases hnil : (unsignedPart s).takeWhile isDigit = []
  · simp [hnil, hs]
  · rw [if_neg hnil]
    have hzero := digitsValue_zeros hdigits
    generalize digitsValue ((unsignedPart s).takeWhile isDigit) = n at hzero ⊢
    simp only [hnil, false_or, ← hzero]
    split
    · simp only [Int.reducePow, Int.reduceSub]
      omega
    · split
      · simp only [Int.natCast_eq_zero]
        constructor <;> rintro ⟨h1, h2⟩ <;> exact ⟨by omega, h2⟩
      · simp only [Int.natCast_eq_zero]

theorem orgText_kept {host label : Bytes} (h : orgLabel host = some label) (hne : label ≠ []) :
    orgText host = if 20 < label.length ∨ Numberless label then [] else label := by
  unfold orgText
  rw [h]
  dsimp only
  by_cases hlen : 20 < label.length
  · rw [if_pos (.inl hlen), if_pos (.inl hlen)]
  · rw [List.take_of_length_le (by omega)]
    exact if_congr (or_congr_right (numberless_iff hne)) rfl rfl

theorem dsnOfUrl_host (raw : Bytes) (url : Url) :
    (dsnOfUrl raw url).host = some url.host ∧ (dsnOfUrl raw url).orgId = some (orgText url.host) := by
  unfold dsnOfUrl
  dsimp only
  split
  · exact ⟨rfl, rfl⟩
  · split <;> exact ⟨rfl, rfl⟩

theorem orgNumber_dsnOfUrl (raw : Bytes) (url : Url) :
    (dsnOfUrl raw url).OrgNumber ↔ ∀ label, orgLabel url.host = some label → Settled label := by
  obtain ⟨hhost, hid⟩ := dsnOfUrl_host raw url
  simp only [Dsn.OrgNumber, hhost, hid, Option.bind_some, Option.some.injEq, forall_eq']
  cases hl : orgLabel url.host with
  | none => simp [orgText, hl]
  | some label =>
    simp only [Option.some.injEq, forall_eq']
    by_cases hnil : label = []
    · subst hnil
      exact iff_of_true (.inl (by simp [orgText, hl, strtoull, scanInteger])) (.inl (by decide +kernel))
    · rw [orgText_kept hl hnil]
      split
      · rename_i h
        exact iff_of_true (.inl rfl) (.inr h)
      · rename_i h
        constructor
        · rintro (hn | ⟨-, hw⟩)
          · exact absurd hn hnil
          · exact .inl hw
        · rintro (hw | hn)
          · exact .inr ⟨rfl, hw⟩
          · exact absurd hn h

/-- The id is a number exactly for the hosts whose label is one or is seen to be none. -/
theorem org_id_number (raw : Bytes) :
    (dsnNew raw).OrgNumber ↔
      ∀ url label, urlParse (cstr raw) true = some url → url.scheme = https ∨ url.scheme = http →
        orgLabel url.host = some label → Settled label := by
  have hcstr : cstr (cstr raw) = cstr raw := cstr_of_not_mem (zero_not_mem_cstr raw)
  unfold dsnNew dsnNewN
  rw [hcstr]
  split
  · rename_i hnil
    refine iff_of_true (fun id hid => by cases hid) fun url label hurl => ?_
    rw [hnil] at hurl
    cases hurl
  · split
    · rename_i hnone
      refine iff_of_true (fun id hid => by cases hid) fun url label hurl => ?_
      rw [hnone] at hurl
      cases hurl
    · rename_i url hsome
      split
      · rename_i hscheme
        rw [orgNumber_dsnOfUrl, hsome]
        simp only [Option.some.injEq]
        exact ⟨fun h u label hu _ hl => h label (hu ▸ hl),
          fun h label hl => h url label rfl hscheme hl⟩
      · rename_i hscheme
        refine iff_of_true (fun id hid => by cases hid) fun u label hu hs => ?_
        rw [hsome] at hu
        cases hu
        exact absurd hs hscheme

/-- The id of the host `o123abc.io` is `123abc`, and that of a label of twenty nines
is all of them. -/
theorem org_id_not_number :
    (dsnNew (https ++ [58, 47, 47, 107, 64, 111, 49, 50, 51, 97, 98, 99, 46, 105, 111, 47, 49])).orgId =
        some [49, 50, 51, 97, 98, 99] ∧
      ¬ (dsnNew (https ++
        [58, 47, 47, 107, 64, 111, 49, 50, 51, 97, 98, 99, 46, 105, 111, 47, 49])).OrgNumber ∧
      ¬ (dsnNew (https ++
        ([58, 47, 47, 107, 64, 111] ++ List.replicate 20 57 ++ [46, 105, 111, 47, 49]))).OrgNumber := by
  have hfirst : (dsnNew (https ++
      [58, 47, 47, 107, 64, 111, 49, 50, 51, 97, 98, 99, 46, 105, 111, 47, 49])).orgId =
        some [49, 50, 51, 97, 98, 99] := by decide
  have hsecond : (dsnNew (https ++
      ([58, 47, 47, 107, 64, 111] ++ List.replicate 20 57 ++ [46, 105, 111, 47, 49]))).orgId =
        some (List.replicate 20 57) := by decide
  refine ⟨hfirst, fun h => ?_, fun h => ?_⟩
  · rcases h _ hfirst with hnil | ⟨-, hd, -⟩
    · cases hnil
    · exact absurd (hd 97 (by decide)) (by decide)
  · rcases h _ hsecond with hnil | ⟨-, -, hv⟩
    · cases hnil
    · exact absurd hv (by decide)

end SentryNative.Utils
