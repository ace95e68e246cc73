import Mathlib.Algebra.Order.Floor.Div
import SentryNative.Lib.Rfc4648
import SentryNative.Json.RoundTrip

/-!
# Base64

`sentry__base64_encode`, and the upload metadata that it is for.

* `base64_encode`: what it writes is decoded again;
* `tusBuildUploadMetadata_read`: the metadata decodes to an object that is read back.
-/

namespace SentryNative.Utils

open CLib

/-- The table of `sentry__base64_encode`. -/
def b64 : Bytes := ascii "ABCDEFGHIJKLMNOPQRSTUVWXYZabcdefghijklmnopqrstuvwxyz0123456789+/"

/-- `b64[n & 0x3F]` -/
def b64At (n : Nat) : UInt8 := b64.getD (n &&& 0x3F) 0

/-- The loop, from an index of the data on, with what is written so far. -/
def base64Loop (data : Bytes) (i : Nat) (out : Bytes) : Bytes :=
  if h : i < data.length then
    let triple := data[i].toNat <<< 16
    let triple := if h : i + 1 < data.length then triple ||| (data[i + 1].toNat <<< 8) else triple
    let triple := if h : i + 2 < data.length then triple ||| data[i + 2].toNat else triple
    base64Loop data (i + 3) (out ++
      [b64At (triple >>> 18), b64At (triple >>> 12), if i + 1 < data.length then b64At (triple >>> 6) else 61,
        if i + 2 < data.length then b64At triple else 61])
  else out
termination_by data.length - i

/-- `sentry__base64_encode`, where its buffer can be allocated. -/
def base64Encode (data : Bytes) : Bytes := base64Loop data 0 []

/-! ## Groups -/

/-- The four characters of up to three bytes. -/
def base64Group : Bytes → Bytes
  | [] => []
  | [a] => [b64At (a.toNat <<< 16 >>> 18), b64At (a.toNat <<< 16 >>> 12), 61, 61]
  | [a, b] =>
    let triple := a.toNat <<< 16 ||| (b.toNat <<< 8)
    [b64At (triple >>> 18), b64At (triple >>> 12), b64At (triple >>> 6), 61]
  | a :: b :: c :: _ =>
    let triple := a.toNat <<< 16 ||| (b.toNat <<< 8) ||| c.toNat
    [b64At (triple >>> 18), b64At (triple >>> 12), b64At (triple >>> 6), b64At triple]

/-- One turn of the loop takes three bytes. -/
theorem base64Loop_step {data : Bytes} {i : Nat} (h : i < data.length) (out : Bytes) :
    base64Loop data i out = base64Loop data (i + 3) (out ++ base64Group (data.drop i)) := by
  rw [base64Loop, dif_pos h]
  by_cases h1 : i + 1 < data.length
  · by_cases h2 : i + 2 < data.length
    · have hdrop : data.drop i = data[i] :: data[i + 1] :: data[i + 2] :: data.drop (i + 3) := by
        rw [List.drop_eq_getElem_cons h, List.drop_eq_getElem_cons h1, List.drop_eq_getElem_cons h2]
      simp only [h1, h2, ↓reduceDIte, ↓reduceIte, hdrop, base64Group]
    · have hdrop : data.drop i = [data[i], data[i + 1]] := by
        rw [List.drop_eq_getElem_cons h, List.drop_eq_getElem_cons h1, List.drop_eq_nil_of_le (by omega)]
      simp only [h1, h2, ↓reduceDIte, ↓reduceIte, hdrop, base64Group]
  · have h2 : ¬ i + 2 < data.length := by omega
    have hdrop : data.drop i = [data[i]] := by
      rw [List.drop_eq_getElem_cons h, List.drop_eq_nil_of_le (by omega)]
    simp only [h1, h2, ↓reduceDIte, ↓reduceIte, hdrop, base64Group]

/-- All groups of the data. -/
def base64Groups : Bytes → Bytes
  | a :: b :: c :: s => base64Group [a, b, c] ++ base64Groups s
  | s => base64Group s

theorem base64Groups_drop (data : Bytes) (i : Nat) :
    base64Groups (data.drop i) = base64Group (data.drop i) ++ base64Groups (data.drop (i + 3)) := by
  have hnext : data.drop (i + 3) = (data.drop i).drop 3 := by rw [List.drop_drop]
  rw [hnext]
  match data.drop i with
  | [] => rfl
  | [a] => simp [base64Groups, base64Group]
  | [a, b] => simp [base64Groups, base64Group]
  | a :: b :: c :: s => rfl

theorem base64Loop_eq (data : Bytes) (i : Nat) (out : Bytes) :
    base64Loop data i out = out ++ base64Groups (data.drop i) := by
  by_cases h : i < data.length
  · rw [base64Loop_step h, base64Loop_eq data (i + 3), base64Groups_drop data i, List.append_assoc]
  · rw [base64Loop, dif_neg h, List.drop_eq_nil_of_le (by omega)]
    exact (List.append_nil out).symm
termination_by data.length - i

theorem base64Encode_eq (data : Bytes) : base64Encode data = base64Groups data := by
  rw [base64Encode, base64Loop_eq, List.nil_append, List.drop_zero]

/-! ## Bits -/

theorem b64_sextets : b64.map Rfc4648.sextet = (List.range 64).map some := by decide +kernel

theorem b64_length : b64.length = 64 := by
  simpa using congrArg List.length b64_sextets

theorem isSome_sextet {c : UInt8} (h : c ∈ b64) : (Rfc4648.sextet c).isSome := by
  have hmem : Rfc4648.sextet c ∈ b64.map Rfc4648.sextet := List.mem_map_of_mem h
  rw [b64_sextets] at hmem
  obtain ⟨m, -, hm⟩ := List.mem_map.mp hmem
  rw [← hm, Option.isSome_some]

theorem b64At_get (n : Nat) : b64[n % 64]? = some (b64At n) := by
  have hlt : n % 64 < b64.length := by
    rw [b64_length]
    exact Nat.mod_lt n (by decide)
  rw [b64At, show (0x3F : Nat) = 2 ^ 6 - 1 from rfl, Nat.and_two_pow_sub_one_eq_mod, List.getD_eq_getElem?_getD,
    List.getElem?_eq_getElem hlt, Option.getD_some]

theorem sextet_b64At (n : Nat) : Rfc4648.sextet (b64At n) = some (n % 64) := by
  have hget : (b64.map Rfc4648.sextet)[n % 64]? = some (Rfc4648.sextet (b64At n)) := by
    rw [List.getElem?_map, b64At_get, Option.map_some]
  rw [b64_sextets, List.getElem?_map, List.getElem?_range (Nat.mod_lt n (by decide))] at hget
  exact (Option.some.inj hget).symm

theorem b64At_mem (n : Nat) : b64At n ∈ b64 := List.mem_of_getElem? (b64At_get n)

theorem pad_not_mem : (61 : UInt8) ∉ b64 := fun h => absurd (isSome_sextet h) (by decide)

theorem b64At_ne_pad (n : Nat) : b64At n ≠ 61 := fun h => pad_not_mem (h ▸ b64At_mem n)

theorem triple_two (a b : UInt8) : a.toNat <<< 16 ||| (b.toNat <<< 8) = a.toNat * 65536 + b.toNat * 256 := by
  have hb : b.toNat <<< 8 < 2 ^ 16 := by
    have := b.toNat_lt
    rw [Nat.shiftLeft_eq]
    omega
  rw [← Nat.shiftLeft_add_eq_or_of_lt hb, Nat.shiftLeft_eq, Nat.shiftLeft_eq]

theorem triple_three (a b c : UInt8) :
    a.toNat <<< 16 ||| (b.toNat <<< 8) ||| c.toNat = a.toNat * 65536 + b.toNat * 256 + c.toNat := by
  have hc : c.toNat < 2 ^ 8 := c.toNat_lt
  have hcat : a.toNat * 65536 + b.toNat * 256 = (a.toNat * 256 + b.toNat) <<< 8 := by
    rw [Nat.shiftLeft_eq]
    omega
  rw [triple_two, hcat, ← Nat.shiftLeft_add_eq_or_of_lt hc]

theorem byteAt_eq {bits shift : Nat} {b : UInt8} (h : bits / 2 ^ shift % 256 = b.toNat) : Rfc4648.byteAt bits shift = b := by
  rw [Rfc4648.byteAt, h, UInt8.ofNat_toNat]

theorem decode_three (a b c : UInt8) (s : Bytes) :
    Rfc4648.decode (base64Group [a, b, c] ++ s) = (Rfc4648.decode s).map ([a, b, c] ++ ·) := by
  have ha := a.toNat_lt
  have hb := b.toNat_lt
  have hc := c.toNat_lt
  simp only [base64Group, triple_three]
  refine Rfc4648.decode_group ?_ s
  simp only [Rfc4648.decodeGroup, sextet_b64At, Nat.shiftRight_eq_div_pow, Option.bind_eq_bind, Option.bind_some,
    Option.pure_def, Option.some.injEq, List.cons.injEq, and_true]
  exact ⟨byteAt_eq (by omega), byteAt_eq (by omega), byteAt_eq (by omega)⟩

theorem decode_two (a b : UInt8) : Rfc4648.decode (base64Group [a, b]) = some [a, b] := by
  have ha := a.toNat_lt
  have hb := b.toNat_lt
  have hsextet := sextet_b64At
  have hpad := b64At_ne_pad
  unfold base64Group
  generalize b64At = f at hsextet hpad ⊢
  simp only [triple_two, Rfc4648.decode, Rfc4648.decodeLast, Rfc4648.pad, hpad, false_and, ↓reduceIte,
    hsextet, Nat.shiftRight_eq_div_pow, Option.bind_eq_bind, Option.bind_some]
  rw [if_pos (by omega)]
  simp only [Option.pure_def, Option.some.injEq, List.cons.injEq, and_true]
  exact ⟨byteAt_eq (by omega), byteAt_eq (by omega)⟩

theorem decode_one (a : UInt8) : Rfc4648.decode (base64Group [a]) = some [a] := by
  have ha := a.toNat_lt
  have hsextet := sextet_b64At
  unfold base64Group
  generalize b64At = f at hsextet ⊢
  simp only [Nat.shiftLeft_eq, Rfc4648.decode, Rfc4648.decodeLast, Rfc4648.pad, and_self, ↓reduceIte,
    hsextet, Nat.shiftRight_eq_div_pow, Option.bind_eq_bind, Option.bind_some]
  rw [if_pos (by omega)]
  simp only [Option.pure_def, Option.some.injEq, List.cons.injEq, and_true]
  exact byteAt_eq (by omega)

theorem decode_base64Groups (data : Bytes) : Rfc4648.decode (base64Groups data) = some data := by
  induction data using base64Groups.induct with
  | case1 a b c s ih => rw [base64Groups, decode_three, ih, Option.map_some]; rfl
  | case2 s hshort =>
    match s with
    | [] => rfl
    | [a] => exact decode_one a
    | [a, b] => exact decode_two a b
    | a :: b :: c :: s => exact absurd rfl (hshort a b c s)

/-! ## Lengths and characters -/

/-- The characters of the alphabet, and the padding behind them. -/
theorem base64Groups_chars (data : Bytes) :
    ∃ body, base64Groups data = body ++ List.replicate ((3 - data.length % 3) % 3) 61 ∧ ∀ c ∈ body, c ∈ b64 := by
  induction data using base64Groups.induct with
  | case1 a b c s ih =>
    obtain ⟨body, hbody, hchars⟩ := ih
    refine ⟨base64Group [a, b, c] ++ body, ?_, fun d hd => ?_⟩
    · rw [base64Groups, hbody, List.append_assoc]
      have hlength : (a :: b :: c :: s).length % 3 = s.length % 3 := Nat.add_mod_right s.length 3
      rw [hlength]
    · obtain hd | hd := List.mem_append.mp hd
      · simp only [base64Group, List.mem_cons, List.not_mem_nil, or_false] at hd
        obtain rfl | rfl | rfl | rfl := hd <;> exact b64At_mem _
      · exact hchars d hd
  | case2 s hshort =>
    obtain _ | ⟨a, _ | ⟨b, _ | ⟨c, s⟩⟩⟩ := s
    · exact ⟨[], rfl, by simp⟩
    · exact ⟨[_, _], rfl, by simp [b64At_mem]⟩
    · exact ⟨[_, _, _], rfl, by simp [b64At_mem]⟩
    · exact absurd rfl (hshort a b c s)

theorem base64Groups_length (data : Bytes) : (base64Groups data).length = 4 * ((data.length + 2) / 3) := by
  induction data using base64Groups.induct with
  | case1 a b c s ih =>
    have hfour : (base64Group [a, b, c]).length = 4 := rfl
    rw [base64Groups, List.length_append, hfour, ih]
    simp only [List.length_cons]
    omega
  | case2 s hshort =>
    match s with
    | [] => rfl
    | [a] => simp [base64Groups, base64Group]
    | [a, b] => simp [base64Groups, base64Group]
    | a :: b :: c :: s => exact absurd rfl (hshort a b c s)

/-- The text fills the buffer up to its terminator; it has only characters of the alphabet and then the padding, and
it is decoded to the data. -/
theorem base64_encode (data : Bytes) :
    (base64Encode data).length = 4 * (data.length ⌈/⌉ 3) ∧
    (∃ body, base64Encode data = body ++ List.replicate ((3 - data.length % 3) % 3) Rfc4648.pad ∧
      ∀ c ∈ body, (Rfc4648.sextet c).isSome) ∧
    Rfc4648.decode (base64Encode data) = some data := by
  rw [base64Encode_eq, Nat.ceilDiv_eq_add_pred_div]
  refine ⟨base64Groups_length data, ?_, decode_base64Groups data⟩
  obtain ⟨body, hbody, hchars⟩ := base64Groups_chars data
  exact ⟨body, hbody, fun c hc => isSome_sextet (hchars c hc)⟩

/-! ## Upload metadata -/

/-- `tus_build_upload_metadata` for an attachment type; nothing for a null pointer. -/
def tusBuildUploadMetadata (attachmentType : Option Bytes) : Bytes :=
  let jw := Json.writeStart .new 123
  let jw := Json.writeKey jw (ascii "attachment_type")
  let jw := match attachmentType with
    | some text => Json.writeStr jw (cstr text)
    | none => Json.writeNull jw
  ascii "sentry " ++ base64Encode (Json.writeEnd jw 125).out

/-- The object that the metadata is made of. -/
def uploadMetadata (attachmentType : Option Bytes) : Value :=
  .object [(ascii "attachment_type", (attachmentType.map fun text => .string (cstr text)).getD .null)]

theorem tusBuildUploadMetadata_eq (dt : Json.DoubleText) (attachmentType : Option Bytes) :
    tusBuildUploadMetadata attachmentType =
      ascii "sentry " ++ base64Encode (Json.toJson dt (uploadMetadata attachmentType)) := by
  cases attachmentType <;> rfl

theorem tusBuildUploadMetadata_read (dt : Json.DoubleText) (attachmentType : Option Bytes) :
    ∃ encoded json, tusBuildUploadMetadata attachmentType = ascii "sentry " ++ encoded ∧
      Rfc4648.decode encoded = some json ∧ Json.fromJson dt json = uploadMetadata attachmentType := by
  have hplain : (uploadMetadata attachmentType).Plain := by
    refine .object (by simp) (by simp [ascii]) fun p hp => ?_
    rw [List.mem_singleton.mp hp]
    cases attachmentType with
    | none => exact .null
    | some text => exact .string _
  have hheight : (uploadMetadata attachmentType).height < 2 ^ 32 := by
    cases attachmentType <;> simp [uploadMetadata, Value.height, Value.heightPairs]
  have hcut : Json.truncate 0 (uploadMetadata attachmentType) = uploadMetadata attachmentType := by
    cases attachmentType <;> rfl
  have hretype : (uploadMetadata attachmentType).retype = uploadMetadata attachmentType := by
    cases attachmentType <;> rfl
  refine ⟨base64Encode (Json.toJson dt (uploadMetadata attachmentType)), Json.toJson dt (uploadMetadata attachmentType),
    tusBuildUploadMetadata_eq dt attachmentType, ?_, ?_⟩
  · rw [base64Encode_eq, decode_base64Groups]
  · rw [Json.toJson_eq_render dt hplain hheight, hcut, Json.fromJson_render hplain, hretype]
    cases attachmentType <;> simp [uploadMetadata, Value.height, Value.heightPairs, Json.maxDepth]

end SentryNative.Utils
