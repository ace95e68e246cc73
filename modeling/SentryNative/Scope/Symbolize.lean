import SentryNative.Lib.Scan
import SentryNative.Value.Tree

/-!
# Symbolized frames

Addresses are kept in a frame as text. `sentry__symbolize_stacktrace` reads them back with `strtoll`,
which stops at the largest signed number.

* `strtollAuto_addrText`: what is read of an address;
* `symbolized_address`: the address that a symbolizer is given.
-/

namespace SentryNative.Scope

open CLib

/-! ## Addresses as text -/

/-- `SENTRY_ADDR_MIN_BUFFER_SIZE` -/
def addrMinBufferSize : Nat := 19

/-- The table of `sentry__addr_to_string`. -/
def hexTable : Bytes := ascii "0123456789abcdef"

/-- The loop that fills the scratch buffer, with the room that is left in it. -/
def revNibbles : Nat → Nat → Bytes
  | 0, _ => []
  | room + 1, addr => if addr = 0 then [] else hexTable.getD (addr &&& 0xF) 0 :: revNibbles room (addr >>> 4)

/-- `sentry__addr_to_string`: the text in a buffer of so many bytes; a buffer that is too small is left alone. -/
def addrToString (bufLen : Nat) (addr : UInt64) : Option Bytes :=
  if bufLen < addrMinBufferSize then none
  else
    let rev := if addr = 0 then [48] else revNibbles 16 addr.toNat
    some (48 :: 120 :: rev.reverse.take (bufLen - 1 - 2))

/-- `sentry__value_new_addr` -/
def valueNewAddr (addr : UInt64) : Value := .string ((addrToString 32 addr).getD [])

/-! ## Frames -/

/-- What `dladdr` knows of an address; the fields that may be null pointers are optional. -/
structure FrameInfo where
  loadAddr : UInt64
  symbolAddr : UInt64
  symbol : Option Bytes
  objectName : Option Bytes

/-- A key is set if there is something to set it to and nothing there. -/
def setMissing (frame : Value) (key : Bytes) (value : Option Value) : Value :=
  match value, frame.getByKey key with
  | some value, .null => frame.setByKey key value
  | _, _ => frame

def addrUnlessNull (addr : UInt64) : Option Value := if addr = 0 then none else some (valueNewAddr addr)

/-- `sentry__symbolize_frame` -/
def symbolizeFrame (info : FrameInfo) (frame : Value) : Value :=
  let frame := setMissing frame (ascii "function") (info.symbol.map fun s => .string (cstr s))
  let frame := setMissing frame (ascii "package") (info.objectName.map fun s => .string (cstr s))
  let frame := setMissing frame (ascii "symbol_addr") (addrUnlessNull info.symbolAddr)
  setMissing frame (ascii "image_addr") (addrUnlessNull info.loadAddr)

/-- A call of the symbolizer: the frame it is for, and the address. -/
structure Symbolized where
  frame : Nat
  addr : UInt64
  deriving DecidableEq, Repr

/-- The address of a frame; nothing where the symbolizer is not called. -/
def frameAddr (frame : Value) : Option UInt64 :=
  match frame.getByKey (ascii "instruction_addr") with
  | .null => none
  | addrValue =>
    let addr := UInt64.ofInt (strtollAuto addrValue.asString)
    if addr = 0 then none else some addr

section

-- what is known of an address
variable (dladdr : UInt64 → Option FrameInfo)

/-- The loop over the frames, from an index on. -/
def symbolizeFrames : Nat → List Value → List Symbolized × List Value
  | _, [] => ([], [])
  | i, frame :: frames =>
    let rest := symbolizeFrames (i + 1) frames
    match frameAddr frame with
    | none => (rest.1, frame :: rest.2)
    | some addr =>
      let frame := match dladdr addr with
        | some info => symbolizeFrame info frame
        | none => frame
      (⟨i, addr⟩ :: rest.1, frame :: rest.2)

/-- `sentry__symbolize_stacktrace`: the calls that are made, and the stacktrace. -/
def symbolizeStacktrace (stacktrace : Value) : List Symbolized × Value :=
  match stacktrace.getByKey (ascii "frames") with
  | .list frames =>
    let result := symbolizeFrames dladdr 0 frames
    (result.1, stacktrace.setByKey (ascii "frames") (.list result.2))
  | _ => ([], stacktrace)

end

/-! ## Addresses are read back -/

theorem hexTable_digit (n : Nat) :
    isHexDigit (hexTable.getD (n &&& 0xF) 0) = true ∧ hexDigitValue (hexTable.getD (n &&& 0xF) 0) = n % 16 := by
  have hall : ∀ m < 16, isHexDigit (hexTable.getD m 0) = true ∧ hexDigitValue (hexTable.getD m 0) = m := by decide +kernel
  have hmask : n &&& 0xF = n % 16 := Nat.and_two_pow_sub_one_eq_mod n 4
  rw [hmask]
  exact hall _ (Nat.mod_lt _ (by decide))

theorem revNibbles_digits (room n : Nat) : ∀ d ∈ revNibbles room n, isHexDigit d = true := by
  induction room generalizing n with
  | zero => simp [revNibbles]
  | succ room ih =>
    intro d hd
    rw [revNibbles] at hd
    split at hd
    · cases hd
    · obtain rfl | hd := List.mem_cons.mp hd
      · exact (hexTable_digit n).1
      · exact ih _ d hd

theorem hexValue_revNibbles {room n : Nat} (h : n < 16 ^ room) : hexValue (revNibbles room n).reverse = n := by
  induction room generalizing n with
  | zero =>
    rw [Nat.pow_zero, Nat.lt_one_iff] at h
    rw [h]
    rfl
  | succ room ih =>
    rw [revNibbles]
    split
    · rename_i hzero
      rw [hzero]
      rfl
    · have hshift : n >>> 4 = n / 16 := Nat.shiftRight_eq_div_pow n 4
      rw [Nat.pow_succ] at h
      rw [List.reverse_cons, hexValue_concat, hshift, ih (by omega), (hexTable_digit n).2]
      omega

theorem revNibbles_length (room n : Nat) : (revNibbles room n).length ≤ room := by
  induction room generalizing n with
  | zero => simp [revNibbles]
  | succ room ih =>
    rw [revNibbles]
    split
    · simp
    · rw [List.length_cons]
      have := ih (n >>> 4)
      omega

/-- An address is two characters and then its hexadecimal digits. -/
theorem valueNewAddr_eq (addr : UInt64) :
    ∃ ds, valueNewAddr addr = .string (48 :: 120 :: ds) ∧ ds ≠ [] ∧ (∀ d ∈ ds, isHexDigit d = true) ∧
      hexValue ds = addr.toNat := by
  by_cases hzero : addr = 0
  · refine ⟨[48], ?_, by simp, by simp [isHexDigit], ?_⟩
    · rw [hzero]
      rfl
    · rw [hzero]
      rfl
  · refine ⟨(revNibbles 16 addr.toNat).reverse, ?_, ?_, ?_, ?_⟩
    · have hlength := revNibbles_length 16 addr.toNat
      have htake : (revNibbles 16 addr.toNat).reverse.take (32 - 1 - 2) = (revNibbles 16 addr.toNat).reverse :=
        List.take_of_length_le (by rw [List.length_reverse]; omega)
      simp only [valueNewAddr, addrToString, hzero, ↓reduceIte, htake]
      rfl
    · have hpos : addr.toNat ≠ 0 := fun h => hzero (UInt64.toNat_inj.mp h)
      simp [revNibbles, hpos]
    · intro d hd
      exact revNibbles_digits 16 _ d (List.mem_reverse.mp hd)
    · exact hexValue_revNibbles (by have := addr.toNat_lt; omega)

theorem strtollAuto_addr (addr : UInt64) :
    strtollAuto (valueNewAddr addr).asString = min (addr.toNat : Int) (2 ^ 63 - 1) := by
  obtain ⟨ds, htext, hne, hds, hvalue⟩ := valueNewAddr_eq addr
  have hnul : (0 : UInt8) ∉ 48 :: 120 :: ds := by
    intro h
    simp only [List.mem_cons] at h
    obtain h | h | h := h
    · cases h
    · cases h
    · have := hds 0 h
      cases this
  rw [htext, Value.asString, cstr_of_not_mem hnul, strtollAuto_hex hne hds, hvalue]

theorem ofInt_natCast {n : Nat} (h : n < 2 ^ 64) : UInt64.ofInt (n : Int) = UInt64.ofNat n := by
  rw [UInt64.ofInt, Int.emod_eq_of_lt (by omega) (by omega), Int.toNat_natCast]

/-- The largest signed number. -/
def saturated : UInt64 := 0x7fffffffffffffff

theorem ofInt_strtollAuto_addr (addr : UInt64) :
    UInt64.ofInt (strtollAuto (valueNewAddr addr).asString) = if addr.toNat < 2 ^ 63 then addr else saturated := by
  have hlt := addr.toNat_lt
  rw [strtollAuto_addr]
  split
  · rw [Int.min_eq_left (by omega), ofInt_natCast hlt, UInt64.ofNat_toNat]
  · rw [Int.min_eq_right (by omega)]
    rfl

/-- What the symbolizer is given for a frame. -/
theorem frameAddr_valueNewAddr {frame : Value} {addr : UInt64}
    (h : frame.getByKey (ascii "instruction_addr") = valueNewAddr addr) :
    frameAddr frame = if addr = 0 then none else some (if addr.toNat < 2 ^ 63 then addr else saturated) := by
  obtain ⟨ds, htext, -⟩ := valueNewAddr_eq addr
  have hread := ofInt_strtollAuto_addr addr
  rw [htext] at h hread
  unfold frameAddr
  simp only [h, hread]
  by_cases hfits : addr.toNat < 2 ^ 63
  · rw [if_pos hfits]
  · have hne : addr ≠ 0 := by
      rintro rfl
      exact hfits (by decide)
    rw [if_neg hfits, if_neg hne, if_neg (by decide)]

/-! ## All frames -/

section

variable {dladdr : UInt64 → Option FrameInfo}

/-- The calls are those of the frames, each with its index. -/
theorem mem_symbolizeFrames {frames : List Value} {start : Nat} {call : Symbolized} :
    call ∈ (symbolizeFrames dladdr start frames).1 ↔
      ∃ i frame, frames[i]? = some frame ∧ call.frame = start + i ∧ frameAddr frame = some call.addr := by
  induction frames generalizing start with
  | nil => simp [symbolizeFrames]
  | cons frame frames ih =>
    have hrest : (call ∈ (symbolizeFrames dladdr (start + 1) frames).1) ↔
        ∃ i f, (frame :: frames)[i + 1]? = some f ∧ call.frame = start + (i + 1) ∧ frameAddr f = some call.addr := by
      rw [ih]
      simp only [List.getElem?_cons_succ, Nat.add_assoc, Nat.add_comm 1]
    have hsplit : (∃ i f, (frame :: frames)[i]? = some f ∧ call.frame = start + i ∧ frameAddr f = some call.addr) ↔
        (call.frame = start ∧ frameAddr frame = some call.addr) ∨
          ∃ i f, (frame :: frames)[i + 1]? = some f ∧ call.frame = start + (i + 1) ∧ frameAddr f = some call.addr := by
      constructor
      · rintro ⟨i, f, hf, hi, haddr⟩
        cases i with
        | zero =>
          rw [List.getElem?_cons_zero, Option.some.injEq] at hf
          exact .inl ⟨hi, by rw [hf]; exact haddr⟩
        | succ i => exact .inr ⟨i, f, hf, hi, haddr⟩
      · rintro (⟨hi, haddr⟩ | ⟨i, f, hf, hi, haddr⟩)
        · exact ⟨0, frame, rfl, hi, haddr⟩
        · exact ⟨i + 1, f, hf, hi, haddr⟩
    rw [hsplit, ← hrest, symbolizeFrames]
    cases haddr : frameAddr frame with
    | none => simp
    | some addr =>
      simp only [List.mem_cons, Option.some.injEq]
      refine or_congr_left ⟨?_, ?_⟩
      · rintro rfl
        exact ⟨rfl, rfl⟩
      · rintro ⟨hi, hsame⟩
        cases call
        simp only at hi hsame
        rw [hi, hsame]

/-- For a frame that was given an address other than 0 the symbolizer is called with one address; it is the frame's
own just when it fits into a signed number. -/
theorem symbolized_address (stacktrace : Value) (frames : List Value) (i : Nat) (frame : Value) (addr : UInt64)
    (hframes : stacktrace.getByKey (ascii "frames") = .list frames) (hframe : frames[i]? = some frame)
    (haddr : frame.getByKey (ascii "instruction_addr") = valueNewAddr addr) :
    ((∀ call ∈ (symbolizeStacktrace dladdr stacktrace).1, call.frame = i → call.addr = addr) ↔ addr.toNat < 2 ^ 63) ∧
      ((∃ call ∈ (symbolizeStacktrace dladdr stacktrace).1, call.frame = i) ↔ addr ≠ 0) := by
  have hgiven := frameAddr_valueNewAddr haddr
  have hcalls : ∀ call : Symbolized, call ∈ (symbolizeStacktrace dladdr stacktrace).1 ∧ call.frame = i ↔
      call.frame = i ∧ frameAddr frame = some call.addr := by
    intro call
    unfold symbolizeStacktrace
    simp only [hframes, mem_symbolizeFrames, Nat.zero_add]
    constructor
    · rintro ⟨⟨j, f, hf, hj, hf'⟩, hi⟩
      rw [← hj, hi, hframe, Option.some.injEq] at hf
      exact ⟨hi, by rw [hf]; exact hf'⟩
    · rintro ⟨hi, hf⟩
      exact ⟨⟨i, frame, hframe, hi, hf⟩, hi⟩
  constructor
  · constructor
    · intro hall
      by_contra hbig
      have hne : addr ≠ 0 := by
        rintro rfl
        exact hbig (by decide)
      rw [if_neg hne, if_neg hbig] at hgiven
      obtain ⟨hmem, hi⟩ := (hcalls ⟨i, saturated⟩).2 ⟨rfl, hgiven⟩
      have hsame := hall _ hmem hi
      rw [← hsame] at hbig
      exact hbig (show saturated.toNat < 2 ^ 63 by decide)
    · intro hfits call hmem hi
      obtain ⟨-, hcall⟩ := (hcalls call).1 ⟨hmem, hi⟩
      rw [hgiven, if_pos hfits] at hcall
      split at hcall
      · cases hcall
      · exact (Option.some.inj hcall).symm
  · constructor
    · rintro ⟨call, hmem, hi⟩ rfl
      have hcall := ((hcalls call).1 ⟨hmem, hi⟩).2
      rw [hgiven, if_pos rfl] at hcall
      cases hcall
    · intro hne
      rw [if_neg hne] at hgiven
      obtain ⟨hmem, hi⟩ := (hcalls ⟨i, _⟩).2 ⟨rfl, hgiven⟩
      exact ⟨_, hmem, hi⟩

end

/-- A stacktrace of one frame. -/
def oneFrame (addr : UInt64) : Value :=
  .object [(ascii "frames", .list [.object [(ascii "instruction_addr", valueNewAddr addr)]])]

theorem oneFrame_frames (addr : UInt64) :
    (oneFrame addr).getByKey (ascii "frames") = .list [.object [(ascii "instruction_addr", valueNewAddr addr)]] := rfl

theorem symbolized_address_main :
    (∃ call ∈ (symbolizeStacktrace (fun _ => none) (oneFrame 0x401000)).1, call.frame = 0) ∧
      ∀ call ∈ (symbolizeStacktrace (fun _ => none) (oneFrame 0x401000)).1, call.frame = 0 → call.addr = 0x401000 :=
  have h := @symbolized_address (fun _ => none) (oneFrame 0x401000) _ 0 _ 0x401000 (oneFrame_frames _) rfl rfl
  ⟨h.2.2 (by decide), h.1.2 (by decide)⟩

/-- An address of the vsyscall page is given as the largest signed number. -/
theorem symbolized_address_vsyscall :
    (symbolizeStacktrace (fun _ => none) (oneFrame 0xffffffffff600000)).1 = [⟨0, 0x7fffffffffffffff⟩] := by
  decide +kernel

end SentryNative.Scope
