import SentryNative.Lib.CNumber

/-!
# Base64

The alphabet of RFC 4648, section 4, and its decoder. A group of four characters holds 24 bits; the last
one may be padded, and the bits that its padding stands for are zero.
-/

namespace Rfc4648

open CLib (Bytes)

/-- The value of a character of the alphabet. -/
def sextet (c : UInt8) : Option Nat :=
  if 65 ≤ c ∧ c ≤ 90 then some (c.toNat - 65)
  else if 97 ≤ c ∧ c ≤ 122 then some (c.toNat - 97 + 26)
  else if 48 ≤ c ∧ c ≤ 57 then some (c.toNat - 48 + 52)
  else if c = 43 then some 62
  else if c = 47 then some 63
  else none

/-- `=` -/
def pad : UInt8 := 61

/-- The byte of 24 bits that so many bits are behind. -/
def byteAt (bits : Nat) (shift : Nat) : UInt8 := UInt8.ofNat (bits / 2 ^ shift % 256)

/-- Four characters without a padding. -/
def decodeGroup (a b c d : UInt8) : Option Bytes := do
  let bits := ((← sextet a) * 64 + (← sextet b)) * 4096 + (← sextet c) * 64 + (← sextet d)
  return [byteAt bits 16, byteAt bits 8, byteAt bits 0]

/-- The last four characters. -/
def decodeLast (a b c d : UInt8) : Option Bytes :=
  if c = pad ∧ d = pad then do
    let bits := (← sextet a) * 64 + (← sextet b)
    if bits % 16 = 0 then return [byteAt bits 4] else none
  else if d = pad then do
    let bits := ((← sextet a) * 64 + (← sextet b)) * 64 + (← sextet c)
    if bits % 4 = 0 then return [byteAt bits 10, byteAt bits 2] else none
  else decodeGroup a b c d

def decode : Bytes → Option Bytes
  | [] => some []
  | [a, b, c, d] => decodeLast a b c d
  | a :: b :: c :: d :: s => do return (← decodeGroup a b c d) ++ (← decode s)
  | _ => none

theorem decode_group {a b c d : UInt8} {group : Bytes} (hgroup : decodeGroup a b c d = some group) (s : Bytes) :
    decode (a :: b :: c :: d :: s) = (decode s).map (group ++ ·) := by
  have hd : d ≠ pad := by
    rintro rfl
    simp [decodeGroup, sextet, pad] at hgroup
  match s with
  | [] => simp [decode, decodeLast, hd, hgroup]
  | e :: s => cases h : decode (e :: s) <;> simp [decode, hgroup, h]

end Rfc4648
