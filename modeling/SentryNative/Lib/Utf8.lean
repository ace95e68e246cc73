import SentryNative.Lib.CNumber

/-!
# UTF-8

The forms that bits of a code point can be written in, with more bytes than they need as well, and the
shortest one.
-/

namespace Utf8

open CLib (Bytes)

/-- A byte that goes on with a character. -/
def continuation (bits : Nat) : UInt8 := UInt8.ofNat (0x80 + bits)

/-- Bytes that hold the bits of a code point. -/
inductive Form : Nat → Bytes → Prop
  | one {a : Nat} : a < 0x80 → Form a [UInt8.ofNat a]
  | two {a b : Nat} : a < 0x20 → b < 0x40 → Form (a * 64 + b) [UInt8.ofNat (0xc0 + a), continuation b]
  | three {a b c : Nat} : a < 0x10 → b < 0x40 → c < 0x40 →
      Form ((a * 64 + b) * 64 + c) [UInt8.ofNat (0xe0 + a), continuation b, continuation c]
  | four {a b c d : Nat} : a < 0x08 → b < 0x40 → c < 0x40 → d < 0x40 →
      Form (((a * 64 + b) * 64 + c) * 64 + d) [UInt8.ofNat (0xf0 + a), continuation b, continuation c, continuation d]

/-- The shortest form. -/
def encode (n : Nat) : Bytes :=
  if n < 0x80 then [UInt8.ofNat n]
  else if n < 0x800 then [UInt8.ofNat (0xc0 + n / 64), continuation (n % 64)]
  else if n < 0x10000 then [UInt8.ofNat (0xe0 + n / 4096), continuation (n / 64 % 64), continuation (n % 64)]
  else
    [UInt8.ofNat (0xf0 + n / 262144), continuation (n / 4096 % 64), continuation (n / 64 % 64), continuation (n % 64)]

theorem form_encode {n : Nat} (h : n ≤ 0x10FFFF) : Form n (encode n) := by
  unfold encode
  split
  · exact .one ‹_›
  split
  · have hform := Form.two (a := n / 64) (b := n % 64) (by omega) (by omega)
    rwa [show n / 64 * 64 + n % 64 = n by omega] at hform
  split
  · have hform := Form.three (a := n / 4096) (b := n / 64 % 64) (c := n % 64) (by omega) (by omega) (by omega)
    rwa [show (n / 4096 * 64 + n / 64 % 64) * 64 + n % 64 = n by omega] at hform
  · have hform := Form.four (a := n / 262144) (b := n / 4096 % 64) (c := n / 64 % 64) (d := n % 64) (by omega) (by omega)
      (by omega) (by omega)
    rwa [show ((n / 262144 * 64 + n / 4096 % 64) * 64 + n / 64 % 64) * 64 + n % 64 = n by omega] at hform

/-- Every other form is longer. -/
theorem encode_shortest {n : Nat} {bs : Bytes} (h : Form n bs) : bs = encode n ∨ (encode n).length < bs.length := by
  cases h with
  | one ha => exact .inl (by rw [encode, if_pos ha])
  | @two a b ha hb =>
    unfold encode
    split
    · exact .inr (by simp)
    · rw [if_pos (by omega)]
      exact .inl (by rw [show (a * 64 + b) / 64 = a by omega, show (a * 64 + b) % 64 = b by omega])
  | @three a b c ha hb hc =>
    unfold encode
    split
    · exact .inr (by simp)
    split
    · exact .inr (by simp)
    · rw [if_pos (by omega)]
      exact .inl (by
        rw [show ((a * 64 + b) * 64 + c) / 4096 = a by omega, show ((a * 64 + b) * 64 + c) / 64 % 64 = b by omega,
          show ((a * 64 + b) * 64 + c) % 64 = c by omega])
  | @four a b c d ha hb hc hd =>
    unfold encode
    split
    · exact .inr (by simp)
    split
    · exact .inr (by simp)
    split
    · exact .inr (by simp)
    · exact .inl (by
        rw [show (((a * 64 + b) * 64 + c) * 64 + d) / 262144 = a by omega,
          show (((a * 64 + b) * 64 + c) * 64 + d) / 4096 % 64 = b by omega,
          show (((a * 64 + b) * 64 + c) * 64 + d) / 64 % 64 = c by omega,
          show (((a * 64 + b) * 64 + c) * 64 + d) % 64 = d by omega])

/-- The shortest form is the UTF-8 of a character. -/
theorem encode_char {n : Nat} (h : n.isValidChar) : encode n = String.utf8EncodeChar (Char.ofNat n) := by
  have hval : (Char.ofNat n).val.toNat = n := by
    rw [Char.ofNat, dif_pos h]
    rfl
  have hbound : n < 0x110000 := by
    obtain hlow | hhigh := h <;> omega
  unfold encode String.utf8EncodeChar continuation
  simp only [hval]
  by_cases h1 : n < 0x80
  · rw [if_pos h1, if_pos (show n ≤ 127 by omega)]
  rw [if_neg h1, if_neg (show ¬ n ≤ 127 by omega)]
  by_cases h2 : n < 0x800
  · rw [if_pos h2, if_pos (show n ≤ 2047 by omega), show 0xc0 + n / 64 = n / 64 % 32 + 192 by omega,
      Nat.add_comm 0x80]
  rw [if_neg h2, if_neg (show ¬ n ≤ 2047 by omega)]
  by_cases h3 : n < 0x10000
  · rw [if_pos h3, if_pos (show n ≤ 65535 by omega), show 0xe0 + n / 4096 = n / 4096 % 16 + 224 by omega,
      Nat.add_comm 0x80, Nat.add_comm 0x80]
  · rw [if_neg h3, if_neg (show ¬ n ≤ 65535 by omega), show 0xf0 + n / 262144 = n / 262144 % 8 + 240 by omega,
      Nat.add_comm 0x80, Nat.add_comm 0x80, Nat.add_comm 0x80]

end Utf8
