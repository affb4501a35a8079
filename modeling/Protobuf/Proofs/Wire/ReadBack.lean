import Mathlib.Algebra.Ring.Nat
import Protobuf.Wire.Key

/-! Varints and keys are read back as they were written.

A word of 64 bits is read back from its shortest varint, whatever follows, and its length is the one
that `Varint.encodedLen` finds from the number's binary length alone. That formula is exact up to 70
bits, which is more than is ever asked of it. Keys follow: a field number that fits in a key is read
back with its wire type, and the length of a key depends on the number only. -/
namespace Protobuf

namespace Varint

theorem encode_small {n : Nat} (h : n < 128) : encode n = [UInt8.ofNat n] := by
  rw [encode, if_pos h]

theorem encode_large {n : Nat} (h : 128 ≤ n) :
    encode n = UInt8.ofNat (n % 128 + 128) :: encode (n / 128) := by
  rw [encode, if_neg (by omega)]

theorem encode_ne_nil (n : Nat) : encode n ≠ [] := by
  rw [encode]
  split <;> simp

theorem toNat_byte {n : Nat} (h : n < 256) : (UInt8.ofNat n).toNat = n := by
  rw [UInt8.toNat_ofNat']
  exact Nat.mod_eq_of_lt h

theorem decodeUpTo_encode (room n : Nat) (h : n < 128 ^ room) (rest : Bytes) :
    decodeUpTo room (encode n ++ rest) = .ok (n, rest) ∨ room = 0 := by
  induction room generalizing n with
  | zero => exact .inr rfl
  | succ room ih =>
    left
    by_cases hn : n < 128
    · have hbyte : UInt8.ofNat n < 128 := by
        rw [UInt8.lt_iff_toNat_lt, toNat_byte (by omega)]
        exact hn
      rw [encode_small hn, List.singleton_append, decodeUpTo, if_pos hbyte, toNat_byte (by omega)]
    · have hvalue := toNat_byte (by omega : n % 128 + 128 < 256)
      have hbyte : ¬ UInt8.ofNat (n % 128 + 128) < 128 := by
        rw [UInt8.lt_iff_toNat_lt, hvalue]
        show ¬ n % 128 + 128 < 128
        omega
      have hquotient : n / 128 < 128 ^ room := by
        rw [Nat.div_lt_iff_lt_mul (by decide), ← Nat.pow_succ]
        exact h
      have hroom : room ≠ 0 := by
        rintro rfl
        omega
      have hrest := (ih (n / 128) hquotient).resolve_right hroom
      rw [encode_large (by omega), List.cons_append, decodeUpTo, if_neg hbyte, hrest, hvalue]
      show Except.ok ((n % 128 + 128) % 128 + 128 * (n / 128), rest) = Except.ok (n, rest)
      congr 2
      omega

/-- **A word is read back from its varint**, and what follows is left. -/
theorem decode_encode {n : Nat} (h : n < 2 ^ 64) (rest : Bytes) :
    decode (encode n ++ rest) = .ok (n, rest) := by
  have hread := (decodeUpTo_encode 10 n (by omega) rest).resolve_right (by decide)
  have hword : n < 0x10000000000000000 := by omega
  rw [decode, hread]
  show (if n < 0x10000000000000000 then _ else _) = _
  rw [if_pos hword]

theorem decode_encode_alone {n : Nat} (h : n < 2 ^ 64) : decode (encode n) = .ok (n, []) := by
  rw [← List.append_nil (encode n)]
  exact decode_encode h []

/-! ### Lengths -/

theorem log2_shift {n j : Nat} (h : 2 ^ j ≤ n) : n.log2 = (n / 2 ^ j).log2 + j := by
  have hpos := Nat.two_pow_pos j
  have hne : n / 2 ^ j ≠ 0 := Nat.ne_of_gt (Nat.div_pos h hpos)
  have hlow := (Nat.le_div_iff_mul_le hpos).mp (Nat.log2_self_le hne)
  have hhigh := (Nat.div_lt_iff_lt_mul hpos).mp (Nat.lt_log2_self (n := n / 2 ^ j))
  rw [Nat.log2_eq_iff (by omega), Nat.add_right_comm, Nat.pow_add, Nat.pow_add]
  exact ⟨hlow, hhigh⟩

/-- One byte for each seven binary digits. -/
theorem length_encode_eq (n : Nat) : (encode n).length = n.log2 / 7 + 1 := by
  induction n using Nat.strongRecOn with
  | ind n ih =>
    by_cases hn : n < 128
    · have hlog : n.log2 < 7 := by
        by_cases hzero : n = 0
        · subst hzero
          decide
        · exact (Nat.log2_lt hzero).mpr hn
      rw [encode_small hn, Nat.div_eq_of_lt hlog]
      rfl
    · have hlog : n.log2 = (n / 128).log2 + 7 := log2_shift (j := 7) (by omega)
      rw [encode_large (by omega), List.length_cons, ih (n / 128) (by omega), hlog]
      omega

theorem log2_max (n : Nat) : (max n 1).log2 = n.log2 := by
  by_cases hzero : n = 0
  · subst hzero
    decide
  · rw [Nat.max_eq_left (by omega)]

/-- **The length of a varint is found without writing it.** -/
theorem length_encode {n : Nat} (h : n < 2 ^ 64) : (encode n).length = encodedLen n := by
  have hlog : n.log2 < 64 := by
    by_cases hzero : n = 0
    · subst hzero
      decide
    · exact (Nat.log2_lt hzero).mpr h
  rw [length_encode_eq, encodedLen, log2_max]
  omega

end Varint

/-! ### Keys -/

namespace Key

theorem value_lt (number : Nat) (wireType : WireType) : value number wireType < 0x100000000 := by
  have htype : wireType.toNat < 8 := by cases wireType <;> decide
  unfold value
  omega

theorem encode_ne_nil (number : Nat) (wireType : WireType) : encode number wireType ≠ [] :=
  Varint.encode_ne_nil _

theorem ofValue_value {number : Nat} (hlow : 1 ≤ number) (hhigh : number ≤ maxNumber)
    (wireType : WireType) : ofValue (value number wireType) = .ok (number, wireType) := by
  have htype : wireType.toNat < 8 := by cases wireType <;> decide
  have hvalue : value number wireType = 8 * number + wireType.toNat := by
    unfold value
    unfold maxNumber at hhigh
    omega
  have hlow3 : (8 * number + wireType.toNat) % 8 = wireType.toNat := by omega
  have hrest : (8 * number + wireType.toNat) / 8 = number := by omega
  have hbig : ¬ 0x100000000 ≤ 8 * number + wireType.toNat := by
    rw [← hvalue]
    exact Nat.not_le.mpr (value_lt number wireType)
  rw [hvalue, ofValue, if_neg hbig, hlow3, WireType.ofNat?_toNat, hrest]
  show (if number = 0 then _ else _) = _
  rw [if_neg (by omega)]

/-- **A key is read back as it was written.** -/
theorem decode_encode {number : Nat} (hlow : 1 ≤ number) (hhigh : number ≤ maxNumber)
    (wireType : WireType) (rest : Bytes) :
    decode (encode number wireType ++ rest) = .ok ((number, wireType), rest) := by
  have hlt : value number wireType < 2 ^ 64 :=
    Nat.lt_trans (value_lt number wireType) (by decide)
  rw [decode, encode, Varint.decode_encode hlt]
  simp only [ofValue_value hlow hhigh]

/-- The wire type does not show in the length of a key: it only fills the three low bits. -/
theorem length_encode (number : Nat) (wireType : WireType) :
    (encode number wireType).length = encodedLen number := by
  have htype : wireType.toNat < 8 := by cases wireType <;> decide
  have hlt : value number wireType < 2 ^ 64 :=
    Nat.lt_trans (value_lt number wireType) (by decide)
  rw [encode, Varint.length_encode hlt, encodedLen, Varint.encodedLen, Varint.encodedLen,
    Varint.log2_max, Varint.log2_max]
  generalize hx : 8 * number % 0x100000000 = x
  have hvalue : value number wireType = x + wireType.toNat := by rw [value, hx]
  by_cases hzero : x = 0
  · have hsmall : (value number wireType).log2 < 3 := by
      by_cases hv : value number wireType = 0
      · rw [hv]
        decide
      · exact (Nat.log2_lt hv).mpr (by omega)
    rw [hzero, Nat.log2_zero]
    omega
  · have hkey : (value number wireType).log2 = (value number wireType / 8).log2 + 3 :=
      Varint.log2_shift (j := 3) (by omega)
    have hbare : x.log2 = (x / 8).log2 + 3 := Varint.log2_shift (j := 3) (by omega)
    rw [hkey, hbare, show value number wireType / 8 = x / 8 by omega]

end Key

end Protobuf
