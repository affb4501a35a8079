import Protobuf.Wire.Basic

/-! Base-128 varints.

A number is written in groups of seven bits, the least significant first, and every byte but the
last has its high bit set. Writing uses the fewest bytes; `encodedLen` gives their number from the
number's binary length alone. Reading accepts longer forms too, but at most ten bytes and nothing
that needs more than 64 bits. -/
namespace Protobuf.Varint

/-- The shortest varint of a number. -/
def encode (n : Nat) : Bytes :=
  if n < 128 then [UInt8.ofNat n] else UInt8.ofNat (n % 128 + 128) :: encode (n / 128)
termination_by n

/-- The number of bytes of the shortest varint: one for each seven binary digits. -/
def encodedLen (n : Nat) : Nat :=
  ((max n 1).log2 * 9 + 73) / 64

/-- Reads groups of seven bits from at most `room` bytes. -/
def decodeUpTo : (room : Nat) → Reader Nat
  | 0, _ => .error .invalidVarint
  | _ + 1, [] => .error .bufferUnderflow
  | room + 1, b :: rest =>
    if b < 128 then .ok (b.toNat, rest)
    else
      match decodeUpTo room rest with
      | .error e => .error e
      | .ok (n, rest') => .ok (b.toNat % 128 + 128 * n, rest')

/-- Reads a varint of at most ten bytes that fits in 64 bits. -/
def decode : Reader Nat := fun bytes =>
  match decodeUpTo 10 bytes with
  | .error e => .error e
  | .ok (n, rest) =>
    if n < 0x10000000000000000 then .ok (n, rest) else .error .invalidVarint

/-- The groups that are read lie in front of the bytes left over. -/
theorem decodeUpTo_length_lt {room n : Nat} {bytes rest : Bytes}
    (h : decodeUpTo room bytes = .ok (n, rest)) : rest.length < bytes.length := by
  induction room generalizing bytes n with
  | zero => simp [decodeUpTo] at h
  | succ room ih =>
    cases bytes with
    | nil => simp [decodeUpTo] at h
    | cons b tail =>
      rw [decodeUpTo] at h
      split at h
      · cases h
        simp
      · split at h
        · cases h
        · rename_i hrest
          cases h
          exact Nat.lt_succ_of_lt (ih hrest)

/-- A varint takes at least one byte. -/
theorem decode_length_lt {n : Nat} {bytes rest : Bytes} (h : decode bytes = .ok (n, rest)) :
    rest.length < bytes.length := by
  unfold decode at h
  split at h
  · cases h
  · rename_i hread
    split at h
    · cases h
      exact decodeUpTo_length_lt hread
    · cases h

end Protobuf.Varint
