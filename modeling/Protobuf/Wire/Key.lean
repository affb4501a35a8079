import Protobuf.Wire.Varint

/-! Keys of fields.

A key is the varint of `8 * number + wire type`, and it fits in 32 bits. Reading refuses a key above
32 bits, then a wire type that does not exist, then field number zero. -/
namespace Protobuf.Key

/-- The largest field number of a key. -/
def maxNumber : Nat := 0x1FFFFFFF

/-- The key's value; a number above `maxNumber` loses its high bits. -/
def value (number : Nat) (wireType : WireType) : Nat :=
  8 * number % 0x100000000 + wireType.toNat

def encode (number : Nat) (wireType : WireType) : Bytes :=
  Varint.encode (value number wireType)

/-- The number of bytes of a key, which does not depend on its wire type. -/
def encodedLen (number : Nat) : Nat :=
  Varint.encodedLen (8 * number % 0x100000000)

/-- Takes a key's value apart. -/
def ofValue (key : Nat) : Except Malformed (Nat × WireType) :=
  if 0x100000000 ≤ key then .error (.invalidKey key)
  else
    match WireType.ofNat? (key % 8) with
    | none => .error (.invalidWireType (key % 8))
    | some wireType => if key / 8 = 0 then .error .invalidTag else .ok (key / 8, wireType)

def decode : Reader (Nat × WireType) := fun bytes =>
  match Varint.decode bytes with
  | .error e => .error e
  | .ok (key, rest) =>
    match ofValue key with
    | .error e => .error e
    | .ok field => .ok (field, rest)

/-- A key takes at least one byte. -/
theorem decode_length_lt {field : Nat × WireType} {bytes rest : Bytes}
    (h : decode bytes = .ok (field, rest)) : rest.length < bytes.length := by
  unfold decode at h
  split at h
  · cases h
  · rename_i key tail hv
    split at h
    · cases h
    · cases h
      exact Varint.decode_length_lt hv

end Protobuf.Key
