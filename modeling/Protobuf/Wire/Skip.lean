import Protobuf.Wire.Delimited

/-! Skipping fields that are not known.

A payload is passed over according to its wire type; a group ends with the end-group key of its own
number. Groups nest at most as deep as the budget allows, and a field that is no group uses up one
level of it. -/
namespace Protobuf.Skip

/-- Drops a fixed number of bytes. -/
def dropBytes (count : Nat) (bytes : Bytes) : Except Malformed Bytes :=
  if bytes.length < count then .error .bufferUnderflow else .ok (bytes.drop count)

/-- Skips the fields of a group and its end, each field by `skip`. A field that leaves as many bytes
as there were in front of its key ends it too. -/
def group (skip : WireType → Nat → Bytes → Except Malformed Bytes) (number : Nat) (bytes : Bytes) :
    Except Malformed Bytes :=
  match Key.decode bytes with
  | .error e => .error e
  | .ok ((inner, wireType), rest) =>
    if wireType = .endGroup then
      if inner = number then .ok rest else .error .unexpectedEndGroup
    else
      match skip wireType inner rest with
      | .error e => .error e
      | .ok left => if left.length < bytes.length then group skip number left else .ok left
termination_by bytes.length

/-- Skips the payload of a field with this wire type and number. -/
def field : (budget : Nat) → WireType → Nat → Bytes → Except Malformed Bytes
  | 0, _, _, _ => .error .recursionLimitReached
  | budget + 1, wireType, number, bytes =>
    match wireType with
    | .varint =>
      match Varint.decode bytes with
      | .error e => .error e
      | .ok (_, rest) => .ok rest
    | .thirtyTwoBit => dropBytes 4 bytes
    | .sixtyFourBit => dropBytes 8 bytes
    | .lengthDelimited =>
      match Delimited.readBytes bytes with
      | .error e => .error e
      | .ok (_, rest) => .ok rest
    | .startGroup => group (field budget) number bytes
    | .endGroup => .error .unexpectedEndGroup

end Protobuf.Skip
