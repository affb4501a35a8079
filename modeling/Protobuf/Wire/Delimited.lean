import Protobuf.Wire.Key

/-! Payloads that announce their length.

The payload is not cut out of the bytes: `mergeDelimited` repeats a step on the whole rest until the
announced number of bytes is used up, and a step that reads past the announced end is an error. -/
namespace Protobuf.Delimited

/-- Reads the announced length, which must be there. -/
def decodeLen : Reader Nat := fun bytes =>
  match Varint.decode bytes with
  | .error e => .error e
  | .ok (len, rest) => if rest.length < len then .error .bufferUnderflow else .ok (len, rest)

/-- Reads the announced number of bytes. -/
def readBytes : Reader Bytes := fun bytes =>
  match decodeLen bytes with
  | .error e => .error e
  | .ok (len, rest) => .ok (rest.take len, rest.drop len)

/-- Repeats a step while more than `limit` bytes are left. A step that reads nothing ends it. -/
def mergeWhile (step : σ → Bytes → Merged σ) (limit : Nat) (s : σ) (bytes : Bytes) : Merged σ :=
  if limit < bytes.length then
    match step s bytes with
    | ⟨s', .error e⟩ => ⟨s', .error e⟩
    | ⟨s', .ok rest⟩ =>
      if rest.length < bytes.length then mergeWhile step limit s' rest else ⟨s', .ok rest⟩
  else ⟨s, .ok bytes⟩
termination_by bytes.length

/-- Repeats a step over a payload that announces its length. -/
def mergeDelimited (step : σ → Bytes → Merged σ) (s : σ) (bytes : Bytes) : Merged σ :=
  match decodeLen bytes with
  | .error e => ⟨s, .error e⟩
  | .ok (len, rest) =>
    let limit := rest.length - len
    match mergeWhile step limit s rest with
    | ⟨s', .error e⟩ => ⟨s', .error e⟩
    | ⟨s', .ok left⟩ =>
      if left.length = limit then ⟨s', .ok left⟩ else ⟨s', .error .delimitedLengthExceeded⟩

end Protobuf.Delimited
