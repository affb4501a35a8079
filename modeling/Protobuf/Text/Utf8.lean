/-! Bytes and their reading as UTF-8 text.

Everything that comes from outside arrives as bytes: source files, string literals after their
escapes, `string` fields on the wire. `Utf8.decode?` accepts exactly the well-formed sequences.
`Utf8.decodeLossy` reads any bytes: each maximal ill-formed part becomes one U+FFFD. -/
namespace Protobuf

/-- A byte string, read from the front. -/
abbrev Bytes := List UInt8

namespace Utf8

/-- The bytes of a text. -/
def encode (text : String) : Bytes :=
  text.toByteArray.data.toList

/-- The text whose bytes these are, if there is one. -/
def decode? (bytes : Bytes) : Option String :=
  String.fromUTF8? ⟨bytes.toArray⟩

/-- The bytes of one character. -/
def encodeChar (c : Char) : Bytes :=
  String.utf8EncodeChar c

/-- The character put in place of bytes that are not text. -/
def replacement : Char := Char.ofNat 0xFFFD

/-- A byte that can only stand inside a character. -/
def isContinuation (b : UInt8) : Bool :=
  0x80 ≤ b && b ≤ 0xBF

/-- The bytes that may follow the first byte `lead` of a multi-byte character: how many in all, and
the range of the first of them. Surrogates, overlong forms and code points above U+10FFFF are
excluded by that range. -/
def follow (lead : UInt8) : Option (Nat × UInt8 × UInt8) :=
  if 0xC2 ≤ lead && lead ≤ 0xDF then some (1, 0x80, 0xBF)
  else if lead == 0xE0 then some (2, 0xA0, 0xBF)
  else if lead == 0xED then some (2, 0x80, 0x9F)
  else if 0xE1 ≤ lead && lead ≤ 0xEF then some (2, 0x80, 0xBF)
  else if lead == 0xF0 then some (3, 0x90, 0xBF)
  else if 0xF1 ≤ lead && lead ≤ 0xF3 then some (3, 0x80, 0xBF)
  else if lead == 0xF4 then some (3, 0x80, 0x8F)
  else none

/-- How many of the bytes after `lead` belong to the character it begins, or to the start of one. -/
def tailLength (lead : UInt8) (rest : Bytes) : Nat :=
  match follow lead with
  | none => 0
  | some (count, low, high) =>
    match rest with
    | [] => 0
    | b :: others =>
      if low ≤ b && b ≤ high then 1 + ((others.take (count - 1)).takeWhile isContinuation).length
      else 0

/-- Reads any bytes as text. A maximal part that begins a character and does not finish it, or a
byte that begins none, is read as `replacement`. -/
def decodeLossy (bytes : Bytes) : List Char :=
  match bytes with
  | [] => []
  | lead :: rest =>
    let tail := tailLength lead rest
    let part := match decode? (lead :: rest.take tail) with
      | some text => text.toList
      | none => [replacement]
    part ++ decodeLossy (rest.drop tail)
termination_by bytes.length

end Utf8

end Protobuf
