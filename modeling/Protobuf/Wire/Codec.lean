import Protobuf.Wire.Zigzag
import Protobuf.Wire.Delimited

/-! Codecs: how the values of one type are laid out in a field.

A codec knows the wire type, the payload of a value, its length and how to read it. Fields, repeated
fields and packed runs are written and merged the same way for every codec. A type whose payload
announces its own length cannot be packed. -/
namespace Protobuf

structure Codec (α : Type) where
  wireType : WireType
  /-- The payload of a value. -/
  write : α → Bytes
  /-- The length of the payload, found without writing it. -/
  size : α → Nat
  read : Reader α
  /-- The value of a field before anything is read into it. -/
  zero : α

namespace Codec
variable {α β : Type} (c : Codec α)

/-! ### Fields -/

/-- A field with one value. -/
def encode (number : Nat) (value : α) : Bytes :=
  Key.encode number c.wireType ++ c.write value

/-- A field for each value. -/
def encodeRepeated (number : Nat) (values : List α) : Bytes :=
  values.flatMap (c.encode number)

/-- The length of the payloads of all values together. -/
def totalSize : List α → Nat
  | [] => 0
  | value :: rest => c.size value + totalSize rest

/-- One field that holds the payloads of all values, or nothing if there are none. -/
def encodePacked (number : Nat) (values : List α) : Bytes :=
  if values.isEmpty then []
  else
    Key.encode number .lengthDelimited ++ Varint.encode (c.totalSize values) ++
      values.flatMap c.write

def encodedLen (number : Nat) (value : α) : Nat :=
  Key.encodedLen number + c.size value

def encodedLenRepeated (number : Nat) (values : List α) : Nat :=
  Key.encodedLen number * values.length + c.totalSize values

def encodedLenPacked (number : Nat) (values : List α) : Nat :=
  if values.isEmpty then 0
  else
    Key.encodedLen number + Varint.encodedLen (c.totalSize values) + c.totalSize values

/-- Whether runs of values can share one length-delimited field. -/
def isPackable : Bool :=
  c.wireType != .lengthDelimited

/-- Reads a value over `value`, which stays as it was if that fails. -/
def merge (wireType : WireType) (value : α) (bytes : Bytes) : Merged α :=
  match checkWireType c.wireType wireType with
  | .error e => ⟨value, .error e⟩
  | .ok () =>
    match c.read bytes with
    | .error e => ⟨value, .error e⟩
    | .ok (value', rest) => ⟨value', .ok rest⟩

/-- Reads one value to the end of a list, whatever the wire type says. -/
def append (values : List α) (bytes : Bytes) : Merged (List α) :=
  match c.read bytes with
  | .error e => ⟨values, .error e⟩
  | .ok (value, rest) => ⟨values ++ [value], .ok rest⟩

/-- Reads one value, or a packed run of values, to the end of a list. What was read of a run before
a failure stays in the list. -/
def mergeRepeated (wireType : WireType) (values : List α) (bytes : Bytes) : Merged (List α) :=
  if c.isPackable && wireType == .lengthDelimited then
    Delimited.mergeDelimited c.append values bytes
  else
    match checkWireType c.wireType wireType with
    | .error e => ⟨values, .error e⟩
    | .ok () => c.append values bytes

/-- The same layout for a type that holds the values of another. -/
def lift (inject : α → β) (project : β → α) : Codec β where
  wireType := c.wireType
  write v := c.write (project v)
  size v := c.size (project v)
  read bytes :=
    match c.read bytes with
    | .error e => .error e
    | .ok (value, rest) => .ok (inject value, rest)
  zero := inject c.zero

/-! ### Varints -/

/-- A varint holds a 64-bit word. -/
def ofWord (toWord : α → Nat) (ofWord : Nat → α) (zero : α) : Codec α where
  wireType := .varint
  write v := Varint.encode (toWord v)
  size v := Varint.encodedLen (toWord v)
  read bytes :=
    match Varint.decode bytes with
    | .error e => .error e
    | .ok (word, rest) => .ok (ofWord word, rest)
  zero := zero

/-- A signed number as a 64-bit word, by two's complement. -/
def signedWord (n : Int) : Nat :=
  (n % 0x10000000000000000).toNat

def bool : Codec Bool :=
  ofWord Bool.toNat (· != 0) false

def int32 : Codec Int32 :=
  ofWord (fun n => signedWord n.toInt) Int32.ofNat 0

def int64 : Codec Int64 :=
  ofWord (fun n => signedWord n.toInt) Int64.ofNat 0

def uint32 : Codec UInt32 :=
  ofWord UInt32.toNat UInt32.ofNat 0

def uint64 : Codec UInt64 :=
  ofWord UInt64.toNat UInt64.ofNat 0

def sint32 : Codec Int32 :=
  ofWord (fun n => Zigzag.encode n.toInt)
    (fun w => Int32.ofInt (Zigzag.decode (w % 0x100000000))) 0

def sint64 : Codec Int64 :=
  ofWord (fun n => Zigzag.encode n.toInt) (fun w => Int64.ofInt (Zigzag.decode w)) 0

/-! ### Fixed widths -/

/-- The low `width` bytes of a number, the least significant first. -/
def littleEndian : (width : Nat) → Nat → Bytes
  | 0, _ => []
  | width + 1, n => UInt8.ofNat n :: littleEndian width (n / 256)

def ofLittleEndian : Bytes → Nat
  | [] => 0
  | b :: rest => b.toNat + 256 * ofLittleEndian rest

/-- A value in a fixed number of bytes. -/
def ofFixed (wireType : WireType) (width : Nat) (toWord : α → Nat) (ofWord : Nat → α) (zero : α) :
    Codec α where
  wireType := wireType
  write v := littleEndian width (toWord v)
  size _ := width
  read bytes :=
    if bytes.length < width then .error .bufferUnderflow
    else .ok (ofWord (ofLittleEndian (bytes.take width)), bytes.drop width)
  zero := zero

def fixed32 : Codec UInt32 :=
  ofFixed .thirtyTwoBit 4 UInt32.toNat UInt32.ofNat 0

def fixed64 : Codec UInt64 :=
  ofFixed .sixtyFourBit 8 UInt64.toNat UInt64.ofNat 0

def sfixed32 : Codec Int32 :=
  ofFixed .thirtyTwoBit 4 (fun n => n.toUInt32.toNat) Int32.ofNat 0

def sfixed64 : Codec Int64 :=
  ofFixed .sixtyFourBit 8 (fun n => n.toUInt64.toNat) Int64.ofNat 0

/-! ### Announced lengths -/

def bytes : Codec Bytes where
  wireType := .lengthDelimited
  write v := Varint.encode v.length ++ v
  size v := Varint.encodedLen v.length + v.length
  read := Delimited.readBytes
  zero := []

def string : Codec String where
  wireType := .lengthDelimited
  write v := Varint.encode (Utf8.encode v).length ++ Utf8.encode v
  size v := Varint.encodedLen (Utf8.encode v).length + (Utf8.encode v).length
  read bytes :=
    match Delimited.readBytes bytes with
    | .error e => .error e
    | .ok (payload, rest) =>
      match Utf8.decode? payload with
      | some text => .ok (text, rest)
      | none => .error .invalidUtf8
  zero := ""

end Codec

end Protobuf
