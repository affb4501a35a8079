import Protobuf.Record.Basic

/-! Encoding messages.

Fields are written in the order of their numbers, whatever the order of declaration. A message
inside another is written behind its length, which is found without writing it. -/
namespace Protobuf.Record

/-- Whether a value of a field with implicit presence is left out. -/
def isOmitted (f : Field) (value : ScalarValue) : Bool :=
  f.cardinality == .implicit && value.isZero

/-! ### Lengths -/

/-- The length of a field that holds a payload of this length behind its announcement. -/
def delimitedLen (number length : Nat) : Nat :=
  Key.encodedLen number + Varint.encodedLen length + length

mutual

/-- The number of bytes that a field takes. -/
def fieldLen (s : Schema) (f : Field) : FieldValue → Nat
  | .absent => 0
  | .scalar value => if isOmitted f value then 0 else f.type.codec.encodedLen f.number value
  | .scalars values =>
    if f.packed then f.type.codec.encodedLenPacked f.number values
    else f.type.codec.encodedLenRepeated f.number values
  | .message record => delimitedLen f.number (lenOf s (s.fieldsInside f) record)
  | .messages records => lenOfAll s f records

/-- The number of bytes that these fields take together. -/
def lenOf (s : Schema) (fields : List Field) : List FieldValue → Nat
  | [] => 0
  | value :: rest =>
    match fields with
    | [] => 0
    | f :: others => fieldLen s f value + lenOf s others rest

def lenOfAll (s : Schema) (f : Field) : List (List FieldValue) → Nat
  | [] => 0
  | record :: rest => delimitedLen f.number (lenOf s (s.fieldsInside f) record) + lenOfAll s f rest

end

/-- The length of a message. -/
def encodedLen (s : Schema) (type : Nat) (record : Record) : Nat :=
  lenOf s (s.fields type) record

/-! ### Bytes -/

/-- A payload of the announced length. -/
def delimited (number length : Nat) (payload : Bytes) : Bytes :=
  Key.encode number .lengthDelimited ++ Varint.encode length ++ payload

/-- The parts of a message in the order of their numbers. -/
def inOrder (parts : List (Nat × Bytes)) : Bytes :=
  (parts.mergeSort fun a b => a.1 ≤ b.1).flatMap (·.2)

mutual

def encodeField (s : Schema) (f : Field) : FieldValue → Bytes
  | .absent => []
  | .scalar value => if isOmitted f value then [] else f.type.codec.encode f.number value
  | .scalars values =>
    if f.packed then f.type.codec.encodePacked f.number values
    else f.type.codec.encodeRepeated f.number values
  | .message record =>
    delimited f.number (lenOf s (s.fieldsInside f) record)
      (inOrder (parts s (s.fieldsInside f) record))
  | .messages records => encodeAll s f records

/-- The bytes of each field, with its number. -/
def parts (s : Schema) (fields : List Field) : List FieldValue → List (Nat × Bytes)
  | [] => []
  | value :: rest =>
    match fields with
    | [] => []
    | f :: others => (f.number, encodeField s f value) :: parts s others rest

def encodeAll (s : Schema) (f : Field) : List (List FieldValue) → Bytes
  | [] => []
  | record :: rest =>
    delimited f.number (lenOf s (s.fieldsInside f) record)
        (inOrder (parts s (s.fieldsInside f) record)) ++
      encodeAll s f rest

end

/-- The bytes of a message. -/
def encode (s : Schema) (type : Nat) (record : Record) : Bytes :=
  inOrder (parts s (s.fields type) record)

/-- The bytes of a message behind their length. -/
def encodeDelimited (s : Schema) (type : Nat) (record : Record) : Bytes :=
  Varint.encode (encodedLen s type record) ++ encode s type record

/-! ### Buffers of limited size -/

/-- Writes to a buffer with room for `capacity` bytes, unless `required` bytes are too many. -/
def within (capacity required : Nat) (bytes : Bytes) : Except EncodeError Bytes :=
  if capacity < required then .error ⟨required, capacity⟩ else .ok bytes

def encodeInto (s : Schema) (type : Nat) (capacity : Nat) (record : Record) :
    Except EncodeError Bytes :=
  within capacity (encodedLen s type record) (encode s type record)

def encodeDelimitedInto (s : Schema) (type : Nat) (capacity : Nat) (record : Record) :
    Except EncodeError Bytes :=
  let length := encodedLen s type record
  within capacity (length + Varint.encodedLen length) (encodeDelimited s type record)

end Protobuf.Record
